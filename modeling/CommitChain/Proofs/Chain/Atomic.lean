import CommitChain.Proofs.Chain.Sound
import CommitChain.Proofs.Reached

/-!
# Steps are atomic

A step that fails leaves the chain as it was, whichever of its parts failed and whatever the
listeners did; only a head whose payload does not hash to it stops the chain.  The store may have
gained the next function by then, since that is committed before the record is checked and heard.

A step that succeeds adds one record, which leads from the old head to the new one
(`advance_is_atomic`).
-/

namespace CommitChain.Chain

variable {ω : Type} {c c' : Chain ω} {payloads payloads' : Payloads ω} {world world' : ω}
  {expected : Commitment} {input : Value}

/-- The payload of the head does not hash to the head. -/
def Mismatched (payloads : Payloads ω) (head : Commitment) : Prop :=
  ∃ p actual, payloads.find? head = some p ∧ p.value.commitment = .ok actual ∧ actual ≠ head

/-- What a step may do to the store: nothing, or it adds the next function, as the evaluator gave
it, under its own commitment. -/
def Gained (c : Chain ω) (payloads : Payloads ω) (expected : Commitment) (input : Value)
    (payloads' : Payloads ω) : Prop :=
  payloads' = payloads ∨
    ∃ fn result output next, Produced c payloads expected input fn result output next ∧
      Payloads.Added next payloads payloads'

theorem Produced.gained {fn output next : Value} {result : Machine.TracedEvaluation}
    (h : Produced c payloads expected input fn result output next) {r : Except Failure Commitment}
    (hc : Payloads.commit next (payloads, world) = (r, payloads', world')) :
    Gained c payloads expected input payloads' := by
  rcases Payloads.eq_or_added_of_commit hc with he | hadded
  · exact .inl he
  · exact .inr ⟨fn, result, output, next, h, hadded⟩

theorem Stopped.gained {e : Failure}
    (h : Stopped c payloads world expected input e payloads' world') :
    Gained c payloads expected input payloads' := by
  cases h with
  | early => exact .inl rfl
  | commit produced committed _ => exact produced.gained committed
  | heard offered committed _ => exact offered.gained committed

/-- A step that fails leaves the chain and all entries of the store; it may add the next function,
and it stops the chain if the payload of the head does not hash to the head.  A step that succeeds
adds one record, from the old head to the new one, which is stored then. -/
theorem advance_is_atomic {r : Except Failure Step}
    (h : advance expected input (c, payloads, world) = (r, c', payloads', world')) :
    Gained c payloads expected input payloads' ∧
      (∀ e, r = .error e → c' = c ∨
        ∃ head, c.standing = .active head ∧ Mismatched payloads head ∧
          c' = { c with standing := .faulted head } ∧ payloads' = payloads) ∧
      ∀ step, r = .ok step →
        c.standing = .active expected ∧
          c' = { c with history := c.history ++ [step.record], standing := .active step.newHead } ∧
          step.record.claim.prior = expected.text ∧
          step.record.claim.newHead = step.newHead.text ∧
          ∃ p, payloads'.find? step.newHead = some p := by
  cases r with
  | error e =>
    rcases advance_eq_error h with ⟨head, p, actual, hs, hp, ha, hne, hfaulted⟩ | ⟨hc, hstopped⟩
    · cases hfaulted
      refine ⟨.inl rfl, fun _ _ => .inr ⟨head, hs, ⟨p, actual, hp, ha, hne⟩, rfl, rfl⟩, ?_⟩
      intro step hr
      exact absurd hr (by simp)
    · refine ⟨hstopped.gained, fun _ _ => .inl hc, ?_⟩
      intro step hr
      exact absurd hr (by simp)
  | ok step =>
    obtain ⟨fn, result, hc, hadvanced⟩ := advance_eq_ok h
    obtain ⟨world₁, hcommit, _⟩ := hadvanced.committed
    refine ⟨hadvanced.gained hcommit, fun e hr => absurd hr (by simp), ?_⟩
    intro step' hr
    cases hr
    exact ⟨hadvanced.standing, hc, hadvanced.prior, hadvanced.newHead,
      (Payloads.commit_eq_ok hcommit).2⟩

/-! ## A step that is refused -/

/-- A function other than `Ledger.identity`. -/
def toNil : Value :=
  .closure ["x"] .nil []

/-- A chain whose evaluator goes on to `toNil` and whose listener refuses every step. -/
def refusing (head : Commitment) : Chain Unit :=
  ⟨fun _ _ _ => .ok ⟨⟨.cons .nil toNil, 0⟩, []⟩, .active head, [], [],
    [fun _ _ => Action.fail (.stopped "refused")]⟩

/-- The store of `Ledger.identity`, and its commitment there. -/
def storedIdentity : Except Failure Commitment × Payloads Unit × Unit :=
  Payloads.commit Ledger.identity (.empty, ())

theorem commitment_identity_ne_toNil :
    Ledger.identity.commitment.toOption ≠ toNil.commitment.toOption := by
  decide +kernel

/-- Behind the identity `toNil` is stored under a head of its own. -/
theorem exists_heads : ∃ head newHead : Commitment, ∃ payloads' : Payloads Unit,
    Ledger.identity.commitment = .ok head ∧ head ≠ newHead ∧
      Payloads.commit toNil (Ledger.storing head Ledger.identity, ())
        = (.ok newHead, payloads', ()) ∧ payloads'.size = 2 := by
  obtain ⟨head, hhead⟩ : ∃ head, commitmentOf Ledger.identity.encode = .ok head :=
    exists_commitmentOf (Json.canonical_eq_ok.2 ⟨rfl, (rfl : Json.integersFit _ = true), rfl⟩)
  obtain ⟨newHead, hnewHead⟩ : ∃ newHead, commitmentOf toNil.encode = .ok newHead :=
    exists_commitmentOf (Json.canonical_eq_ok.2 ⟨rfl, (rfl : Json.integersFit _ = true), rfl⟩)
  have hidentity : Ledger.identity.commitment = .ok head := hhead
  have hto : toNil.commitment = .ok newHead := hnewHead
  have hne : head ≠ newHead := by
    intro heq
    refine commitment_identity_ne_toNil ?_
    rw [hidentity, hto, heq]
  have hfree : (Ledger.storing head Ledger.identity).find? newHead = none := by
    simp [Ledger.storing, Store.find?, Store.findEntry?, hne]
  have hstrict : toNil.encodeStrict = .ok toNil.encode := rfl
  exact ⟨head, newHead, _, hidentity, hne, Payloads.commit_new hstrict hnewHead hfree (), rfl⟩

theorem refused_eq : (storedIdentity.1.toOption.map fun head =>
    ((advance head .nil (refusing head, storedIdentity.2)).1.toOption.isNone,
      (advance head .nil (refusing head, storedIdentity.2)).2.2.1.size)) = some (true, 2) := by
  obtain ⟨head, newHead, payloads', hidentity, _, hcommit, hsize⟩ := exists_heads
  have hhead : commitmentOf Ledger.identity.encode = .ok head := hidentity
  have hstored : storedIdentity = (.ok head, Ledger.storing head Ledger.identity, ()) :=
    Payloads.commit_new rfl hhead rfl ()
  have heval : (refusing head).evaluator Ledger.identity [.nil] (.str head.text)
      = .ok ⟨⟨.cons .nil toNil, 0⟩, []⟩ := rfl
  obtain ⟨step, hnewHead, hnext, hoffered⟩ := exists_offered newHead
    (rfl : (refusing head).standing = _) rfl hidentity
    ⟨_, Ledger.find?_storing head Ledger.identity, rfl⟩ heval rfl rfl rfl
  rw [← hnext, ← hnewHead] at hcommit
  have hadvance := (advance_of_offered hoffered hcommit rfl).2 _ rfl
  rw [hstored]
  simp only [Except.toOption, Option.map_some, hadvance, hsize, Option.isNone_none]

/-- The step comes to nothing after the next function was stored. -/
theorem advance_is_atomic_when_refused : ∃ head e c' payloads',
    advance head .nil (refusing head, storedIdentity.2) = (.error e, c', payloads', ()) ∧
      payloads'.size = 2 ∧ Gained (refusing head) storedIdentity.2.1 head .nil payloads' ∧
      (c' = refusing head ∨ ∃ k, (refusing head).standing = .active k ∧
        Mismatched storedIdentity.2.1 k ∧ c' = { refusing head with standing := .faulted k } ∧
        payloads' = storedIdentity.2.1) := by
  obtain ⟨head, _, hout⟩ := Option.map_eq_some_iff.1 refused_eq
  obtain ⟨hnone, hsize⟩ := Prod.ext_iff.1 hout
  cases ha : advance head .nil (refusing head, storedIdentity.2) with
  | mk r s =>
    obtain ⟨c', payloads', world⟩ := s
    rw [ha] at hnone hsize
    cases r with
    | ok step => exact absurd hnone (by simp [Except.toOption])
    | error e =>
      obtain ⟨hgained, hfailed, _⟩ := advance_is_atomic ha
      exact ⟨head, e, c', payloads', ha, hsize, hgained, hfailed e rfl⟩

end CommitChain.Chain
