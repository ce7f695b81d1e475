import CommitChain.Proofs.Machine.Faults
import CommitChain.Proofs.Proof.Proving
import CommitChain.Proofs.Reader
import CommitChain.Proofs.Session.Kept

/-!
# Directives on a store directory

What each directive does, in one place (`Committing`, `Starting`, `Proving`, `Chaining`), and what
that makes of a session whose ledger is kept in a store directory (`Backed`).
-/

namespace CommitChain

namespace Chain

variable {ω : Type} {c : Chain ω} {payloads : Payloads ω} {expected : Commitment}
  {input fn : Value} {result : Machine.TracedEvaluation} {step : Step}

/-- The output of a step can be printed. -/
theorem Offered.printed (h : Offered c payloads expected input fn result step) :
    ∃ text, printed step.output = .ok text := by
  obtain ⟨_, _, hencode⟩ := Value.encodeStrict_eq_ok.1 h.outputEncoding
  obtain ⟨_, text, htext⟩ := encodingProblem?_eq_none.1 h.encodings_ok.2
  rw [← hencode] at htext
  obtain ⟨printedText, hprint⟩ := Option.isSome_iff_exists.1
    (Value.render_isSome false step.output (Json.canonical_eq_ok.1 htext).2.1)
  refine ⟨printedText, ?_⟩
  rw [CommitChain.printed, Value.print?, hprint]

end Chain

namespace Session

open Archive

variable {dir : Path} {lines : List StepRecord} {saved : Option (Commitment × List Int)}
  {s s' : Session}

/-- What an expression evaluates to is regular. -/
theorem regular_of_evaluate {config : Config} {text : String} {v : Value}
    (h : evaluate config text = .ok v) : v.Regular := by
  obtain ⟨expr, hread, h⟩ := bind_eq_ok.1 h
  obtain ⟨r, hrun, h⟩ := bind_eq_ok.1 h
  cases h
  have hexpr : expr.Regular := Value.regular_of_read (orFail_eq_ok.1 hread)
  have hstart : (Machine.State.eval expr Env.empty []).Regular :=
    ⟨hexpr, Env.regular_empty, fun _ hp => absurd hp List.not_mem_nil⟩
  obtain ⟨_, hreturns, _⟩ := Machine.evaluate_eq_ok_iff.1 (orFail_eq_ok.1 hrun)
  exact hreturns.regular hstart

/-- The session with another ledger. -/
def withLedger (s : Session) (l : Ledger Disk) : Session :=
  { s with ledger := l }

theorem onLedger_eq {α : Type} {x : Action (Ledger Disk) α} {r : Except Failure α} :
    onLedger x s = (r, s') ↔ ∃ l, x s.ledger = (r, l) ∧ s' = s.withLedger l := by
  rw [onLedger, Action.on_eq]
  exact exists_congr fun l => and_congr_right fun _ => eq_comm

/-! ## What directives do -/

/-- Committing fails before anything is stored, or stores the value. -/
inductive Committing (s : Session) : Except Failure CommitResult → Session → Prop
  | early (e : Failure) : Committing s (.error e) s
  | refused {v : Value} {e : Failure} {l : Ledger Disk} (regular : v.Regular)
      (stored : Ledger.commit v s.ledger = (.error e, l)) :
      Committing s (.error e) (s.withLedger l)
  | stored {v : Value} {c : Commitment} {l : Ledger Disk} {r : Except Failure CommitResult}
      (regular : v.Regular) (stored : Ledger.commit v s.ledger = (.ok c, l))
      (unhindered : Unhindered r) (reported : ∀ result, r = .ok result → result.commitment = c) :
      Committing s r (s.withLedger l)

theorem committing {text : String} {r : Except Failure CommitResult}
    (h : commit text s = (r, s')) : Committing s r s' := by
  rw [commit, Action.state_bind] at h
  cases hv : evaluate s.config text with
  | error e =>
    rw [hv, Action.of_error_bind] at h
    obtain ⟨rfl, rfl⟩ := Prod.ext_iff.1 h
    exact .early e
  | ok v =>
    rw [hv, Action.of_ok_bind] at h
    cases hc : v.commitment with
    | error e =>
      rw [hc, orFail, Action.of_error_bind] at h
      obtain ⟨rfl, rfl⟩ := Prod.ext_iff.1 h
      exact .early _
    | ok c =>
      rw [hc, orFail, Action.of_ok_bind] at h
      have hregular := regular_of_evaluate hv
      cases hl : Ledger.commit v s.ledger with
      | mk r₁ l =>
        have hon : onLedger (Ledger.commit v) s = (r₁, s.withLedger l) := onLedger_eq.2 ⟨l, hl, rfl⟩
        cases r₁ with
        | error e =>
          rw [Action.bind_error hon] at h
          obtain ⟨rfl, rfl⟩ := Prod.ext_iff.1 h
          exact .refused hregular hl
        | ok c' =>
          rw [Action.bind_ok hon] at h
          obtain rfl : c = c' := by
            rw [Ledger.commit, Ledger.onPayloads] at hl
            obtain ⟨_, hcommit, _⟩ := Action.on_eq.1 hl
            exact Except.ok.inj (hc.symm.trans (Payloads.commit_eq_ok hcommit).1)
          cases hp : printed v with
          | error e =>
            rw [hp, Action.of_error_bind] at h
            obtain ⟨rfl, rfl⟩ := Prod.ext_iff.1 h
            refine .stored hregular hl (fun fault he => ?_) fun result he => absurd he (by simp)
            unfold printed at hp
            split at hp
            · exact absurd hp (by simp)
            · cases hp
              exact absurd he (by simp)
          | ok payload =>
            rw [hp, Action.of_ok_bind] at h
            obtain ⟨rfl, rfl⟩ := Prod.ext_iff.1 h
            refine .stored hregular hl (unhindered_ok _) fun result he => ?_
            rw [← Except.ok.inj he]

/-- Persisting the chain writes its file if there are a directory and a head. -/
inductive Persisting (s : Session) : Except Failure Unit → Session → Prop
  | idle (nothing : ∀ dir head, s.root = some dir → s.ledger.chain.head? ≠ some head) :
      Persisting s (.ok ()) s
  | wrote {dir : Path} {head : Commitment} {r : Except Failure Unit} {world : Disk}
      (root : s.root = some dir) (standing : s.ledger.chain.head? = some head)
      (saved : saveChain dir head s.ledger.chain.proven s.ledger.world = (r, world)) :
      Persisting s r (s.withLedger { s.ledger with world := world })

theorem persisting {r : Except Failure Unit} (h : persistChain s = (r, s')) :
    Persisting s r s' := by
  rw [persistChain, Action.state_bind] at h
  rcases hroot : s.root with _ | dir
  · rw [hroot] at h
    obtain ⟨rfl, rfl⟩ := Prod.ext_iff.1 h
    refine .idle fun dir head hdir => ?_
    rw [hroot] at hdir
    exact absurd hdir (by simp)
  rcases hhead : s.ledger.chain.head? with _ | head
  · rw [hroot, hhead] at h
    obtain ⟨rfl, rfl⟩ := Prod.ext_iff.1 h
    exact .idle fun dir head _ he => absurd (hhead.symm.trans he) (by simp)
  · rw [hroot, hhead] at h
    obtain ⟨l, hl, rfl⟩ := onLedger_eq.1 h
    obtain ⟨world, hw, rfl⟩ := Action.on_eq.1 hl
    exact .wrote hroot hhead hw

/-- The session with a first head. -/
def started (s : Session) (genesis : Commitment) : Session :=
  s.withLedger { s.ledger with chain := { s.ledger.chain with standing := .active genesis } }

/-- Starting fails before anything is done, since the chain stands or the head is not stored, or
makes the head active and persists the chain. -/
inductive Starting (s : Session) (genesis : Commitment) : Except Failure Unit → Session → Prop
  | early (e : Failure) (hindered : ¬(s.ledger.chain.standing = .fresh ∧
      ∃ p, s.ledger.payloads.find? genesis = some p)) : Starting s genesis (.error e) s
  | begun {r : Except Failure Unit} {s' : Session} (fresh : s.ledger.chain.standing = .fresh)
      (stored : ∃ p, s.ledger.payloads.find? genesis = some p)
      (persisted : persistChain (s.started genesis) = (r, s')) : Starting s genesis r s'

theorem starting {genesis : Commitment} {r : Except Failure Unit}
    (h : startAt genesis s = (r, s')) : Starting s genesis r s' := by
  cases hc : s.ledger.chain.start s.ledger.payloads genesis with
  | error e =>
    have hon : onLedger (Ledger.start genesis) s = (.error e, s) :=
      onLedger_eq.2 ⟨s.ledger, by rw [Ledger.start, hc], rfl⟩
    rw [startAt, Action.bind_error hon] at h
    obtain ⟨rfl, rfl⟩ := Prod.ext_iff.1 h
    refine .early e fun hstart => ?_
    rw [Chain.start_eq_ok.2 ⟨hstart.1, hstart.2, rfl⟩] at hc
    exact absurd hc (by simp)
  | ok c =>
    obtain ⟨hfresh, hstored, rfl⟩ := Chain.start_eq_ok.1 hc
    have hon : onLedger (Ledger.start genesis) s = (.ok (), s.started genesis) :=
      onLedger_eq.2 ⟨_, by rw [Ledger.start, hc], rfl⟩
    rw [startAt, Action.bind_ok hon] at h
    exact .begun hfresh hstored h

/-- Proving fails before anything is stored, or stores the proof, marks its step and writes the file
of the chain. -/
inductive Proving (s : Session) : Except Failure ProveResult → Session → Prop
  | early (e : Failure) : Proving s (.error e) s
  | refused {bytes : ByteArray} {e : Failure} {l : Ledger Disk}
      (stored : Ledger.putProof (proofIdentifier bytes) bytes s.ledger = (.error e, l)) :
      Proving s (.error e) (s.withLedger l)
  | marked {record : StepRecord} {bytes : ByteArray} {b : Bool} {l : Ledger Disk}
      {r : Except Failure Unit} {s' : Session} {result : ProveResult}
      (owned : s.ledger.chain.owns record = true)
      (stored : Ledger.putProof (proofIdentifier bytes) bytes s.ledger = (.ok b, l))
      (persisted : persistChain (s.withLedger
        { l with chain := l.chain.markProven record.index }) = (r, s'))
      (reported : result.identifier = proofIdentifier bytes) :
      Proving s (r.map fun _ => result) s'

/-- Proving one record of an attached chain. -/
theorem proving_record (ha : s.ledger.attached = true) {backend : Backend}
    {limit : Option Binary64} {record : StepRecord} {r : Except Failure ProveResult}
    (h : (onLedger (Ledger.prove backend limit record) >>= fun proof => persistChain >>= fun _ =>
      pure (⟨proof.identifier, proof.index, proof.artifact.size⟩ : ProveResult)) s = (r, s')) :
    Proving s r s' := by
  cases hl : Ledger.prove backend limit record s.ledger with
  | mk r₁ l₁ =>
    have hon : onLedger (Ledger.prove backend limit record) s = (r₁, s.withLedger l₁) :=
      onLedger_eq.2 ⟨l₁, hl, rfl⟩
    cases Ledger.ends_of_prove ha hl with
    | foreign other =>
      rw [Action.bind_error hon] at h
      obtain ⟨rfl, rfl⟩ := Prod.ext_iff.1 h
      exact .early _
    | unmade =>
      rw [Action.bind_error hon] at h
      obtain ⟨rfl, rfl⟩ := Prod.ext_iff.1 h
      exact .early _
    | unstored _ _ refused =>
      rw [Action.bind_error hon] at h
      obtain ⟨rfl, rfl⟩ := Prod.ext_iff.1 h
      exact .refused refused
    | @proved bytes b l owned _ stored =>
      rw [Action.bind_ok hon] at h
      cases hpersist : persistChain (s.withLedger (l.marking record)) with
      | mk r₃ s₃ =>
        have hproving : Proving s (r₃.map fun _ =>
            (⟨proofIdentifier bytes, record.index, bytes.size⟩ : ProveResult)) s₃ :=
          .marked owned stored hpersist rfl
        cases r₃ with
        | ok =>
          rw [Action.bind_ok hpersist] at h
          obtain ⟨rfl, rfl⟩ := Prod.ext_iff.1 h
          exact hproving
        | error e =>
          rw [Action.bind_error hpersist] at h
          obtain ⟨rfl, rfl⟩ := Prod.ext_iff.1 h
          exact hproving

theorem proving (ha : s.ledger.attached = true) {index : Option Int} {timeout : Option Binary64}
    {r : Except Failure ProveResult} (h : prove index timeout s = (r, s')) : Proving s r s' := by
  rw [prove, Action.state_bind, proveWith, Action.state_bind] at h
  cases index with
  | some i =>
    dsimp only at h
    cases hr : s.ledger.chain.record? i with
    | some record =>
      simp only [hr] at h
      exact proving_record ha h
    | none =>
      simp only [hr] at h
      obtain ⟨rfl, rfl⟩ := Prod.ext_iff.1 h
      exact .early _
  | none =>
    dsimp only at h
    cases hl : s.ledger.chain.pending.getLast? with
    | some record =>
      have hon : onLedger (Ledger.provePending s.backend (timeLimit s.config timeout)) s
          = onLedger (Ledger.prove s.backend (timeLimit s.config timeout) record) s :=
        onLedger_eq.2 ⟨_, Ledger.provePending_eq ha hl, rfl⟩
      rw [Action.bind_congr hon] at h
      exact proving_record ha h
    | none =>
      have hpending : onLedger (Ledger.provePending s.backend (timeLimit s.config timeout)) s
          = (.error (.nothingToProve true), s) :=
        onLedger_eq.2 ⟨s.ledger,
          Ledger.provePending_eq_error ha (List.getLast?_eq_none_iff.1 hl), rfl⟩
      rw [Action.bind_error hpending] at h
      obtain ⟨rfl, rfl⟩ := Prod.ext_iff.1 h
      exact .early _

/-- A chain that stands, or one that is started. -/
inductive Begun (s : Session) (expected : Commitment) : Session → Prop
  | standing (started : s.ledger.chain.standing ≠ .fresh) : Begun s expected s
  | started {s₁ : Session} (fresh : s.ledger.chain.standing = .fresh)
      (start : startAt expected s = (.ok (), s₁)) : Begun s expected s₁

/-- A step fails before anything is done, or starts a fresh chain and advances the ledger. -/
inductive Chaining (s : Session) (commitment input : String) :
    Except Failure ChainResult → Session → Prop
  | early (e : Failure) : Chaining s commitment input (.error e) s
  | unstarted {expected : Commitment} {e : Failure} {s₁ : Session}
      (fresh : s.ledger.chain.standing = .fresh) (start : startAt expected s = (.error e, s₁)) :
      Chaining s commitment input (.error e) s₁
  | failed {expected : Commitment} {v : Value} {e : Failure} {s₁ : Session} {l : Ledger Disk}
      (named : commitmentOfText commitment = .ok expected)
      (evaluated : evaluate s.config input = .ok v) (begun : Begun s expected s₁)
      (advance : Ledger.advance expected v s₁.ledger = (.error e, l)) :
      Chaining s commitment input (.error e) (s₁.withLedger l)
  | done {expected : Commitment} {v : Value} {step : Chain.Step} {s₁ : Session}
      {l : Ledger Disk} {result : ChainResult}
      (named : commitmentOfText commitment = .ok expected)
      (evaluated : evaluate s.config input = .ok v) (begun : Begun s expected s₁)
      (advance : Ledger.advance expected v s₁.ledger = (.ok step, l))
      (reported : result.newHead = step.newHead) :
      Chaining s commitment input (.ok result) (s₁.withLedger l)

/-- The output of a step that succeeded can be shown. -/
theorem shown_of_advance {expected : Commitment} {input : Value} {step : Chain.Step}
    {l l' : Ledger Disk} (h : Ledger.advance expected input l = (.ok step, l')) :
    ∃ text, printed step.output = .ok text ∧
      step.output.encodeStrict = .ok step.record.claim.output := by
  obtain ⟨c, payloads, world, ha, _⟩ := Archive.advance_eq h
  obtain ⟨fn, result, _, hadvanced⟩ := Chain.advance_eq_ok ha
  obtain ⟨text, htext⟩ := hadvanced.printed
  exact ⟨text, htext, hadvanced.outputEncoding⟩

/-- What a directive reports about a step. -/
def shown (step : Chain.Step) : Action Session ChainResult := do
  let output ← Action.of (printed step.output)
  let encoding ← Action.of (orFail .serialization step.output.encodeStrict)
  return {
    index := step.record.index
    prior := step.record.claim.prior
    output
    encoding
    newHead := step.newHead
    frameCount := step.record.trace.frames.length }

/-- A step of a chain that has begun advances the ledger. -/
theorem chain_of_begun {commitment input : String} {expected : Commitment} {v : Value}
    {s₁ : Session} (he : commitmentOfText commitment = .ok expected)
    (hv : evaluate s.config input = .ok v) (hb : Begun s expected s₁) :
    chain commitment input s = (onLedger (Ledger.advance expected v) >>= shown) s₁ := by
  rw [chain, he, Action.of_ok_bind, Action.state_bind, hv, Action.of_ok_bind]
  cases hb with
  | standing started =>
    rw [if_neg started]
    rfl
  | started fresh start =>
    rw [if_pos fresh]
    exact Action.bind_ok start

/-- Showing a step that succeeded does nothing else. -/
theorem shown_eq {expected : Commitment} {v : Value} {step : Chain.Step} {s₁ : Session}
    {l : Ledger Disk} (ha : Ledger.advance expected v s₁.ledger = (.ok step, l)) :
    ∃ result, (onLedger (Ledger.advance expected v) >>= shown) s₁
        = (.ok result, s₁.withLedger l) ∧ result.newHead = step.newHead := by
  obtain ⟨text, hprinted, hencoding⟩ := shown_of_advance ha
  have hon : onLedger (Ledger.advance expected v) s₁ = (.ok step, s₁.withLedger l) :=
    onLedger_eq.2 ⟨l, ha, rfl⟩
  rw [Action.bind_ok hon, shown, hprinted, Action.of_ok_bind, hencoding, orFail,
    Action.of_ok_bind]
  exact ⟨_, rfl, rfl⟩

theorem chaining {commitment input : String} {r : Except Failure ChainResult}
    (h : chain commitment input s = (r, s')) : Chaining s commitment input r s' := by
  cases he : commitmentOfText commitment with
  | error e =>
    rw [chain, he, Action.of_error_bind] at h
    obtain ⟨rfl, rfl⟩ := Prod.ext_iff.1 h
    exact .early e
  | ok expected =>
    cases hv : evaluate s.config input with
    | error e =>
      rw [chain, he, Action.of_ok_bind, Action.state_bind, hv, Action.of_error_bind] at h
      obtain ⟨rfl, rfl⟩ := Prod.ext_iff.1 h
      exact .early e
    | ok v =>
      have begun : ∀ s₁, Begun s expected s₁ → Chaining s commitment input r s' := by
        intro s₁ hb
        rw [chain_of_begun he hv hb] at h
        cases ha : Ledger.advance expected v s₁.ledger with
        | mk r' l =>
          cases r' with
          | error e =>
            rw [Action.bind_error (onLedger_eq.2 ⟨l, ha, rfl⟩)] at h
            obtain ⟨rfl, rfl⟩ := Prod.ext_iff.1 h
            exact .failed he hv hb ha
          | ok step =>
            obtain ⟨result, hshown, hreported⟩ := shown_eq ha
            obtain ⟨rfl, rfl⟩ := Prod.ext_iff.1 (hshown.symm.trans h)
            exact .done he hv hb ha hreported
      by_cases hfresh : s.ledger.chain.standing = .fresh
      · cases hs : startAt expected s with
        | mk r₁ s₁ =>
          cases r₁ with
          | ok u => exact begun s₁ (.started hfresh hs)
          | error e =>
            rw [chain, he, Action.of_ok_bind, Action.state_bind, hv, Action.of_ok_bind,
              if_pos hfresh] at h
            obtain ⟨rfl, rfl⟩ := Prod.ext_iff.1 ((Action.bind_error hs).symm.trans h)
            exact .unstarted hfresh hs
      · exact begun s (.standing hfresh)

/-! ## Sessions that are backed by a directory -/

/-- A session whose ledger is kept in a store directory. -/
structure Backed (dir : Path) (lines : List StepRecord) (saved : Option (Commitment × List Int))
    (s : Session) : Prop where
  root : s.root = some dir
  kept : Kept dir s.config.stepLimit lines saved s.ledger

theorem Backed.withLedger (h : Backed dir lines saved s) {lines' : List StepRecord}
    {saved' : Option (Commitment × List Int)} {l : Ledger Disk}
    (hl : Kept dir s.config.stepLimit lines' saved' l) :
    Backed dir lines' saved' (s.withLedger l) :=
  ⟨h.root, hl⟩

/-- Whether a session goes on from another: neither its settings nor what it has stored are lost. -/
structure GoesOn (dir : Path) (whole : Prop) (s s' : Session) : Prop where
  config : s'.config = s.config
  grown : Grown dir whole s.ledger s'.ledger

theorem GoesOn.refl (dir : Path) (whole : Prop) (s : Session) : GoesOn dir whole s s :=
  ⟨rfl, .refl dir whole s.ledger⟩

theorem GoesOn.trans {whole : Prop} {s'' : Session} (h : GoesOn dir whole s s')
    (h' : GoesOn dir whole s' s'') : GoesOn dir whole s s'' :=
  ⟨h'.config.trans h.config, h.grown.trans h'.grown⟩

theorem GoesOn.imp {whole whole' : Prop} (h : GoesOn dir whole s s') (hw : whole' → whole) :
    GoesOn dir whole' s s' :=
  ⟨h.config, h.grown.imp hw⟩

theorem goesOn_chain {whole : Prop} (s : Session) (c : Chain Disk) :
    GoesOn dir whole s (s.withLedger { s.ledger with chain := c }) :=
  ⟨rfl, Archive.grown_of_leaves rfl rfl (leaves_refl _ _ _)⟩

theorem Backed.active (h : Backed dir lines saved s)
    (hs : s.ledger.chain.standing ≠ .fresh) : ∃ head, s.ledger.chain.standing = .active head := by
  cases hstanding : s.ledger.chain.standing with
  | fresh => exact absurd hstanding hs
  | active head => exact ⟨head, rfl⟩
  | faulted head => exact absurd hstanding (h.kept.equipped.sound.chain.running head)

/-- Writing the file of an active chain. -/
theorem Backed.persistChain (h : Backed dir lines saved s) {head : Commitment}
    (ha : s.ledger.chain.standing = .active head) {r : Except Failure Unit}
    (hp : persistChain s = (r, s')) :
    s'.ledger.chain = s.ledger.chain ∧ GoesOn dir True s s' ∧
      (r = .ok () ∧ Backed dir lines (some (head, s.ledger.chain.proven)) s' ∨
        ∃ fault, r = .error (.disk fault) ∧ Backed dir lines saved s') := by
  have hhead : s.ledger.chain.head? = some head := by rw [Chain.head?, ha, Standing.head?]
  cases persisting hp with
  | idle nothing => exact absurd hhead (nothing dir head h.root)
  | wrote root standing saved =>
    obtain rfl : _ = dir := Option.some.inj (root.symm.trans h.root)
    obtain rfl : _ = head := Option.some.inj (standing.symm.trans hhead)
    obtain ⟨hk, hg⟩ := h.kept.saveChain ha saved
    refine ⟨rfl, ⟨rfl, hg⟩, ?_⟩
    rcases hk with ⟨rfl, hk⟩ | ⟨fault, rfl, hk⟩
    · exact .inl ⟨rfl, h.withLedger hk⟩
    · exact .inr ⟨fault, rfl, h.withLedger hk⟩

/-- Committing leaves the chain and its files. -/
theorem Backed.commit (h : Backed dir lines saved s) {text : String}
    {r : Except Failure CommitResult} (hc : commit text s = (r, s')) :
    Backed dir lines saved s' ∧ s'.ledger.chain = s.ledger.chain ∧
      GoesOn dir (Unhindered r) s s' := by
  cases committing hc with
  | early e => exact ⟨h, rfl, .refl dir _ s⟩
  | refused regular stored =>
    obtain ⟨hk, hg, hchain⟩ := h.kept.commit regular stored
    refine ⟨h.withLedger hk, hchain, rfl, hg.imp fun hu fault he => hu fault ?_⟩
    rw [Except.error.inj he]
  | stored regular stored unhindered reported =>
    obtain ⟨hk, hg, hchain⟩ := h.kept.commit regular stored
    exact ⟨h.withLedger hk, hchain, rfl, hg.imp fun _ => unhindered_ok _⟩

/-- Starting the chain fails with nothing done, or makes the head active, whose file is then written
or not. -/
theorem Backed.startAt (h : Backed dir lines saved s) {genesis : Commitment}
    {r : Except Failure Unit} (hs : startAt genesis s = (r, s')) :
    (∃ e, r = .error e) ∧ s' = s ∨
      s.ledger.chain.standing = .fresh ∧
        s'.ledger.chain = { s.ledger.chain with standing := .active genesis } ∧
        GoesOn dir True s s' ∧
        (r = .ok () ∧ Backed dir lines (some (genesis, s.ledger.chain.proven)) s' ∨
          ∃ fault, r = .error (.disk fault) ∧ Backed dir lines saved s') := by
  cases starting hs with
  | early e => exact .inl ⟨⟨e, rfl⟩, rfl⟩
  | begun fresh stored persisted =>
    obtain ⟨hchain, hgoes, hend⟩ :=
      (h.withLedger (h.kept.start fresh stored)).persistChain rfl persisted
    exact .inr ⟨fresh, hchain, (goesOn_chain s _).trans hgoes, hend⟩

/-- Proving leaves the chain and its files, or marks a step and writes the file of the chain or
not. -/
theorem Backed.prove (h : Backed dir lines saved s) {index : Option Int}
    {timeout : Option Binary64} {r : Except Failure ProveResult}
    (hp : prove index timeout s = (r, s')) :
    GoesOn dir (Unhindered r) s s' ∧
      ((∃ e, r = .error e) ∧ s'.ledger.chain = s.ledger.chain ∧ Backed dir lines saved s' ∨
        ∃ record head, s.ledger.chain.owns record = true ∧
          s.ledger.chain.standing = .active head ∧
          s'.ledger.chain = s.ledger.chain.markProven record.index ∧
          ((∃ result, r = .ok result) ∧
              Backed dir lines (some (head, s'.ledger.chain.proven)) s' ∨
            ∃ fault, r = .error (.disk fault) ∧ Backed dir lines saved s')) := by
  cases proving h.kept.equipped.attached hp with
  | early e => exact ⟨.refl dir _ s, .inl ⟨⟨e, rfl⟩, rfl, h⟩⟩
  | refused stored =>
    obtain ⟨hk, hg, hchain⟩ := h.kept.putProof stored
    refine ⟨⟨rfl, hg.imp fun hu fault he => hu fault ?_⟩, .inl ⟨⟨_, rfl⟩, hchain, h.withLedger hk⟩⟩
    rw [Except.error.inj he]
  | @marked record bytes b l r₁ _ result owned stored persisted reported =>
    obtain ⟨hk, hg, hchain⟩ := h.kept.putProof stored
    have hstarted : s.ledger.chain.standing ≠ .fresh := by
      intro hfresh
      obtain ⟨hlow, hhigh⟩ := Chain.index_le_of_owns owned
      rw [h.kept.equipped.sound.chain.history_of_fresh hfresh, List.length_nil] at hhigh
      omega
    obtain ⟨head, hactive⟩ := h.active hstarted
    have hmarked := hk.markProven (r := record) (by rw [hchain]; exact owned)
    obtain ⟨hchain', hgoes, hend⟩ := (h.withLedger hmarked).persistChain
      (by show l.chain.standing = _; rw [hchain]; exact hactive) persisted
    have hstore : GoesOn dir True s (s.withLedger l) := ⟨rfl, hg.imp fun _ => unhindered_ok _⟩
    have hgoes' : GoesOn dir True s s' :=
      (hstore.trans (goesOn_chain (s.withLedger l) _)).trans hgoes
    have hmark : s'.ledger.chain = s.ledger.chain.markProven record.index := by
      rw [hchain', Session.withLedger, hchain]
    refine ⟨hgoes'.imp fun _ => trivial, .inr ⟨record, head, owned, hactive, hmark, ?_⟩⟩
    rcases hend with ⟨rfl, hb⟩ | ⟨fault, rfl, hb⟩
    · refine .inl ⟨⟨result, rfl⟩, ?_⟩
      rw [hchain']
      exact hb
    · exact .inr ⟨fault, rfl, hb⟩

/-- A step of a chain that has begun and fails leaves the chain, and leaves the lines or tears one;
one that succeeds adds a record and its line. -/
theorem Backed.advance (h : Backed dir lines saved s) {expected : Commitment} {v : Value}
    (hv : v.Regular) {r : Except Failure Chain.Step} {l : Ledger Disk}
    (ha : Ledger.advance expected v s.ledger = (r, l)) :
    GoesOn dir (Unhindered r) s (s.withLedger l) ∧
      ((∃ e, r = .error e ∧ l.chain = s.ledger.chain ∧ (Backed dir lines saved (s.withLedger l) ∨
          ∃ torn fault, e = .disk fault ∧
            Backed dir (lines ++ [torn]) saved (s.withLedger l))) ∨
        ∃ step, r = .ok step ∧ step.record.index = s.ledger.chain.history.length + 1 ∧
          l.chain = s.ledger.chain.extend step.record step.newHead ∧
          Backed dir (lines ++ [step.record]) (some (step.newHead, s.ledger.chain.proven))
            (s.withLedger l)) := by
  cases r with
  | error e =>
    obtain ⟨hchain, ⟨hk, hg⟩ | ⟨step, fault, he, htorn⟩⟩ := h.kept.advance_eq_error hv ha
    · refine ⟨⟨rfl, hg.imp fun hu fault he => hu fault ?_⟩,
        .inl ⟨e, rfl, hchain, .inl (h.withLedger hk)⟩⟩
      rw [Except.error.inj he]
    · exact ⟨⟨rfl, htorn.grown.imp fun _ => trivial⟩,
        .inl ⟨e, rfl, hchain, .inr ⟨step.record, fault, he, h.withLedger htorn.kept⟩⟩⟩
  | ok step =>
    obtain ⟨hchain, hindex, hg, hk⟩ := h.kept.advance_eq_ok hv ha
    exact ⟨⟨rfl, hg.imp fun _ => trivial⟩, .inr ⟨step, rfl, hindex, hchain, h.withLedger hk⟩⟩

end Session

end CommitChain
