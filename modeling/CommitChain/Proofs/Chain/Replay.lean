import CommitChain.Proofs.Chain.Atomic
import CommitChain.Proofs.Proof.Prover

/-!
# Steps from a head that was taken before

A head is a commitment and no more, so a step that is asked for twice is refused the second time if
and only if the first one has moved the head (`advance_again`).  A function that comes back as the
next one leaves the head where it is, and then the same head is good for another step
(`recurrent_steps_twice`).
-/

namespace CommitChain

namespace Chain

variable {ω : Type} {c : Chain ω} {payloads : Payloads ω} {world : ω} {p : Commitment}

/-- A head is good for one step if the step moves it: then every other step from it is refused
and changes nothing.  The step moves the head unless the next function has the commitment of the
one that was called, and then that function is there to be called again. -/
theorem advance_again {x : Value} {step : Step} {s s' : Chain ω × Payloads ω × ω}
    (h : advance p x s = (.ok step, s')) :
    (step.newHead ≠ p →
      ∀ y, advance p y s' = (.error (.headMismatch p step.newHead), s')) ∧
    ∃ fn, headFunction p s = (.ok fn, s) ∧ fn.commitment = .ok p ∧
      (step.newHead = p ↔ step.next.commitment = fn.commitment) ∧
      (step.newHead = p → headFunction p s' = (.ok fn, s')) := by
  obtain ⟨c, payloads, world⟩ := s
  obtain ⟨c', payloads', world'⟩ := s'
  obtain ⟨fn, result, hc, hadvanced⟩ := advance_eq_ok h
  obtain rfl : c' = c.extend step.record step.newHead := hc
  obtain ⟨world₁, hcommit, _⟩ := hadvanced.committed
  have hnext : step.next.commitment = .ok step.newHead := (Payloads.commit_eq_ok hcommit).1
  have hstanding : (c.extend step.record step.newHead).standing = .active step.newHead := rfl
  obtain ⟨q, hq, hvalue⟩ := hadvanced.stored
  refine ⟨fun hne y => advance_of_mismatch hstanding (Ne.symm hne) y, fn, ?_,
    hadvanced.commitment, ?_, ?_⟩
  · exact headFunction_of_stored hadvanced.standing hadvanced.isFunction hadvanced.commitment
      ⟨q, hq, hvalue⟩
  · rw [hnext, hadvanced.commitment, Except.ok.injEq]
  · intro hsame
    have hkept : payloads'.find? p = some q :=
      (Payloads.find?_commit step.next p q).after hcommit hq
    exact headFunction_of_stored (hstanding.trans (congrArg Standing.active hsame))
      hadvanced.isFunction hadvanced.commitment ⟨q, hkept, hvalue⟩

/-- A step from the identity to another function is not made again. -/
theorem advance_again_after_identity : ∃ (head : Commitment) (step : Step)
    (s : Chain Unit × Payloads Unit × Unit),
    let stored : Payloads Unit := ⟨[(head, ⟨Ledger.identity, Ledger.identity.encode⟩)], []⟩
    advance head .nil ({ refusing head with listeners := [] }, stored, ()) = (.ok step, s) ∧
      ∀ y, advance head y s = (.error (.headMismatch head step.newHead), s) := by
  obtain ⟨head, newHead, stored', hidentity, hne, hcommit, _⟩ := exists_heads
  let chain : Chain Unit := { refusing head with listeners := [] }
  have heval : chain.evaluator Ledger.identity [.nil] (.str head.text)
      = .ok ⟨⟨.cons .nil toNil, 0⟩, []⟩ := rfl
  have hactive : chain.standing = .active head := rfl
  obtain ⟨step, hstep, hadvance⟩ := advance_of_answer hactive rfl rfl hidentity
    ⟨_, Ledger.find?_storing head Ledger.identity, rfl⟩ heval rfl rfl rfl hcommit
  refine ⟨head, step, _, hadvance, (advance_again hadvance).1 ?_⟩
  rw [hstep]
  exact hne.symm

end Chain

namespace Ledger

open Machine

/-- A chain of the function that gives itself back is at its first head after two steps from it. -/
theorem recurrent_steps_twice : ∃ (head : Commitment) (first second : Chain.Step)
    (l l' : Ledger Unit),
    let started := (start head (commit recurrent (fresh (evaluator defaultLimit) ())).2).2
    Reached started ∧ started.chain.standing = .active head ∧
      advance head .nil started = (.ok first, l) ∧ advance head .nil l = (.ok second, l') ∧
      l'.chain.standing = .active head ∧ l'.chain.history = [first.record, second.record] := by
  obtain ⟨text, htext⟩ : ∃ text, recurrent.encode.canonical = .ok text :=
    ⟨_, Json.canonical_eq_ok.2 ⟨rfl, (rfl : Json.integersFit _ = true), rfl⟩⟩
  obtain ⟨head, hc⟩ := exists_commitmentOf htext
  obtain ⟨result, hresult, hvalue⟩ := evaluate_recurrent head.text
  have hstrict : recurrent.encodeStrict = .ok recurrent.encode := rfl
  have hreached : Reached (start head (commit recurrent (fresh (evaluator defaultLimit) ())).2).2 :=
    .next (.next (.fresh (evaluator defaultLimit) ()) (.commit _ recurrent)) (.start _ head)
  let chain : Chain Unit := ⟨evaluator defaultLimit, .active head, [], [], []⟩
  have hactive : chain.standing = .active head := rfl
  obtain ⟨first, hfirst⟩ := step_again hactive rfl rfl hstrict hc htext rfl hresult hvalue
  have hactive' : (chain.extend first.record head).standing = .active head := rfl
  obtain ⟨second, hsecond⟩ := step_again hactive' rfl rfl hstrict hc htext rfl hresult hvalue
  refine ⟨head, first, second,
    ⟨storing head recurrent, .empty, chain.extend first.record head, true, ()⟩,
    ⟨storing head recurrent, .empty,
      (chain.extend first.record head).extend second.record head, true, ()⟩, ?_⟩
  rw [start_commit hstrict hc] at hreached ⊢
  exact ⟨hreached, rfl, hfirst, hsecond, rfl, rfl⟩

end Ledger

end CommitChain
