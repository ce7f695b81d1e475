import CommitChain.Proofs.Chain.Proven
import CommitChain.Proofs.Proof.Prover

/-!
# Proving one record

A call to prove a record of an attached chain ends in one of four ways (`Ends`): the record is none
of the chain's, the backend makes no proof of it, the proof is not stored, or the proof is stored
and the step marked.  The first two change nothing.  The third comes of other bytes under the
identifier of the proof, which changes nothing either, or of a listener that fails.  So for every
backend proving is atomic while the listeners of the proofs take what they hear
(`prove_is_atomic`).
-/

namespace CommitChain

variable {ω : Type}

namespace Ledger

/-! ## Attached chains -/

theorem keeps_attached_prove (backend : Backend) (limit : Option Binary64) (r : StepRecord) :
    Action.Keeps (fun l : Ledger ω => l.attached = true) (prove backend limit r) :=
  keeps_prove (fun _ _ h => h) (fun _ _ h _ => h) backend limit r

theorem Next.attached {l l' : Ledger ω} (h : Next l l') (ha : l.attached = true) :
    l'.attached = true := by
  cases h with
  | start genesis =>
    unfold Ledger.start
    split
    · exact ha
    · exact ha
  | prove backend limit r => exact keeps_attached_prove backend limit r l ha
  | provePending backend limit =>
    exact keeps_provePending (P := fun l => l.attached = true) (fun _ _ h => h) (fun _ _ h _ => h)
      backend limit l ha
  | _ => exact ha

/-- Every chain that can be reached is attached to the prover. -/
theorem Reached.attached {l : Ledger ω} (h : Reached l) : l.attached = true := by
  induction h with
  | fresh evaluator world => rfl
  | opened h =>
    refine Session.of_make (P := fun l => l.attached = true) h rfl (fun dir => ?_) fun _ _ ha => ha
    exact Archive.keeps_load (fun _ _ h => h) (fun _ _ _ h => h) (fun _ _ _ _ _ _ ha _ => ha) dir
  | next _ h ih => exact h.attached ih

/-! ## How a call ends -/

/-- The proof of a record. -/
def proofOf (r : StepRecord) (bytes : ByteArray) : Proof :=
  ⟨proofIdentifier bytes, bytes, r.claim, r.index⟩

/-- The ledger in which a step is marked as proved. -/
def marking (l : Ledger ω) (r : StepRecord) : Ledger ω :=
  { l with chain := l.chain.markProven r.index }

/-- How a call to prove a record of an attached chain ends. -/
inductive Ends (backend : Backend) (limit : Option Binary64) (r : StepRecord) (l : Ledger ω) :
    Except Failure Proof → Ledger ω → Prop
  | foreign (other : l.chain.owns r = false) :
      Ends backend limit r l (.error (.proving (.foreignRecord r.index))) l
  | unmade {e : Failure} (owned : l.chain.owns r = true)
      (failed : attempt backend limit r = .error e)
      (none : ∀ bytes, backend.prove r.claim r.trace ≠ .artifact bytes) :
      Ends backend limit r l (.error e) l
  | unstored {bytes : ByteArray} {e : Failure} {l' : Ledger ω} (owned : l.chain.owns r = true)
      (made : backend.prove r.claim r.trace = .artifact bytes)
      (refused : putProof (proofIdentifier bytes) bytes l = (.error e, l')) :
      Ends backend limit r l (.error e) l'
  | proved {bytes : ByteArray} {b : Bool} {l' : Ledger ω} (owned : l.chain.owns r = true)
      (made : backend.prove r.claim r.trace = .artifact bytes)
      (stored : putProof (proofIdentifier bytes) bytes l = (.ok b, l')) :
      Ends backend limit r l (.ok (proofOf r bytes)) (l'.marking r)

theorem attempt_eq (backend : Backend) (limit : Option Binary64) (r : StepRecord) :
    (∃ bytes, backend.prove r.claim r.trace = .artifact bytes ∧
        attempt backend limit r = .ok bytes) ∨
      (∀ bytes, backend.prove r.claim r.trace ≠ .artifact bytes) ∧
        ∃ e, attempt backend limit r = .error e := by
  rw [attempt]
  cases backend.prove r.claim r.trace with
  | artifact bytes => exact .inl ⟨bytes, rfl, rfl⟩
  | failed f => exact .inr ⟨fun bytes => by simp, _, rfl⟩
  | unfinished => exact .inr ⟨fun bytes => by simp, _, rfl⟩

variable {l l' : Ledger ω} {backend : Backend} {limit : Option Binary64} {r : StepRecord}
  {result : Except Failure Proof}

theorem ends_of_prove (ha : l.attached = true) (h : prove backend limit r l = (result, l')) :
    Ends backend limit r l result l' := by
  rw [prove, Action.state_bind, ha, Bool.true_and] at h
  split at h
  next hnot =>
    obtain ⟨rfl, rfl⟩ := Prod.ext_iff.1 h
    exact .foreign (by simpa using hnot)
  next hnot =>
    have owned : l.chain.owns r = true := by simpa using hnot
    rcases attempt_eq backend limit r with ⟨bytes, made, hb⟩ | ⟨none, e, hb⟩
    · rw [hb, Action.of_ok_bind] at h
      cases hp : putProof (proofIdentifier bytes) bytes l with
      | mk stored l₁ =>
        cases stored with
        | error e =>
          rw [Action.bind_error hp] at h
          obtain ⟨rfl, rfl⟩ := Prod.ext_iff.1 h
          exact .unstored owned made hp
        | ok b =>
          have hattached : l₁.attached = true := by
            rw [putProof, onProofs] at hp
            obtain ⟨_, _, rfl⟩ := Action.on_eq.1 hp
            exact ha
          rw [Action.bind_ok hp] at h
          have hmarked : (Except.ok (proofOf r bytes), l₁.marking r) = (result, l') := by
            rw [← h]
            show _ = (Except.ok _, if l₁.attached = true then _ else l₁)
            rw [if_pos hattached]
            rfl
          obtain ⟨rfl, rfl⟩ := Prod.ext_iff.1 hmarked
          exact .proved owned made hp
    · rw [hb, Action.of_error_bind] at h
      obtain ⟨rfl, rfl⟩ := Prod.ext_iff.1 h
      exact .unmade owned hb none

/-! ## Calls for what is pending -/

theorem provePending_eq (ha : l.attached = true) (hlast : l.chain.pending.getLast? = some r) :
    provePending backend limit l = prove backend limit r l := by
  rw [provePending, Action.state_bind, if_pos ha, hlast]

theorem provePending_eq_error (ha : l.attached = true) (hnil : l.chain.pending = []) :
    provePending backend limit l = (.error (.nothingToProve true), l) := by
  rw [provePending, Action.state_bind, if_pos ha, hnil]
  rfl

/-! ## Listeners that take what they hear -/

/-- What storing a proof does to a ledger while nobody refuses it: the listeners act if they hear of
something new, and nothing else changes. -/
structure Stores (identifier : String) (bytes : ByteArray) (l l' : Ledger ω) : Prop where
  stored : l'.proofs.find? identifier = some bytes
  others : ∀ other, other ≠ identifier → l'.proofs.find? other = l.proofs.find? other
  world : l'.world = l.world ∨ l.proofs.find? identifier = none ∧
    l'.world = (l.proofs.announce identifier bytes l.world).2
  rest : l' = { l with
    proofs := { l.proofs with entries := l'.proofs.entries }
    world := l'.world }

theorem stores_of_found {l : Ledger ω} {identifier : String} {bytes : ByteArray}
    (h : l.proofs.find? identifier = some bytes) : Stores identifier bytes l l :=
  ⟨h, fun _ _ => rfl, .inl rfl, rfl⟩

/-- A proof is stored unless there are other bytes under its identifier. -/
theorem putProof_heeded {l l' : Ledger ω} {identifier : String} {bytes : ByteArray}
    {result : Except Failure Bool}
    (heeded : l.proofs.find? identifier = none →
      (l.proofs.announce identifier bytes l.world).1 = .ok ())
    (h : putProof identifier bytes l = (result, l')) :
    (result = .error (.storeConflict identifier) ∧ l' = l ∧
        ∃ other, l.proofs.find? identifier = some other ∧ other ≠ bytes) ∨
      (∃ b, result = .ok b) ∧ (∀ stored ∈ l.proofs.find? identifier, stored = bytes) ∧
        Stores identifier bytes l l' := by
  cases hf : l.proofs.find? identifier with
  | some other =>
    by_cases hother : other = bytes
    · obtain rfl := hother
      rw [putProof_same hf] at h
      obtain ⟨rfl, rfl⟩ := Prod.ext_iff.1 h
      exact .inr ⟨⟨false, rfl⟩, by simp, stores_of_found hf⟩
    · rw [putProof_taken hf hother] at h
      obtain ⟨rfl, rfl⟩ := Prod.ext_iff.1 h
      exact .inl ⟨rfl, rfl, other, rfl, hother⟩
  | none =>
    rw [putProof_new hf, heeded hf] at h
    obtain ⟨rfl, rfl⟩ := Prod.ext_iff.1 h
    refine .inr ⟨⟨true, rfl⟩, by simp, Store.find?_added bytes hf, fun other hother => ?_,
      .inr ⟨hf, rfl⟩, rfl⟩
    rw [Store.find?, Store.findEntry?_concat, if_neg (Ne.symm hother), Option.or_none, Store.find?]

/-- A proof of a record and what making it does to a ledger: it is stored under the identifier of its
bytes, the step is marked, and the listeners act if they hear of something new. -/
structure Proves (backend : Backend) (r : StepRecord) (l : Ledger ω) (proof : Proof)
    (l' : Ledger ω) : Prop where
  made : backend.prove r.claim r.trace = .artifact proof.artifact
  identifier : proof.identifier = proofIdentifier proof.artifact
  claim : proof.claim = r.claim
  index : proof.index = r.index
  free : ∀ stored ∈ l.proofs.find? proof.identifier, stored = proof.artifact
  stored : l'.proofs.find? proof.identifier = some proof.artifact
  others : ∀ key, key ≠ proof.identifier → l'.proofs.find? key = l.proofs.find? key
  proven : ∀ i, i ∈ l'.chain.proven ↔ i = r.index ∨ i ∈ l.chain.proven
  world : l'.world = l.world ∨ l.proofs.find? proof.identifier = none ∧
    l'.world = (l.proofs.announce proof.identifier proof.artifact l.world).2
  rest : l' = { l with
    proofs := { l.proofs with entries := l'.proofs.entries }
    chain := l.chain.markProven r.index
    world := l'.world }

theorem Stores.proves {bytes : ByteArray} (h : Stores (proofIdentifier bytes) bytes l l')
    (made : backend.prove r.claim r.trace = .artifact bytes)
    (free : ∀ stored ∈ l.proofs.find? (proofIdentifier bytes), stored = bytes) :
    Proves backend r l (proofOf r bytes) (l'.marking r) where
  made := made
  identifier := rfl
  claim := rfl
  index := rfl
  free := free
  stored := h.stored
  others := h.others
  proven i := by
    have hproven : l'.chain = l.chain := by rw [h.rest]
    rw [marking, hproven]
    exact mem_insertNumber
  world := h.world
  rest := by
    have hrest := h.rest
    rw [marking, hrest]

/-- The listeners of the proofs take what a backend makes of a record, if it is new to them. -/
def Heeds (l : Ledger ω) (backend : Backend) (r : StepRecord) : Prop :=
  ∀ bytes, backend.prove r.claim r.trace = .artifact bytes →
    l.proofs.find? (proofIdentifier bytes) = none →
      (l.proofs.announce (proofIdentifier bytes) bytes l.world).1 = .ok ()

/-- How a call ends whose proof is heeded: with nothing changed, or with a proof. -/
inductive Settles (backend : Backend) (r : StepRecord) (l : Ledger ω) :
    Except Failure Proof → Ledger ω → Prop
  | foreign (other : l.chain.owns r = false) :
      Settles backend r l (.error (.proving (.foreignRecord r.index))) l
  | unmade {e : Failure} (owned : l.chain.owns r = true)
      (none : ∀ bytes, backend.prove r.claim r.trace ≠ .artifact bytes) :
      Settles backend r l (.error e) l
  | taken {bytes other : ByteArray} (owned : l.chain.owns r = true)
      (made : backend.prove r.claim r.trace = .artifact bytes)
      (found : l.proofs.find? (proofIdentifier bytes) = some other) (differs : other ≠ bytes) :
      Settles backend r l (.error (.storeConflict (proofIdentifier bytes))) l
  | proved {bytes : ByteArray} {l' : Ledger ω} (owned : l.chain.owns r = true)
      (proves : Proves backend r l (proofOf r bytes) l') :
      Settles backend r l (.ok (proofOf r bytes)) l'

theorem settles_of_prove (ha : l.attached = true) (heeds : l.Heeds backend r)
    (h : prove backend limit r l = (result, l')) : Settles backend r l result l' := by
  cases ends_of_prove ha h with
  | foreign other => exact .foreign other
  | unmade owned _ none => exact .unmade owned none
  | unstored owned made refused =>
    rcases putProof_heeded (heeds _ made) refused with
      ⟨he, rfl, other, found, differs⟩ | ⟨⟨b, hb⟩, _⟩
    · obtain rfl := Except.error.inj he
      exact .taken owned made found differs
    · cases hb
  | proved owned made stored =>
    rcases putProof_heeded (heeds _ made) stored with ⟨hb, _⟩ | ⟨_, free, stores⟩
    · cases hb
    · exact .proved owned (stores.proves made free)

/-! ## The main result -/

/-- **Proving is atomic.**  A call to prove a record of an attached chain that fails changes nothing,
whatever the backend does.  It fails for every record that the chain has not under its number.  It
succeeds exactly if the backend makes something of a record of the chain and no other bytes are under
the identifier of that; then that is stored and the step is marked (`Proves`).  Marked steps stay
steps of the chain.  The listeners of the proofs must take what they hear. -/
theorem prove_is_atomic (ha : l.attached = true) (heeds : l.Heeds backend r)
    (h : prove backend limit r l = (result, l')) :
    (∀ e, result = .error e → l' = l) ∧
    ((¬∃ own, 1 ≤ r.index ∧ l.chain.history[r.index - 1]? = some own ∧ own.same r = true) →
      result = .error (.proving (.foreignRecord r.index))) ∧
    (∀ proof, result = .ok proof → Proves backend r l proof l') ∧
    ((∃ proof, result = .ok proof) ↔ l.chain.owns r = true ∧
      ∃ bytes, backend.prove r.claim r.trace = .artifact bytes ∧
        ∀ stored ∈ l.proofs.find? (proofIdentifier bytes), stored = bytes) ∧
    ((∀ i ∈ l.chain.proven, 1 ≤ i ∧ i ≤ (l.chain.history.length : Int)) →
      ∀ i ∈ l'.chain.proven, 1 ≤ i ∧ i ≤ (l'.chain.history.length : Int)) := by
  rw [← Chain.owns_iff]
  cases settles_of_prove ha heeds h with
  | foreign other => simp [other]
  | unmade owned none => simp [owned, none]
  | @taken bytes other owned made found differs => simp [owned, made, found, differs]
  | @proved bytes _ owned proves =>
    refine ⟨by simp, fun hnot => absurd owned hnot, fun proof hproof => ?_, ?_, fun hrange i hi => ?_⟩
    · obtain rfl := Except.ok.inj hproof
      exact proves
    · exact iff_of_true ⟨_, rfl⟩ ⟨owned, bytes, proves.made, proves.free⟩
    · have hlength : l'.chain.history = l.chain.history := by rw [proves.rest]; rfl
      rw [hlength]
      rcases (proves.proven i).1 hi with rfl | hi
      · have hindex := Chain.index_le_of_owns owned
        omega
      · exact hrange i hi

/-- A first step is proved by a backend that makes the same of every record. -/
theorem prove_is_atomic_after_step : ∃ (l l' : Ledger Unit) (backend : Backend) (r : StepRecord)
    (proof : Proof), l.attached = true ∧ l.Heeds backend r ∧
      prove backend none r l = (.ok proof, l') ∧ Proves backend r l proof l' := by
  obtain ⟨l, r, hl, hr, hproofs⟩ := exists_worked_step
  let backend : Backend := ⟨fun _ _ => .artifact .empty, fun _ _ => .ok .accepted⟩
  have hunheard : l.proofs.listeners = [] := by rw [hproofs]; rfl
  have heeds : l.Heeds backend r := fun bytes _ _ => by
    rw [Store.announce, hunheard]
    rfl
  have ha := hl.reached.attached
  have ho := owns_of_mem hl.reached.sound hr (hl.working.evaluated r hr)
  have made : backend.prove r.claim r.trace = .artifact .empty := rfl
  obtain ⟨l', h, _⟩ := prove_eq none hunheard ho made fun stored h => by
    rw [hproofs] at h
    cases h
  exact ⟨l, l', backend, r, _, ha, heeds, h, (prove_is_atomic ha heeds h).2.2.1 _ rfl⟩

end Ledger

end CommitChain
