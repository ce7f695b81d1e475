import CommitChain.Proofs.Chain.Proven
import CommitChain.Proofs.Reached

/-!
# Taking up chains

`resume` sorts the records that it is given and checks each against the one before it.  It accepts
exactly the records that can be laid in a row up to the head (`LinkedUpTo`), which does not mention
an order, and gives the one chain that they make, in whatever order they come.

So a snapshot of an active chain (its head, its records and the numbers of the proved ones) can be
taken up again, as long as those numbers are numbers of its records.  That holds of every chain that
can be reached (`Reached.marked`), since a step is marked as proved only if it is one of the chain.
-/

namespace CommitChain

namespace Chain

/-- Records numbered from one to their number, each once, each starting from the new head of the one
with the number before, the last of them leading to the head. -/
structure LinkedUpTo (head : Commitment) (records : List StepRecord) : Prop where
  numbered : (records.map StepRecord.index).Perm (List.range' 1 records.length)
  joined : ∀ r ∈ records, ∀ next ∈ records, next.index = r.index + 1 →
    next.claim.prior = r.claim.newHead
  last : ∀ r ∈ records, r.index = records.length → r.claim.newHead = head.text

variable {ω : Type} {head : Commitment} {records other : List StepRecord}

theorem LinkedUpTo.perm (h : LinkedUpTo head records) (hp : records.Perm other) :
    LinkedUpTo head other where
  numbered := by
    rw [← hp.length_eq]
    exact (hp.map _).symm.trans h.numbered
  joined r hr next hnext := h.joined r (hp.mem_iff.2 hr) next (hp.mem_iff.2 hnext)
  last r hr hi := h.last r (hp.mem_iff.2 hr) (hi.trans hp.length_eq.symm)

/-! ## Records in order -/

theorem getElem?_of_mem_getLast? {r : StepRecord} (h : r ∈ records.getLast?) :
    records[records.length - 1]? = some r := by
  rwa [List.getLast?_eq_getElem?] at h

/-- In ascending order such records are linked. -/
theorem LinkedUpTo.linked (h : LinkedUpTo head records)
    (hs : records.Pairwise fun a b => a.index ≤ b.index) :
    Linked records ∧ ∀ r ∈ records.getLast?, r.claim.newHead = head.text := by
  have hnumbered : records.map StepRecord.index = List.range' 1 records.length :=
    h.numbered.eq_of_pairwise (fun _ _ _ _ => Nat.le_antisymm) (List.pairwise_map.2 hs)
      List.pairwise_le_range'
  have hindex : ∀ (i : Nat) r, records[i]? = some r → r.index = i + 1 :=
    fun i r => index_eq_of_numbered hnumbered
  refine ⟨linked_iff_getElem?.2 ⟨hindex, fun i r next hr hnext => ?_⟩, fun r hr => ?_⟩
  · exact h.joined r (List.mem_of_getElem? hr) next (List.mem_of_getElem? hnext)
      (by rw [hindex _ _ hr, hindex _ _ hnext])
  · have hmem := List.mem_of_getLast? hr
    have hlength := List.length_pos_of_mem hmem
    refine h.last r hmem ?_
    rw [hindex _ _ (getElem?_of_mem_getLast? hr)]
    omega

theorem Linked.linkedUpTo (h : Linked records)
    (hl : ∀ r ∈ records.getLast?, r.claim.newHead = head.text) : LinkedUpTo head records := by
  obtain ⟨hindex, hjoined⟩ := linked_iff_getElem?.1 h
  refine ⟨.of_eq h.numbered, fun r hr next hnext hi => ?_, fun r hr hi => ?_⟩
  · obtain ⟨i, hri⟩ := List.mem_iff_getElem?.1 hr
    obtain ⟨j, hnj⟩ := List.mem_iff_getElem?.1 hnext
    obtain rfl : j = i + 1 := by
      rw [hindex i r hri, hindex j next hnj] at hi
      omega
    exact hjoined i r next hri hnj
  · obtain ⟨i, hri⟩ := List.mem_iff_getElem?.1 hr
    refine hl r ?_
    rw [hindex i r hri] at hi
    rw [List.getLast?_eq_getElem?, ← hi]
    exact hri

theorem ordered_perm (records : List StepRecord) : (ordered records).Perm records :=
  List.mergeSort_perm _ _

theorem ordered_ascending (records : List StepRecord) :
    (ordered records).Pairwise fun a b => a.index ≤ b.index := by
  refine (List.pairwise_mergeSort (fun a b c hab hbc => ?_) (fun a b => ?_) records).imp
    of_decide_eq_true
  · exact decide_eq_true (Nat.le_trans (of_decide_eq_true hab) (of_decide_eq_true hbc))
  · rw [Bool.or_eq_true, decide_eq_true_eq, decide_eq_true_eq]
    exact Nat.le_total _ _

/-- What the check of the sorted records says of the records. -/
theorem linkedUpTo_iff : LinkedUpTo head records ↔
    Linked (ordered records) ∧ ∀ r ∈ (ordered records).getLast?, r.claim.newHead = head.text :=
  ⟨fun h => (h.perm (ordered_perm records).symm).linked (ordered_ascending records),
    fun h => (h.1.linkedUpTo h.2).perm (ordered_perm records)⟩

/-- Records that can be linked have one order, in whatever order they come. -/
theorem LinkedUpTo.ordered_eq (h : LinkedUpTo head records) (hp : other.Perm records) :
    ordered other = ordered records :=
  (linkedUpTo_iff.1 (h.perm hp.symm)).1.eq_of_perm (linkedUpTo_iff.1 h).1
    ((ordered_perm other).trans (hp.trans (ordered_perm records).symm))

/-! ## Resuming -/

variable {payloads : Payloads ω} {evaluator : Evaluator} {proven : List Int} {c : Chain ω}

theorem exists_resume_iff : (∃ c : Chain ω, resume payloads evaluator head records proven = .ok c) ↔
    (∃ p, payloads.fetch head = .ok p) ∧ LinkedUpTo head records := by
  constructor
  · rintro ⟨c, hc⟩
    obtain ⟨hlinked, hlast, ⟨p, hp⟩, _⟩ := resume_eq_ok.1 hc
    exact ⟨⟨p, Payloads.fetch_eq_ok.2 hp⟩, linkedUpTo_iff.2 ⟨hlinked, hlast⟩⟩
  · rintro ⟨⟨p, hp⟩, h⟩
    obtain ⟨hlinked, hlast⟩ := linkedUpTo_iff.1 h
    exact ⟨_, resume_eq_ok.2 ⟨hlinked, hlast, ⟨p, Payloads.fetch_eq_ok.1 hp⟩, rfl⟩⟩

/-- The chain that is taken up with records and numbers: active at the head, with the records in the
order of their numbers, and with those of the numbers that have records. -/
structure TakenUp (head : Commitment) (records : List StepRecord) (proven : List Int)
    (c : Chain ω) : Prop where
  active : c.standing = .active head
  history : c.history.Perm records
  ordered : c.history.Pairwise fun a b => a.index < b.index
  ascending : c.proven.Pairwise (· < ·)
  known : ∀ i, i ∈ c.proven ↔ i ∈ proven ∧ 1 ≤ i ∧ i ≤ (records.length : Int)

theorem takenUp_of_resume (h : resume payloads evaluator head records proven = .ok c) :
    TakenUp head records proven c := by
  obtain ⟨hlinked, _, _, rfl⟩ := resume_eq_ok.1 h
  refine ⟨rfl, ordered_perm records, hlinked.index_lt, ascending_knownNumbers _ _, fun i => ?_⟩
  rw [← (ordered_perm records).length_eq]
  exact mem_knownNumbers

/-- Taking up a chain does not depend on the order of the records. -/
theorem resume_of_perm (hp : other.Perm records)
    (h : resume payloads evaluator head records proven = .ok c) :
    resume payloads evaluator head other proven = .ok c := by
  obtain ⟨hlinked, hlast, hstored, hc⟩ := resume_eq_ok.1 h
  have hordered := (linkedUpTo_iff.2 ⟨hlinked, hlast⟩).ordered_eq hp
  refine resume_eq_ok.2 ?_
  rw [hordered]
  exact ⟨hlinked, hlast, hstored, hc⟩

/-- A sound chain that is active is taken up again from its head, its records in any order and its
numbers. -/
theorem Sound.resume_eq (h : c.Sound payloads) (hm : c.Marked) (hs : c.standing = .active head)
    (hp : records.Perm c.history) (hn : ∀ i, i ∈ proven ↔ i ∈ c.proven) :
    resume payloads evaluator head records proven
      = .ok ⟨evaluator, .active head, c.history, c.proven, []⟩ := by
  obtain ⟨p, hf, _⟩ := h.stored head hs
  refine resume_of_perm hp (resume_eq_ok.2 ?_)
  rw [Chain.ordered_eq h.linked.ascending,
    knownNumbers_eq_of_mem_iff hm.ascending hm.recorded hn]
  exact ⟨h.linked, h.newHead_eq hs, ⟨p, hf⟩, rfl⟩

end Chain

/-! ## Numbers of proved steps -/

namespace Ledger

variable {ω : Type}

theorem keeps_marked_advance (expected : Commitment) (input : Value) :
    Action.Keeps (fun l : Ledger ω => l.chain.Marked) (advance expected input) := by
  intro l hl
  cases ha : Chain.advance expected input (l.chain, l.payloads, l.world) with
  | mk r s =>
    have hchain : (advance expected input l).2.chain = s.1 := by
      rw [advance, Action.on, ha]
    obtain ⟨c, payloads, world⟩ := s
    rw [hchain]
    cases r with
    | ok step =>
      obtain ⟨_, _, hc, _⟩ := Chain.advance_eq_ok ha
      exact hc ▸ hl.extend step.record step.newHead
    | error e =>
      rcases Chain.advance_eq_error ha with ⟨_, _, _, _, _, _, _, hfaulted⟩ | ⟨hc, _⟩
      · cases hfaulted
        exact hl.congr rfl rfl
      · exact hc ▸ hl

theorem keeps_marked_start (genesis : Commitment) :
    Action.Keeps (fun l : Ledger ω => l.chain.Marked) (start genesis) := by
  intro l hl
  unfold start
  split
  next c hc =>
    obtain ⟨_, _, rfl⟩ := Chain.start_eq_ok.1 hc
    exact hl.congr rfl rfl
  next => exact hl

theorem Next.marked {l l' : Ledger ω} (h : Next l l') (hl : l.chain.Marked) :
    l'.chain.Marked := by
  cases h with
  | start genesis => exact keeps_marked_start genesis l hl
  | advance expected input => exact keeps_marked_advance expected input l hl
  | commit v => exact hl
  | restore encoding => exact hl
  | resume evaluator head records proven c hc => exact Chain.marked_resume hc
  | prove backend limit r =>
    exact keeps_prove (P := fun l => l.chain.Marked) (fun _ _ h => h) (fun _ _ h => h.markProven)
      backend limit r l hl
  | provePending backend limit =>
    exact keeps_provePending (P := fun l => l.chain.Marked) (fun _ _ h => h)
      (fun _ _ h => h.markProven) backend limit l hl
  | putProof identifier artifact => exact hl
  | evaluator evaluator => exact hl.congr rfl rfl
  | hearSteps listener => exact hl.congr rfl rfl
  | hearPayloads listener => exact hl
  | world world => exact hl

/-- In a chain that can be reached the numbers of the proved steps are numbers of its records. -/
theorem Reached.marked {l : Ledger ω} (h : Reached l) : l.chain.Marked := by
  induction h with
  | fresh evaluator world => exact Chain.marked_fresh evaluator
  | opened h =>
    refine Session.of_make (P := fun l => l.chain.Marked) h (Chain.marked_fresh _) (fun dir => ?_)
      fun dir l hl => hl.congr rfl rfl
    exact Archive.keeps_load (fun _ _ h => h) (fun _ _ _ h => h)
      (fun _ _ _ _ _ _ _ hc => Chain.marked_resume hc) dir
  | next _ h ih => exact h.marked ih

/-- **Taking up a chain accepts linked records and undoes a snapshot.**  A chain is taken up exactly
if its head is stored and its records are linked up to it, and other records are a fault.  The
chain is the same for every order of the records.  From the head, the records and the numbers of an
active chain that can be reached comes a chain with the same head, records, numbers and pending
steps. -/
theorem resume_inverts_snapshot :
    (∀ (payloads : Payloads ω) (evaluator : Evaluator) (head : Commitment)
        (records : List StepRecord) (proven : List Int),
      let taken := Chain.resume payloads evaluator head
      ((∃ c : Chain ω, taken records proven = .ok c) ↔
        (∃ p, payloads.fetch head = .ok p) ∧ Chain.LinkedUpTo head records) ∧
      ((∃ fault, taken records proven = .error (.chainFaulted fault)) ↔
        ¬Chain.LinkedUpTo head records) ∧
      (∀ c, taken records proven = .ok c → c.TakenUp head records proven) ∧
      ∀ other, other.Perm records → ∀ c,
        taken other proven = .ok c ↔ taken records proven = .ok c) ∧
    (∀ l : Ledger ω, Reached l → ∀ head, l.chain.standing = .active head →
      ∀ (evaluator : Evaluator) (records : List StepRecord) (proven : List Int),
        records.Perm l.chain.history → (∀ i, i ∈ proven ↔ i ∈ l.chain.proven) →
          ∃ c, Chain.resume l.payloads evaluator head records proven = .ok c ∧
            c.standing = l.chain.standing ∧ c.history = l.chain.history ∧
              c.proven = l.chain.proven ∧ c.pending = l.chain.pending) := by
  constructor
  · intro payloads evaluator head records proven
    refine ⟨Chain.exists_resume_iff, ?_, fun c => Chain.takenUp_of_resume, fun other hp c => ?_⟩
    · rw [Chain.linkedUpTo_iff]
      exact Chain.resume_eq_faulted
    · exact ⟨Chain.resume_of_perm hp.symm, Chain.resume_of_perm hp⟩
  · intro l hl head hs evaluator records proven hp hn
    exact ⟨_, hl.sound.chain.resume_eq hl.marked hs hp hn, hs.symm, rfl, rfl, rfl⟩

/-- A chain with one step is taken up again. -/
theorem resume_inverts_snapshot_after_step : ∃ (l : Ledger Unit) (head : Commitment),
    Reached l ∧ l.chain.standing = .active head ∧ l.chain.history.length = 1 ∧
      l.chain.history.reverse.Perm l.chain.history ∧
      ∃ c, Chain.resume l.payloads answerNil head l.chain.history.reverse l.chain.proven = .ok c ∧
        c.standing = l.chain.standing ∧ c.history = l.chain.history ∧
          c.proven = l.chain.proven ∧ c.pending = l.chain.pending := by
  obtain ⟨l, hr, hlength⟩ : ∃ l : Ledger Unit, Reached l ∧ l.chain.history.length = 1 := by
    obtain ⟨k, hlength, _⟩ := exists_step_of_identity
    exact ⟨_, .next (.next (.next (.fresh answerNil ()) (.commit _ identity)) (.start _ k))
      (.advance _ k .nil), hlength⟩
  cases hs : l.chain.standing with
  | fresh => simp [hr.sound.chain.history_of_fresh hs] at hlength
  | active head =>
    have hperm := List.reverse_perm l.chain.history
    obtain ⟨c, hc, hstanding, hsame⟩ :=
      resume_inverts_snapshot.2 l hr head hs answerNil _ _ hperm fun _ => Iff.rfl
    exact ⟨l, head, hr, hs, hlength, hperm, c, hc, hstanding, hsame⟩
  | faulted head => exact absurd hs (hr.sound.chain.running head)

end Ledger

end CommitChain
