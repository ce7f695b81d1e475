import CommitChain.Proofs.Chain.Sound
import Mathlib.Data.List.Sort

/-!
# The numbers of proved steps

They are in ascending order and each is the number of a record (`Marked`).  Taking up a chain from
them gives them back.
-/

namespace CommitChain

theorem mem_insertNumber {m n : Int} {l : List Int} : m ∈ insertNumber n l ↔ m = n ∨ m ∈ l := by
  induction l with
  | nil => simp [insertNumber]
  | cons k r ih =>
    rw [insertNumber]
    split
    next h => simp [h]
    next => split <;> simp [ih, or_left_comm]

theorem ascending_insertNumber (n : Int) {l : List Int} (h : l.Pairwise (· < ·)) :
    (insertNumber n l).Pairwise (· < ·) := by
  induction l with
  | nil => simp [insertNumber]
  | cons k r ih =>
    obtain ⟨hk, hr⟩ := List.pairwise_cons.1 h
    rw [insertNumber]
    split
    next => exact h
    next hne =>
      split
      next hlt =>
        refine List.pairwise_cons.2 ⟨fun m hm => ?_, h⟩
        rcases List.mem_cons.1 hm with rfl | hm
        · exact hlt
        · exact Int.lt_trans hlt (hk m hm)
      next hge =>
        refine List.pairwise_cons.2 ⟨fun m hm => ?_, ih hr⟩
        rcases mem_insertNumber.1 hm with rfl | hm
        · omega
        · exact hk m hm

namespace Chain

variable {ω : Type}

/-- The numbers of proved steps are in order and have records. -/
structure Marked (c : Chain ω) : Prop where
  ascending : c.proven.Pairwise (· < ·)
  recorded : ∀ i ∈ c.proven, 1 ≤ i ∧ i ≤ (c.history.length : Int)

theorem marked_fresh (evaluator : Evaluator) : (fresh evaluator : Chain ω).Marked :=
  ⟨List.Pairwise.nil, fun _ hi => absurd hi List.not_mem_nil⟩

/-- It depends on the records and the numbers alone. -/
theorem Marked.congr {c c' : Chain ω} (h : c.Marked) (hp : c'.proven = c.proven)
    (hh : c'.history = c.history) : c'.Marked :=
  ⟨hp ▸ h.ascending, hp ▸ hh ▸ h.recorded⟩

/-- Without records nothing is proved. -/
theorem Marked.proven_eq_nil {c : Chain ω} (h : c.Marked) (he : c.history = []) :
    c.proven = [] := by
  refine List.eq_nil_iff_forall_not_mem.2 fun i hi => ?_
  have hrange := h.recorded i hi
  rw [he, List.length_nil] at hrange
  omega

/-- A chain owns the records that are equal to the one it has under their number. -/
theorem owns_iff {c : Chain ω} {r : StepRecord} :
    c.owns r = true ↔
      ∃ own, 1 ≤ r.index ∧ c.history[r.index - 1]? = some own ∧ own.same r = true := by
  rw [owns, record?]
  by_cases hi : (1 : Int) ≤ r.index
  · have hpos : 1 ≤ r.index := by omega
    rw [if_pos hi, Int.toNat_natCast]
    cases hown : c.history[r.index - 1]? <;> simp [hpos]
  · have hzero : ¬1 ≤ r.index := by omega
    rw [if_neg hi]
    simp [hzero]

theorem index_le_of_owns {c : Chain ω} {r : StepRecord} (h : c.owns r = true) :
    1 ≤ r.index ∧ r.index ≤ c.history.length := by
  obtain ⟨_, hlow, hown, _⟩ := owns_iff.1 h
  obtain ⟨hhigh, _⟩ := List.getElem?_eq_some_iff.1 hown
  omega

theorem Marked.markProven {c : Chain ω} (h : c.Marked) {r : StepRecord} (ho : c.owns r = true) :
    (c.markProven r.index).Marked := by
  obtain ⟨hlow, hhigh⟩ := index_le_of_owns ho
  refine ⟨ascending_insertNumber _ h.ascending, fun i hi => ?_⟩
  rcases mem_insertNumber.1 hi with rfl | hi
  · exact ⟨by omega, by show (r.index : Int) ≤ c.history.length; omega⟩
  · exact h.recorded i hi

theorem Marked.extend {c : Chain ω} (h : c.Marked) (r : StepRecord) (newHead : Commitment) :
    (c.extend r newHead).Marked := by
  refine ⟨h.ascending, fun i hi => ?_⟩
  obtain ⟨hlow, hhigh⟩ := h.recorded i hi
  refine ⟨hlow, ?_⟩
  rw [Chain.extend, List.length_append]
  omega

theorem mem_knownNumbers {proven : List Int} {count : Nat} {i : Int} :
    i ∈ knownNumbers proven count ↔ i ∈ proven ∧ 1 ≤ i ∧ i ≤ (count : Int) := by
  have hfold : ∀ (l before : List Int),
      i ∈ l.foldl (fun acc j => insertNumber j acc) before ↔ i ∈ l ∨ i ∈ before := by
    intro l
    induction l with
    | nil => simp
    | cons n r ih =>
      intro before
      rw [List.foldl_cons, ih, mem_insertNumber, List.mem_cons]
      tauto
  rw [knownNumbers, hfold]
  simp

theorem ascending_knownNumbers (proven : List Int) (count : Nat) :
    (knownNumbers proven count).Pairwise (· < ·) := by
  have hfold : ∀ (l before : List Int), before.Pairwise (· < ·) →
      (l.foldl (fun acc j => insertNumber j acc) before).Pairwise (· < ·) := by
    intro l
    induction l with
    | nil => exact fun before hb => hb
    | cons n r ih => exact fun before hb => ih _ (ascending_insertNumber n hb)
  exact hfold _ _ List.Pairwise.nil

/-- Numbers are known in one order, whatever the order in which they come. -/
theorem knownNumbers_eq_of_mem_iff {given proven : List Int} {count : Nat}
    (ha : proven.Pairwise (· < ·)) (hr : ∀ i ∈ proven, 1 ≤ i ∧ i ≤ (count : Int))
    (h : ∀ i, i ∈ given ↔ i ∈ proven) : knownNumbers given count = proven := by
  refine (ascending_knownNumbers given count).eq_of_mem_iff ha fun i => ?_
  rw [mem_knownNumbers, h]
  exact and_iff_left_of_imp (hr i)

/-- Numbers in order that all have records are known as they are. -/
theorem knownNumbers_eq {proven : List Int} {count : Nat} (ha : proven.Pairwise (· < ·))
    (hr : ∀ i ∈ proven, 1 ≤ i ∧ i ≤ (count : Int)) : knownNumbers proven count = proven :=
  knownNumbers_eq_of_mem_iff ha hr fun _ => Iff.rfl

/-- A chain that is taken up knows numbers of records only. -/
theorem marked_resume {payloads : Payloads ω} {evaluator : Evaluator} {head : Commitment}
    {records : List StepRecord} {proven : List Int} {c : Chain ω}
    (h : resume payloads evaluator head records proven = .ok c) : c.Marked := by
  obtain ⟨_, _, _, rfl⟩ := resume_eq_ok.1 h
  exact ⟨ascending_knownNumbers _ _, fun i hi => (mem_knownNumbers.1 hi).2⟩

end Chain

end CommitChain
