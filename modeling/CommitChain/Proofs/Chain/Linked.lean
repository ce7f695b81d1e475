import CommitChain.Chain
import CommitChain.Proofs.Outcome
import Mathlib.Data.List.Chain

/-!
# Linked records

Records are linked if they are numbered from one on without a gap and each starts from the new head
of the one before.  That is what taking up a chain checks (`linkFault?_eq_none_iff`).
-/

namespace CommitChain.Chain

variable {ω : Type}

/-- Numbered from one on, each record starting from the new head of the one before. -/
structure Linked (records : List StepRecord) : Prop where
  numbered : records.map StepRecord.index = List.range' 1 records.length
  joined : records.IsChain fun a b => b.claim.prior = a.claim.newHead

theorem linkFault?_eq_none_iff {position : Nat} {previous : Option String}
    {records : List StepRecord} :
    linkFault? position previous records = none ↔
      records.map StepRecord.index = List.range' position records.length ∧
        (∀ head ∈ previous, ∀ r ∈ records.head?, r.claim.prior = head) ∧
        records.IsChain fun a b => b.claim.prior = a.claim.newHead := by
  induction records generalizing position previous with
  | nil => simp [linkFault?]
  | cons r rest ih =>
    have hrest : linkFault? (position + 1) (some r.claim.newHead) rest = none ↔
        rest.map StepRecord.index = List.range' (position + 1) rest.length ∧
          (r :: rest).IsChain fun a b => b.claim.prior = a.claim.newHead := by
      rw [ih, List.isChain_cons]
      simp
    unfold linkFault?
    by_cases hi : r.index = position
    · rw [if_neg (not_not.2 hi)]
      cases previous with
      | none => simp [hrest, hi, List.range'_succ]
      | some head =>
        by_cases hp : head = r.claim.prior
        · simp [hrest, hi, hp, List.range'_succ]
        · simp [hi, hp, List.range'_succ, Ne.symm hp]
    · rw [if_pos hi]
      simp [hi, List.range'_succ]

theorem linked_iff {records : List StepRecord} :
    Linked records ↔ linkFault? 1 none records = none := by
  rw [linkFault?_eq_none_iff]
  exact ⟨fun h => ⟨h.numbered, by simp, h.joined⟩, fun h => ⟨h.1, h.2.2⟩⟩

/-- Records that are numbered from one on have the numbers of their positions. -/
theorem index_eq_of_numbered {records : List StepRecord}
    (h : records.map StepRecord.index = List.range' 1 records.length) {i : Nat} {r : StepRecord}
    (hr : records[i]? = some r) : r.index = i + 1 := by
  have hi := congrArg (fun l => l[i]?) h
  rw [List.getElem?_map, hr] at hi
  obtain ⟨_, hindex⟩ := List.getElem?_eq_some_iff.1 hi.symm
  rw [List.getElem_range'] at hindex
  omega

/-- Records are linked if each has the number of its position and starts where the one before it
led. -/
theorem linked_iff_getElem? {records : List StepRecord} :
    Linked records ↔ (∀ (i : Nat) r, records[i]? = some r → r.index = i + 1) ∧
      ∀ (i : Nat) r r', records[i]? = some r → records[i + 1]? = some r' →
        r'.claim.prior = r.claim.newHead := by
  constructor
  · intro h
    refine ⟨fun i r => index_eq_of_numbered h.numbered, fun i r r' hr hr' => ?_⟩
    obtain ⟨hi, rfl⟩ := List.getElem?_eq_some_iff.1 hr'
    obtain ⟨_, rfl⟩ := List.getElem?_eq_some_iff.1 hr
    exact List.isChain_iff_getElem.1 h.joined i hi
  · rintro ⟨hindex, hjoined⟩
    constructor
    · refine List.ext_getElem (by simp) fun i hi _ => ?_
      rw [List.length_map] at hi
      rw [List.getElem_map, List.getElem_range', hindex i _ (List.getElem?_eq_getElem hi)]
      omega
    · refine List.isChain_iff_getElem.2 fun i hi => ?_
      exact hjoined i _ _ (List.getElem?_eq_getElem (by omega)) (List.getElem?_eq_getElem hi)

theorem linked_nil : Linked [] :=
  ⟨rfl, .nil⟩

/-- A record with the next number that starts from the last new head keeps records linked. -/
theorem Linked.append {records : List StepRecord} (h : Linked records) {r : StepRecord}
    (hi : r.index = records.length + 1)
    (hp : ∀ last ∈ records.getLast?, r.claim.prior = last.claim.newHead) :
    Linked (records ++ [r]) := by
  constructor
  · rw [List.map_append, h.numbered, List.length_append, List.map_singleton, hi,
      List.length_singleton, List.range'_1_concat, Nat.add_comm]
  · refine List.isChain_append.2 ⟨h.joined, .singleton r, fun last hl next hn => ?_⟩
    cases hn
    exact hp last hl

theorem Linked.index_eq {records : List StepRecord} (h : Linked records) {i : Nat}
    (hi : i < records.length) : records[i].index = i + 1 :=
  index_eq_of_numbered h.numbered (List.getElem?_eq_getElem hi)

theorem Linked.index_le {records : List StepRecord} (h : Linked records) {r : StepRecord}
    (hr : r ∈ records) : r.index ≤ records.length := by
  have hi : r.index ∈ records.map StepRecord.index := List.mem_map_of_mem hr
  rw [h.numbered, List.mem_range'_1] at hi
  omega

theorem Linked.index_lt {records : List StepRecord} (h : Linked records) :
    records.Pairwise fun a b => a.index < b.index := by
  have hrange : (records.map StepRecord.index).Pairwise (· < ·) := by
    rw [h.numbered]
    exact List.pairwise_lt_range'
  exact List.pairwise_map.1 hrange

theorem Linked.ascending {records : List StepRecord} (h : Linked records) :
    records.Pairwise fun a b => a.index ≤ b.index :=
  h.index_lt.imp Nat.le_of_lt

/-- Records can be linked in one order only. -/
theorem Linked.eq_of_perm {a b : List StepRecord} (ha : Linked a) (hb : Linked b)
    (h : a.Perm b) : a = b :=
  h.eq_of_pairwise (fun _ _ _ _ hxy hyx => absurd hyx (Nat.lt_asymm hxy)) ha.index_lt hb.index_lt

/-- Linked records that are left of linked ones are the first of them. -/
theorem Linked.eq_take {records kept : List StepRecord} (h : Linked records) (hk : Linked kept)
    (hs : kept.Sublist records) : kept = records.take kept.length := by
  apply List.ext_getElem
  · rw [List.length_take]
    exact (Nat.min_eq_left hs.length_le).symm
  · intro i hi hi'
    obtain ⟨j, hj, he⟩ := List.getElem_of_mem (hs.subset (List.getElem_mem hi))
    have hindex := h.index_eq hj
    rw [he, hk.index_eq hi] at hindex
    obtain rfl : i = j := by omega
    rw [List.getElem_take, he]

end CommitChain.Chain
