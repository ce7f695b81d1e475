import CommitChain.Proofs.Json.Check
import CommitChain.Proofs.Json.WellFormed
import Mathlib.Data.List.Perm.Subperm

/-!
# Equality by value and canonical forms

Equality by value takes truth values for numbers, but it passes over nothing else that is hashed:
trees without truth values that are equal have one canonical form (`Exact.canonicalForm_eq`).
Conversely a tree is equal to its canonical form exactly if its texts and names are normal
(`Exact.same_canonicalForm_iff`).
-/

namespace CommitChain.Json

open CommitChain.Text

/-- No truth values, which equal numbers, no numbers with a fraction, and different names in each
object. -/
inductive Exact : Json → Prop
  | null : Exact null
  | int (n : Int) : Exact (int n)
  | str (s : String) : Exact (str s)
  | arr {items : List Json} (h : ∀ x ∈ items, Exact x) : Exact (arr items)
  | obj {members : List (String × Json)} (names : (members.map Prod.fst).Nodup)
      (h : ∀ p ∈ members, Exact p.2) : Exact (obj members)

/-- Every text and every name is in its normal form. -/
inductive Normal : Json → Prop
  | null : Normal null
  | bool (b : Bool) : Normal (bool b)
  | int (n : Int) : Normal (int n)
  | float (x : Binary64) : Normal (float x)
  | str {s : String} (h : IsNormal s) : Normal (str s)
  | arr {items : List Json} (h : ∀ x ∈ items, Normal x) : Normal (arr items)
  | obj {members : List (String × Json)} (names : ∀ p ∈ members, IsNormal p.1)
      (h : ∀ p ∈ members, Normal p.2) : Normal (obj members)

theorem Settled.wellFormed {x : Json} (h : x.Settled) : x.WellFormed := by
  induction h with
  | null => exact .null
  | bool b => exact .bool b
  | int n => exact .int n
  | @str s h => exact .str s
  | arr h ih => exact .arr ih
  | obj names sorted h ih => exact .obj sorted.nodup_keys ih

theorem Settled.normal {x : Json} (h : x.Settled) : x.Normal := by
  induction h with
  | null => exact .null
  | bool b => exact .bool b
  | int n => exact .int n
  | str h => exact .str h
  | arr h ih => exact .arr ih
  | obj names sorted h ih => exact .obj names ih

/-! ## Members that are equal -/

theorem sameMembers_iff {ms ns : List (String × Json)} :
    sameMembers ms ns = true
      ↔ ∀ p ∈ ms, ∃ y, Keyed.find? p.1 ns = some y ∧ p.2.same y = true := by
  induction ms with
  | nil => simp [sameMembers]
  | cons p ms ih =>
    rw [sameMembers, Bool.and_eq_true, ih, List.forall_mem_cons]
    cases Keyed.find? p.1 ns with
    | none => simp
    | some y => simp

theorem same_obj_iff {ms ns : List (String × Json)} :
    (obj ms).same (obj ns) = true ↔ ms.length = ns.length
      ∧ ∀ p ∈ ms, ∃ y, Keyed.find? p.1 ns = some y ∧ p.2.same y = true := by
  rw [same, Bool.and_eq_true, sameMembers_iff, beq_iff_eq]

/-- As many different names, each of which is among the others, are the others. -/
theorem mem_names_iff {ms ns : List (String × Json)} (hm : (ms.map Prod.fst).Nodup)
    (hl : ms.length = ns.length) (h : ∀ p ∈ ms, ∃ y, Keyed.find? p.1 ns = some y) (name : String) :
    name ∈ ms.map Prod.fst ↔ name ∈ ns.map Prod.fst := by
  have hsub : ms.map Prod.fst ⊆ ns.map Prod.fst := by
    intro k hk
    obtain ⟨p, hp, rfl⟩ := List.mem_map.1 hk
    obtain ⟨y, hy⟩ := h p hp
    exact List.mem_map.2 ⟨_, Keyed.mem_of_find? hy, rfl⟩
  have hlength : (ns.map Prod.fst).length ≤ (ms.map Prod.fst).length := by
    rw [List.length_map, List.length_map, hl]
  exact ((List.subperm_of_subset hm hsub).perm_of_length_le hlength).mem_iff

theorem sameItems_iff {xs ys : List Json} :
    sameItems xs ys = true ↔ List.Forall₂ (fun x y => x.same y = true) xs ys := by
  induction xs generalizing ys with
  | nil => cases ys <;> simp [sameItems]
  | cons x xs ih => cases ys <;> simp [sameItems, ih]

/-- A tree equals itself. -/
theorem WellFormed.same_self {x : Json} (h : x.WellFormed) : x.same x = true := by
  induction h with
  | null => rfl
  | bool b => cases b <;> rfl
  | int n => simp [same, number?, sameNumber]
  | float x =>
    cases hx : x.toInt? with
    | some n => simp [same, number?, hx, sameNumber]
    | none => simp [same, number?, hx, sameNumber, Binary64.same_self]
  | str s => simp [same]
  | @arr items h ih =>
    rw [same, sameItems_iff, List.forall₂_same]
    exact ih
  | @obj members names h ih =>
    exact same_obj_iff.2 ⟨rfl, fun p hp => ⟨p.2, Keyed.find?_of_mem names hp, ih p hp⟩⟩

theorem Settled.same_self {x : Json} (h : x.Settled) : x.same x = true :=
  h.wellFormed.same_self

/-! ## Equal trees -/

/-- Members with the same look-ups have one canonical form, whatever their order. -/
theorem sortMembers_eq_of_find? {ms ns : List (String × Json)} (hm : (ms.map Prod.fst).Nodup)
    (hn : (ns.map Prod.fst).Nodup) (h : ∀ name, (Keyed.find? name ms).map canonicalForm
      = (Keyed.find? name ns).map canonicalForm) :
    sortMembers (canonicalMembers ms) = sortMembers (canonicalMembers ns) := by
  have hsorted : Keyed.sorted (canonicalMembers ms) = Keyed.sorted (canonicalMembers ns) := by
    refine Keyed.eq_of_find?_eq (Keyed.isSorted_sorted _) (Keyed.isSorted_sorted _) fun name => ?_
    rw [Keyed.find?_sorted (map_fst_canonicalMembers ms ▸ hm),
      Keyed.find?_sorted (map_fst_canonicalMembers ns ▸ hn), find?_canonicalMembers,
      find?_canonicalMembers, h]
  rw [sortMembers, hsorted, sortMembers]

/-- Equal trees without truth values have one canonical form. -/
theorem Exact.canonicalForm_eq {x y : Json} (hx : x.Exact) (hy : y.Exact)
    (h : x.same y = true) : x.canonicalForm = y.canonicalForm := by
  induction hx generalizing y with
  | null =>
    cases hy with
    | null => rfl
    | _ => exact absurd h (by simp [same, number?])
  | int m =>
    cases hy with
    | int n =>
      obtain rfl : m = n := by simpa [same, number?, sameNumber] using h
      rfl
    | _ => exact absurd h (by simp [same, number?])
  | str s =>
    cases hy with
    | str t =>
      obtain rfl : s = t := by simpa [same] using h
      rfl
    | _ => exact absurd h (by simp [same, number?])
  | @arr xs hxs ih =>
    cases hy with
    | @arr ys hys =>
      rw [same, sameItems_iff] at h
      rw [canonicalForm, canonicalForm, canonicalItems_eq_map, canonicalItems_eq_map]
      refine congrArg Json.arr ?_
      clear hxs
      induction h with
      | nil => rfl
      | cons hxy _ ihs =>
        obtain ⟨ihx, ihxs⟩ := List.forall_mem_cons.1 ih
        obtain ⟨hy, hys⟩ := List.forall_mem_cons.1 hys
        rw [List.map_cons, List.map_cons, ihx hy hxy, ihs ihxs hys]
    | _ => exact absurd h (by simp [same, number?])
  | @obj ms hm hms ih =>
    cases hy with
    | @obj ns hn hns =>
      obtain ⟨hl, hsame⟩ := same_obj_iff.1 h
      have hnames := mem_names_iff hm hl fun p hp => (hsame p hp).imp fun _ hy => hy.1
      rw [canonicalForm, canonicalForm, sortMembers_eq_of_find? hm hn fun name => ?_]
      cases hx : Keyed.find? name ms with
      | none =>
        have hnot : name ∉ ms.map Prod.fst := by
          intro hmem
          obtain ⟨p, hp, rfl⟩ := List.mem_map.1 hmem
          rw [Keyed.find?_of_mem hm hp] at hx
          exact absurd hx (by simp)
        rw [Keyed.find?_eq_none_of_not_mem fun hmem => hnot ((hnames name).2 hmem)]
      | some x =>
        have hp := Keyed.mem_of_find? hx
        obtain ⟨y, hy, hxy⟩ := hsame _ hp
        rw [hy, Option.map_some, Option.map_some,
          ih _ hp (hns _ (Keyed.mem_of_find? hy)) hxy]
    | _ => exact absurd h (by simp [same, number?])

/-! ## Trees equal to their canonical form -/

theorem isNormal_of_mem_canonicalObject {members : List (String × Json)} :
    ∀ p ∈ canonicalObject members, IsNormal p.1 :=
  isNormal_of_mem_sortMembers _

theorem nodup_names_canonicalObject (members : List (String × Json)) :
    ((canonicalObject members).map Prod.fst).Nodup :=
  (isSorted_sortMembers _).nodup_keys

theorem mem_canonicalObject {members : List (String × Json)}
    (h : Distinct (members.map Prod.fst)) {p : String × Json} (hp : p ∈ members) :
    (p.1, p.2.canonicalForm) ∈ canonicalObject members := by
  refine Keyed.mem_of_find? ?_
  rw [find?_canonicalObject h, Keyed.find?_of_mem h.2 hp]
  rfl

/-- Different names in normal form stay as many. -/
theorem length_canonicalObject {members : List (String × Json)}
    (h : Distinct (members.map Prod.fst)) : (canonicalObject members).length = members.length := by
  have hperm : ((canonicalObject members).map Prod.fst).Perm (members.map Prod.fst) := by
    refine (List.perm_ext_iff_of_nodup (nodup_names_canonicalObject members) h.2).2 fun name => ?_
    constructor
    · intro hm
      obtain ⟨p, hp, rfl⟩ := List.mem_map.1 hm
      exact name_of_mem_canonicalObject h hp
    · intro hm
      obtain ⟨p, hp, rfl⟩ := List.mem_map.1 hm
      exact List.mem_map.2 ⟨_, mem_canonicalObject h hp, rfl⟩
  have hlength := hperm.length_eq
  rwa [List.length_map, List.length_map] at hlength

theorem same_canonicalForm_of_normal {x : Json} (hx : x.Exact) (h : x.Normal) :
    x.canonicalForm.same x = true := by
  induction hx with
  | null => simp [canonicalForm, same]
  | int n => simp [canonicalForm, same, number?, sameNumber]
  | str s =>
    cases h with
    | str hs => rw [canonicalForm, hs, same, beq_self_eq_true]
  | @arr xs hxs ih =>
    cases h with
    | arr h =>
      rw [canonicalForm, same, canonicalItems_eq_map, sameItems_iff, List.forall₂_map_left_iff,
        List.forall₂_same]
      exact fun x hx => ih x hx (h x hx)
  | @obj ms hm hms ih =>
    cases h with
    | obj hnormal h =>
      have hd : Distinct (ms.map Prod.fst) := ⟨List.forall_mem_map.2 hnormal, hm⟩
      rw [canonicalForm_obj]
      refine same_obj_iff.2 ⟨length_canonicalObject hd, fun p hp => ?_⟩
      have hfind := Keyed.find?_of_mem (nodup_names_canonicalObject ms) hp
      rw [find?_canonicalObject hd] at hfind
      obtain ⟨y, hy, he⟩ := Option.map_eq_some_iff.1 hfind
      have hmem := Keyed.mem_of_find? hy
      exact ⟨y, hy, he ▸ ih _ hmem (h _ hmem)⟩

theorem normal_of_same_canonicalForm {x : Json} (hx : x.Exact)
    (h : x.canonicalForm.same x = true) : x.Normal := by
  induction hx with
  | null => exact .null
  | int n => exact .int n
  | str s =>
    rw [canonicalForm, same, beq_iff_eq] at h
    exact .str h
  | @arr xs hxs ih =>
    rw [canonicalForm, same, canonicalItems_eq_map, sameItems_iff, List.forall₂_map_left_iff,
      List.forall₂_same] at h
    exact .arr fun x hx => ih x hx (h x hx)
  | @obj ms hm hms ih =>
    rw [canonicalForm_obj] at h
    obtain ⟨hl, hsame⟩ := same_obj_iff.1 h
    -- the names of the canonical form are normal, and they are all the names there are
    have hnames := mem_names_iff (nodup_names_canonicalObject ms) hl fun p hp =>
      (hsame p hp).imp fun _ hy => hy.1
    have hnormal : ∀ p ∈ ms, IsNormal p.1 := by
      intro p hp
      obtain ⟨q, hq, he⟩ := List.mem_map.1 ((hnames p.1).2 (List.mem_map_of_mem hp))
      exact he ▸ isNormal_of_mem_canonicalObject q hq
    have hd : Distinct (ms.map Prod.fst) := ⟨List.forall_mem_map.2 hnormal, hm⟩
    refine .obj hnormal fun p hp => ih p hp ?_
    obtain ⟨y, hy, hxy⟩ := hsame _ (mem_canonicalObject hd hp)
    rw [Keyed.find?_of_mem hm hp] at hy
    exact Option.some.inj hy ▸ hxy

/-- A tree without truth values is equal to its canonical form exactly if it is normal. -/
theorem Exact.same_canonicalForm_iff {x : Json} (hx : x.Exact) :
    x.canonicalForm.same x = true ↔ x.Normal :=
  ⟨normal_of_same_canonicalForm hx, same_canonicalForm_of_normal hx⟩

end CommitChain.Json
