import CommitChain.Json.Check
import CommitChain.Proofs.Json.CanonicalForm

/-!
# Checking what was written

A check of an object in canonical form sees the members that the object was made of.  Of what passed
a check something is known (`Check.object_eq_good`, `Check.member_eq_good`).
-/

namespace CommitChain

open CommitChain.Text

namespace Json

/-- Names in normal form that are all different: members with such names are only sorted. -/
def Distinct (names : List String) : Prop :=
  (∀ name ∈ names, IsNormal name) ∧ names.Nodup

instance (names : List String) : Decidable (Distinct names) :=
  inferInstanceAs (Decidable (_ ∧ _))

/-- The members of an object in canonical form. -/
def canonicalObject (members : List (String × Json)) : List (String × Json) :=
  sortMembers (canonicalMembers members)

theorem canonicalForm_obj (members : List (String × Json)) :
    canonicalForm (obj members) = obj (canonicalObject members) := by
  rw [canonicalForm, canonicalObject]

theorem isNormal_of_mem_canonicalMembers {members : List (String × Json)}
    (h : Distinct (members.map Prod.fst)) : ∀ p ∈ canonicalMembers members, IsNormal p.1 := by
  rw [canonicalMembers_eq_map]
  exact List.forall_mem_map.2 fun p hp => h.1 p.1 (List.mem_map.2 ⟨p, hp, rfl⟩)

theorem find?_canonicalObject {members : List (String × Json)}
    (h : Distinct (members.map Prod.fst)) (name : String) :
    Keyed.find? name (canonicalObject members)
      = (Keyed.find? name members).map canonicalForm := by
  have hnames := (map_fst_canonicalMembers members).symm ▸ h.2
  rw [canonicalObject, find?_sortMembers (isNormal_of_mem_canonicalMembers h) hnames,
    find?_canonicalMembers]

/-- Objects with one canonical form have the same members in canonical form. -/
theorem find?_of_canonicalForm_eq {ms ns : List (String × Json)}
    (hm : Distinct (ms.map Prod.fst)) (hn : Distinct (ns.map Prod.fst))
    (h : (obj ms).canonicalForm = (obj ns).canonicalForm) (name : String) :
    (Keyed.find? name ms).map canonicalForm = (Keyed.find? name ns).map canonicalForm := by
  rw [canonicalForm_obj, canonicalForm_obj, Json.obj.injEq] at h
  rw [← find?_canonicalObject hm, ← find?_canonicalObject hn, h]

theorem name_of_mem_canonicalObject {members : List (String × Json)}
    (h : Distinct (members.map Prod.fst)) {p : String × Json} (hp : p ∈ canonicalObject members) :
    p.1 ∈ members.map Prod.fst := by
  rw [canonicalObject, sortMembers_eq_sorted (isNormal_of_mem_canonicalMembers h)] at hp
  have hm := Keyed.mem_sorted hp
  rw [canonicalMembers_eq_map] at hm
  obtain ⟨q, hq, rfl⟩ := List.mem_map.1 hm
  exact List.mem_map.2 ⟨q, hq, rfl⟩

/-- Each member of an object that can be written can be written. -/
theorem Writable.of_find? {members : List (String × Json)} (h : (obj members).Writable)
    (hn : Distinct (members.map Prod.fst)) {name : String} {x : Json}
    (hx : Keyed.find? name members = some x) : x.Writable := by
  rw [Writable, canonicalForm_obj, integersFit, integersFitMembers_iff] at h
  have hfind := find?_canonicalObject hn name
  rw [hx] at hfind
  exact h _ (Keyed.mem_of_find? hfind)

end Json

namespace Check

variable {α : Type}

theorem seq_good_unit (x : Checked α) : ((fun v _ => v) <$> x <*> Checked.good ()) = x := by
  cases x <;> rfl

/-- An object with none but the named members goes to the check of its members. -/
theorem object_canonicalForm {names : List String} {members : List (String × Json)}
    {check : List (String × Json) → List String → Checked α} {path : List String}
    (h : Json.Distinct (members.map Prod.fst)) (hn : ∀ k ∈ members.map Prod.fst, k ∈ names) :
    object names check path (Json.obj members).canonicalForm
      = check (Json.canonicalObject members) path := by
  have hothers : ((Json.canonicalObject members).map Prod.fst).filter (fun k => !names.contains k)
      = [] := by
    refine List.filter_eq_nil_iff.2 (List.forall_mem_map.2 fun p hp => ?_)
    simpa using hn _ (Json.name_of_mem_canonicalObject h hp)
  rw [Json.canonicalForm_obj, object, hothers]
  exact seq_good_unit _

theorem member_canonicalObject {name : String} {check : Check α} {members : List (String × Json)}
    {path : List String} {x : Json} (h : Json.Distinct (members.map Prod.fst))
    (hx : Keyed.find? name members = some x) :
    member name check (Json.canonicalObject members) path
      = check (path ++ [name]) x.canonicalForm := by
  rw [member, Json.find?_canonicalObject h, hx]
  rfl

theorem memberOr_canonicalObject {name : String} {default : α} {check : Check α}
    {members : List (String × Json)} {path : List String} {x : Json}
    (h : Json.Distinct (members.map Prod.fst)) (hx : Keyed.find? name members = some x) :
    memberOr name default check (Json.canonicalObject members) path
      = check (path ++ [name]) x.canonicalForm := by
  rw [memberOr, Json.find?_canonicalObject h, hx]
  rfl

/-! ## Members that pass -/

theorem text_str {path : List String} {s : String} (h : IsNormal s) :
    text path (Json.str s).canonicalForm = .good s := by
  rw [Json.canonicalForm, h]
  rfl

theorem atLeast_int {low n : Nat} {path : List String} (h : low ≤ n) :
    atLeast low path (Json.int n).canonicalForm = .good n := by
  have hlow : ¬(n : Int) < (low : Int) := by omega
  rw [Json.canonicalForm_int, atLeast, integer, Checked.andThen, if_neg hlow, Int.toNat_natCast]

theorem array_canonicalForm {β : Type} {check : Check β} {f : β → Json} {path : List String}
    {xs : List β} (h : ∀ x ∈ xs, ∀ path, check path (f x).canonicalForm = .good x) :
    array check path (Json.arr (xs.map f)).canonicalForm = .good xs := by
  have hitems : ∀ index, itemsFrom check path index ((xs.map f).map Json.canonicalForm)
      = .good xs := by
    induction xs with
    | nil => exact fun _ => rfl
    | cons x xs ih =>
      obtain ⟨hx, hxs⟩ := List.forall_mem_cons.1 h
      intro index
      rw [List.map_cons, List.map_cons, itemsFrom, hx, ih hxs]
      rfl
  rw [Json.canonicalForm, Json.canonicalItems_eq_map]
  exact hitems 0

end Check

/-! ## What passed -/

namespace Checked

variable {α β : Type}

theorem map_eq_good {f : α → β} {x : Checked α} {b : β} :
    f <$> x = .good b ↔ ∃ a, x = .good a ∧ f a = b := by
  cases x <;> simp [Functor.map, seq]

theorem seq_eq_good {f : Checked (α → β)} {x : Checked α} {b : β} :
    f <*> x = .good b ↔ ∃ g, f = .good g ∧ ∃ a, x = .good a ∧ g a = b := by
  cases f <;> cases x <;> simp [Seq.seq, seq]

theorem andThen_eq_good {x : Checked α} {f : α → Checked β} {b : β} :
    x.andThen f = .good b ↔ ∃ a, x = .good a ∧ f a = .good b := by
  cases x <;> simp [andThen]

theorem toExcept_eq_ok {x : Checked α} {a : α} : x.toExcept = .ok a ↔ x = .good a := by
  cases x <;> simp [toExcept]

end Checked

namespace Check

variable {α : Type} {path : List String}

theorem ensure_eq_good {check : Check α} {problem? : α → Option String} {x : Json} {v : α} :
    check.ensure problem? path x = .good v ↔ check path x = .good v ∧ problem? v = none := by
  rw [ensure, Checked.andThen_eq_good]
  constructor
  · rintro ⟨w, hw, h⟩
    split at h
    next hp =>
      cases h
      exact ⟨hw, hp⟩
    next => exact absurd h (by simp [fail])
  · rintro ⟨hv, hp⟩
    exact ⟨v, hv, by rw [hp]⟩

theorem text_eq_good {x : Json} {s : String} : text path x = .good s ↔ x = .str s := by
  cases x <;> simp [text, fail]

theorem le_of_atLeast {low n : Nat} {x : Json} (h : atLeast low path x = .good n) : low ≤ n := by
  obtain ⟨m, _, h⟩ := Checked.andThen_eq_good.1 h
  split at h
  · exact absurd h (by simp [fail])
  next hlow =>
    cases h
    omega

/-- What passes as an object passes the check of its members. -/
theorem object_eq_good {names : List String}
    {check : List (String × Json) → List String → Checked α} {x : Json} {v : α}
    (h : object names check path x = .good v) :
    ∃ members, x = .obj members ∧ check members path = .good v := by
  unfold object at h
  split at h
  next members =>
    obtain ⟨f, hf, _, _, hv⟩ := Checked.seq_eq_good.1 h
    obtain ⟨w, hw, rfl⟩ := Checked.map_eq_good.1 hf
    exact ⟨members, rfl, hv ▸ hw⟩
  next => exact absurd h (by simp [fail])

theorem member_eq_good {name : String} {check : Check α} {members : List (String × Json)} {v : α} :
    member name check members path = .good v
      ↔ ∃ x, Keyed.find? name members = some x ∧ check (path ++ [name]) x = .good v := by
  unfold member
  cases Keyed.find? name members <;> simp [fail]

end Check

end CommitChain
