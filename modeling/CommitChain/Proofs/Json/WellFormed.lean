import CommitChain.Proofs.Keyed
import CommitChain.Proofs.Outcome
import CommitChain.Json.Parser

/-!
# Well-formed trees

The members of an object have different names.  That is so wherever a tree comes from, in particular
of what is read from a text (`wellFormed_parse`).  What is read has every property that scalars have
and that arrays and objects inherit from their parts (`Inherited.of_parseChars`).
-/

namespace CommitChain.Json

/-- The names in each object are different. -/
inductive WellFormed : Json → Prop
  | null : WellFormed null
  | bool (b : Bool) : WellFormed (bool b)
  | int (n : Int) : WellFormed (int n)
  | float (x : Binary64) : WellFormed (float x)
  | str (s : String) : WellFormed (str s)
  | arr {items : List Json} (h : ∀ x ∈ items, WellFormed x) : WellFormed (arr items)
  | obj {members : List (String × Json)} (names : (members.map Prod.fst).Nodup)
      (h : ∀ p ∈ members, WellFormed p.2) : WellFormed (obj members)

theorem wellFormed_object {pairs : List (String × Json)} (h : ∀ p ∈ pairs, p.2.WellFormed) :
    (object pairs).WellFormed :=
  .obj (Keyed.nodup_keys_ofPairs pairs) fun p hp => h p (Keyed.mem_ofPairs hp)

theorem WellFormed.of_find? {members : List (String × Json)} (h : (Json.obj members).WellFormed)
    {name : String} {x : Json} (hx : Keyed.find? name members = some x) : x.WellFormed := by
  cases h with
  | obj names h => exact h (name, x) (Keyed.mem_of_find? hx)

/-! ## What is read -/

theorem wellFormed_unsigned {limits : Limits} {negative : Bool} {cs rest : List Char} {x : Json}
    (h : unsigned limits negative cs = .ok (x, rest)) : x.WellFormed := by
  unfold unsigned at h
  dsimp only at h
  split at h
  · split at h
    · cases h
      exact .float _
    · exact absurd h (by simp)
  · split at h
    · split at h
      · exact absurd h (by simp)
      · cases h
        exact .int _
    · cases h
      exact .float _
    · cases h
      exact .float _

theorem wellFormed_scalar {limits : Limits} {cs rest : List Char} {x : Json}
    (h : scalar limits cs = .ok (x, rest)) : x.WellFormed := by
  unfold scalar at h
  split at h
  case h_6 => exact wellFormed_unsigned h
  case h_7 => exact wellFormed_unsigned h
  all_goals
    cases h
    constructor

/-- A property that every text and every scalar read within the limits has, and that arrays and
objects have if their parts have it. -/
structure Inherited (limits : Limits) (P : Json → Prop) : Prop where
  str : ∀ s, P (str s)
  scalar : ∀ {cs rest x}, scalar limits cs = .ok (x, rest) → P x
  arr : ∀ {items}, (∀ x ∈ items, P x) → P (arr items)
  object : ∀ {pairs}, (∀ p ∈ pairs, P p.2) → P (object pairs)

/-- What is read in all calls with so much left has a property. -/
structure Reads (limits : Limits) (P : Json → Prop) (fuel : Nat) : Prop where
  value : ∀ {level cs x rest}, value limits level fuel cs = .ok (x, rest) → P x
  items : ∀ {level cs xs rest}, items limits level fuel cs = .ok (xs, rest) → ∀ x ∈ xs, P x
  members : ∀ {level cs ms rest}, members limits level fuel cs = .ok (ms, rest) → ∀ p ∈ ms, P p.2

namespace Inherited

variable {limits : Limits} {P : Json → Prop} {level fuel : Nat} {cs rest : List Char}

theorem reads_value (inherited : Inherited limits P) {x : Json} (ih : Reads limits P fuel)
    (h : value limits level (fuel + 1) cs = .ok (x, rest)) : P x := by
  rw [value.eq_def] at h
  dsimp only at h
  split at h
  next =>
    obtain ⟨_, _, h⟩ := bind_eq_ok.1 h
    cases h
    exact inherited.str _
  next =>
    split at h
    · cases h
      exact inherited.arr fun x hx => absurd hx List.not_mem_nil
    · split at h
      next =>
        obtain ⟨⟨xs, _⟩, hxs, h⟩ := bind_eq_ok.1 h
        cases h
        exact inherited.arr (ih.items hxs)
      next => exact absurd h (by simp)
  next =>
    split at h
    · cases h
      exact inherited.object fun p (hp : p ∈ []) => absurd hp List.not_mem_nil
    · split at h
      next =>
        obtain ⟨⟨ms, _⟩, hms, h⟩ := bind_eq_ok.1 h
        cases h
        exact inherited.object (ih.members hms)
      next => exact absurd h (by simp)
  next => exact inherited.scalar h

theorem reads_items {xs : List Json} (ih : Reads limits P fuel)
    (h : items limits level (fuel + 1) cs = .ok (xs, rest)) : ∀ x ∈ xs, P x := by
  rw [Json.items] at h
  obtain ⟨⟨x, _⟩, hx, h⟩ := bind_eq_ok.1 h
  dsimp only at h
  split at h
  next =>
    obtain ⟨⟨ys, _⟩, hys, h⟩ := bind_eq_ok.1 h
    cases h
    exact List.forall_mem_cons.2 ⟨ih.value hx, ih.items hys⟩
  next =>
    cases h
    exact List.forall_mem_singleton.2 (ih.value hx)
  next => exact absurd h (by simp)

theorem reads_members {ms : List (String × Json)} (ih : Reads limits P fuel)
    (h : members limits level (fuel + 1) cs = .ok (ms, rest)) : ∀ p ∈ ms, P p.2 := by
  rw [members.eq_def] at h
  dsimp only at h
  split at h
  next =>
    obtain ⟨⟨k, _⟩, _, h⟩ := bind_eq_ok.1 h
    dsimp only at h
    split at h
    next =>
      obtain ⟨⟨x, _⟩, hx, h⟩ := bind_eq_ok.1 h
      dsimp only at h
      split at h
      next =>
        obtain ⟨⟨ns, _⟩, hns, h⟩ := bind_eq_ok.1 h
        cases h
        exact List.forall_mem_cons.2 ⟨ih.value hx, ih.members hns⟩
      next =>
        cases h
        exact List.forall_mem_singleton.2 (ih.value hx)
      next => exact absurd h (by simp)
    next => exact absurd h (by simp)
  next => exact absurd h (by simp)

theorem reads (inherited : Inherited limits P) (fuel : Nat) : Reads limits P fuel := by
  induction fuel with
  | zero =>
    refine ⟨fun h => ?_, fun h => ?_, fun h => ?_⟩
    · exact absurd h (by simp [Json.value])
    · exact absurd h (by simp [Json.items])
    · exact absurd h (by simp [Json.members])
  | succ fuel ih => exact ⟨inherited.reads_value ih, reads_items ih, reads_members ih⟩

/-- Whatever is read from characters has an inherited property. -/
theorem of_parseChars (inherited : Inherited limits P) {cs : List Char} {x : Json}
    (h : parseChars limits cs = .ok x) : P x := by
  obtain ⟨⟨y, rest⟩, hy, h⟩ := bind_eq_ok.1 h
  dsimp only at h
  split at h
  next =>
    cases h
    exact (inherited.reads _).value hy
  next => exact absurd h (by simp)

end Inherited

theorem inherited_wellFormed (limits : Limits) : Inherited limits WellFormed :=
  ⟨.str, wellFormed_scalar, .arr, wellFormed_object⟩

/-- What is read from a text is well-formed. -/
theorem wellFormed_parse {s : String} {x : Json} (h : parse s = .ok x) : x.WellFormed :=
  (inherited_wellFormed _).of_parseChars h

end CommitChain.Json
