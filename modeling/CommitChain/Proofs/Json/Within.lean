import CommitChain.Proofs.Json.Canonical

/-!
# Parts of trees

`x.Within y` says that a tree stands somewhere in another one, at any depth.  The scans of a tree
for numbers with a fraction and for integers that are too long are told by its parts
(`floatPath?_eq_none_iff`, `integersFit_iff`).
-/

namespace CommitChain.Json

/-- The tree itself, an item, the value of a member, or a part of one of these. -/
inductive Within (part : Json) : Json → Prop
  | self : Within part part
  | item {x : Json} {items : List Json} (hx : x ∈ items) (h : Within part x) :
      Within part (arr items)
  | member {p : String × Json} {members : List (String × Json)} (hp : p ∈ members)
      (h : Within part p.2) : Within part (obj members)

variable {part x : Json} {items : List Json} {members : List (String × Json)}

theorem within_arr :
    part.Within (arr items) ↔ part = arr items ∨ ∃ x ∈ items, part.Within x := by
  constructor
  · intro h
    cases h with
    | self => exact .inl rfl
    | item hx h => exact .inr ⟨_, hx, h⟩
  · rintro (rfl | ⟨x, hx, h⟩)
    · exact .self
    · exact .item hx h

theorem within_obj :
    part.Within (obj members) ↔ part = obj members ∨ ∃ p ∈ members, part.Within p.2 := by
  constructor
  · intro h
    cases h with
    | self => exact .inl rfl
    | member hp h => exact .inr ⟨_, hp, h⟩
  · rintro (rfl | ⟨p, hp, h⟩)
    · exact .self
    · exact .member hp h

/-- What is no array and no object has no part but itself. -/
theorem within_iff_eq (ha : ∀ items, x ≠ arr items) (ho : ∀ members, x ≠ obj members) :
    part.Within x ↔ part = x := by
  refine ⟨fun h => ?_, fun h => h ▸ .self⟩
  cases h with
  | self => rfl
  | item => exact absurd rfl (ha _)
  | member => exact absurd rfl (ho _)

/-- What holds of every part of an array holds of the array and of the parts of its items. -/
theorem forall_within_arr {P : Json → Prop} :
    (∀ part : Json, part.Within (arr items) → P part) ↔
      P (arr items) ∧ ∀ x ∈ items, ∀ part : Json, part.Within x → P part := by
  constructor
  · exact fun h => ⟨h _ .self, fun x hx part hp => h part (.item hx hp)⟩
  · rintro ⟨hself, hitems⟩ part hp
    rcases within_arr.1 hp with rfl | ⟨x, hx, hp⟩
    · exact hself
    · exact hitems x hx part hp

theorem forall_within_obj {P : Json → Prop} :
    (∀ part : Json, part.Within (obj members) → P part) ↔
      P (obj members) ∧ ∀ p ∈ members, ∀ part : Json, part.Within p.2 → P part := by
  constructor
  · exact fun h => ⟨h _ .self, fun p hp part hw => h part (.member hp hw)⟩
  · rintro ⟨hself, hmembers⟩ part hw
    rcases within_obj.1 hw with rfl | ⟨p, hp, hw⟩
    · exact hself
    · exact hmembers p hp part hw

/-! ## Numbers -/

/-- A path is found exactly if there is a number with a fraction. -/
theorem floatPath?_eq_none_iff {path : String} :
    floatPath? path x = none ↔ ∀ f : Binary64, ¬(float f).Within x := by
  induction x using tree_induction generalizing path with
  | float f => exact iff_of_false (by simp [floatPath?]) fun h => h f .self
  | arr items ih =>
    rw [floatPath?_arr]
    constructor
    · intro h f hf
      rcases within_arr.1 hf with he | ⟨x, hx, hf⟩
      · cases he
      · exact (ih x hx).1 (h x hx "") f hf
    · exact fun h x hx path => (ih x hx).2 fun f hf => h f (.item hx hf)
  | obj members ih =>
    rw [floatPath?_obj]
    constructor
    · intro h f hf
      rcases within_obj.1 hf with he | ⟨p, hp, hf⟩
      · cases he
      · exact (ih p hp).1 (h p hp "") f hf
    · exact fun h p hp path => (ih p hp).2 fun f hf => h f (.member hp hf)
  | _ =>
    refine iff_of_true (by simp [floatPath?]) fun f hf => ?_
    cases hf

theorem integersFit_iff :
    x.integersFit = true ↔ ∀ n : Int, (int n).Within x → n.natAbs < Text.integerBound := by
  induction x using tree_induction with
  | int m =>
    rw [integersFit, decide_eq_true_eq]
    refine ⟨fun h n hn => ?_, fun h => h m .self⟩
    cases hn
    exact h
  | arr items ih =>
    rw [integersFit, integersFitItems_iff]
    constructor
    · intro h n hn
      rcases within_arr.1 hn with he | ⟨x, hx, hn⟩
      · cases he
      · exact (ih x hx).1 (h x hx) n hn
    · exact fun h x hx => (ih x hx).2 fun n hn => h n (.item hx hn)
  | obj members ih =>
    rw [integersFit, integersFitMembers_iff]
    constructor
    · intro h n hn
      rcases within_obj.1 hn with he | ⟨p, hp, hn⟩
      · cases he
      · exact (ih p hp).1 (h p hp) n hn
    · exact fun h p hp => (ih p hp).2 fun n hn => h n (.member hp hn)
  | _ =>
    refine iff_of_true (by simp [integersFit]) fun n hn => ?_
    cases hn

end CommitChain.Json
