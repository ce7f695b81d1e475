import CommitChain.Proofs.Json.Equality
import CommitChain.Proofs.Json.Within

/-!
# Trees up to the order of members

`Reordered` is the least equivalence of trees that takes members in any order, at any depth, and
`normalized` brings every text and every name into its normal form.  The canonical text of a tree is
exactly as fine as the two together (`canonical_is_exact`): it does not depend on the order of
members, it is read back as the normalized tree in another order, and trees with one text are the
same tree when normalized, up to the order of members.  That is so of `Faithful` trees; trees with
a fraction have no text.
-/

namespace CommitChain.Json

open CommitChain.Text

/-- The same tree with the members of its objects in another order. -/
inductive Reordered : Json → Json → Prop
  | refl (x : Json) : Reordered x x
  | trans {x y z : Json} (h : Reordered x y) (g : Reordered y z) : Reordered x z
  | members {ms ns : List (String × Json)} (h : ms.Perm ns) : Reordered (obj ms) (obj ns)
  | item {x y : Json} (before after : List Json) (h : Reordered x y) :
      Reordered (arr (before ++ x :: after)) (arr (before ++ y :: after))
  | member {x y : Json} (before after : List (String × Json)) (name : String)
      (h : Reordered x y) :
      Reordered (obj (before ++ (name, x) :: after)) (obj (before ++ (name, y) :: after))

/-- Related lists, one step after the other. -/
theorem forall₂_comp {α β γ : Type} {R : α → β → Prop} {S : β → γ → Prop} {T : α → γ → Prop}
    (hT : ∀ {a b c}, R a b → S b c → T a c) {as : List α} {bs : List β} {cs : List γ}
    (h : List.Forall₂ R as bs) (g : List.Forall₂ S bs cs) : List.Forall₂ T as cs := by
  induction h generalizing cs with
  | nil =>
    cases g
    exact .nil
  | cons hab _ ih =>
    cases g with
    | cons hbc g => exact .cons (hT hab hbc) (ih g)

namespace Reordered

theorem symm {x y : Json} (h : Reordered x y) : Reordered y x := by
  induction h with
  | refl x => exact .refl x
  | trans _ _ ih ih' => exact ih'.trans ih
  | members h => exact .members h.symm
  | item before after _ ih => exact .item before after ih
  | member before after name _ ih => exact .member before after name ih

/-! ## Arrays and objects -/

/-- Items may be reordered one by one. -/
theorem arr {α : Type} {f g : α → Json} {l : List α} (h : ∀ a ∈ l, Reordered (f a) (g a)) :
    Reordered (.arr (l.map f)) (.arr (l.map g)) := by
  suffices hbehind : ∀ before : List Json,
      Reordered (.arr (before ++ l.map f)) (.arr (before ++ l.map g)) from hbehind []
  induction l with
  | nil => exact fun before => .refl _
  | cons a l ih =>
    obtain ⟨ha, hl⟩ := List.forall_mem_cons.1 h
    intro before
    have hrest := ih hl (before ++ [g a])
    rw [List.append_assoc, List.append_assoc] at hrest
    exact (Reordered.item before (l.map f) ha).trans hrest

/-- The values of members may be reordered one by one. -/
theorem obj {α : Type} {name : α → String} {f g : α → Json} {l : List α}
    (h : ∀ a ∈ l, Reordered (f a) (g a)) :
    Reordered (.obj (l.map fun a => (name a, f a))) (.obj (l.map fun a => (name a, g a))) := by
  suffices hbehind : ∀ before : List (String × Json),
      Reordered (.obj (before ++ l.map fun a => (name a, f a)))
        (.obj (before ++ l.map fun a => (name a, g a))) from hbehind []
  induction l with
  | nil => exact fun before => .refl _
  | cons a l ih =>
    obtain ⟨ha, hl⟩ := List.forall_mem_cons.1 h
    intro before
    have hrest := ih hl (before ++ [(name a, g a)])
    rw [List.append_assoc, List.append_assoc] at hrest
    exact (Reordered.member before (l.map fun a => (name a, f a)) (name a) ha).trans hrest

/-! ## What a tree is reordered to -/

/-- The items of an array are reordered one by one. -/
theorem of_arr {items : List Json} {y : Json} (h : Reordered (.arr items) y) :
    ∃ others, y = .arr others ∧ List.Forall₂ Reordered items others := by
  generalize hx : Json.arr items = x at h
  induction h generalizing items with
  | refl x => exact ⟨items, hx.symm, List.forall₂_same.2 fun x _ => .refl x⟩
  | trans _ _ ih ih' =>
    obtain ⟨others, rfl, h⟩ := ih hx
    obtain ⟨others, rfl, h'⟩ := ih' rfl
    exact ⟨others, rfl, forall₂_comp .trans h h'⟩
  | members h => cases hx
  | item before after h ih =>
    cases hx
    have hsame : ∀ xs : List Json, List.Forall₂ Reordered xs xs := fun xs =>
      List.forall₂_same.2 fun x _ => .refl x
    exact ⟨_, rfl, List.rel_append (hsame before) (.cons h (hsame after))⟩
  | member before after name h ih => cases hx

/-- The members of an object are put in another order, and their values are reordered one by one. -/
theorem of_obj {members : List (String × Json)} {y : Json} (h : Reordered (.obj members) y) :
    ∃ moved others, y = .obj others ∧ members.Perm moved ∧
      List.Forall₂ (fun p q => p.1 = q.1 ∧ Reordered p.2 q.2) moved others := by
  have hsame : ∀ ms : List (String × Json),
      List.Forall₂ (fun p q => p.1 = q.1 ∧ Reordered p.2 q.2) ms ms := fun ms =>
    List.forall₂_same.2 fun p _ => ⟨rfl, .refl p.2⟩
  generalize hx : Json.obj members = x at h
  induction h generalizing members with
  | refl x => exact ⟨members, members, hx.symm, .refl _, hsame members⟩
  | trans _ _ ih ih' =>
    obtain ⟨moved, others, rfl, hperm, h⟩ := ih hx
    obtain ⟨moved', others', rfl, hperm', h'⟩ := ih' rfl
    -- the order of the second step can be had before the values of the first
    obtain ⟨moved'', h'', hperm''⟩ := List.perm_comp_forall₂ hperm'.symm h.flip
    refine ⟨moved'', others', rfl, hperm.trans hperm''.symm, ?_⟩
    exact forall₂_comp (fun hpq hqr => ⟨hpq.1.trans hqr.1, hpq.2.trans hqr.2⟩) h''.flip h'
  | members h =>
    cases hx
    exact ⟨_, _, rfl, h, hsame _⟩
  | item before after h ih => cases hx
  | member before after name h ih =>
    cases hx
    exact ⟨_, _, rfl, .refl _, List.rel_append (hsame before) (.cons ⟨rfl, h⟩ (hsame after))⟩

/-- What is no array and no object is not reordered to anything else. -/
theorem of_leaf {x y : Json} (h : Reordered x y) (ha : ∀ items, x ≠ .arr items)
    (ho : ∀ members, x ≠ .obj members) : y = x := by
  induction h with
  | refl x => rfl
  | trans _ _ ih ih' =>
    obtain rfl := ih ha ho
    exact ih' ha ho
  | members h => exact absurd rfl (ho _)
  | item before after h ih => exact absurd rfl (ha _)
  | member before after name h ih => exact absurd rfl (ho _)

theorem of_leaves {items : List Json} {y : Json} (h : Reordered (.arr items) y)
    (hleaf : ∀ x ∈ items, (∀ xs, x ≠ .arr xs) ∧ ∀ ms, x ≠ .obj ms) : y = .arr items := by
  obtain ⟨others, rfl, hall⟩ := h.of_arr
  have hsame : List.Forall₂ (· = ·) items others :=
    ((List.forall₂_and_left _ _).2 ⟨hleaf, hall⟩).imp fun x y hxy =>
      (hxy.2.of_leaf hxy.1.1 hxy.1.2).symm
  rw [List.forall₂_eq_eq_eq] at hsame
  rw [hsame]

/-- An array with a tag keeps it. -/
theorem of_tagged {tag : String} {items : List Json} {y : Json}
    (h : Reordered (.arr (.str tag :: items)) y) :
    ∃ others, y = .arr (.str tag :: others) ∧ List.Forall₂ Reordered items others := by
  obtain ⟨_, rfl, hall⟩ := h.of_arr
  obtain ⟨x, others, hx, hothers, rfl⟩ := List.forall₂_cons_left_iff.1 hall
  obtain rfl := hx.of_leaf (by simp) (by simp)
  exact ⟨others, rfl, hothers⟩

/-! ## What does not depend on the order -/

theorem depth_eq {x y : Json} (h : Reordered x y) : x.depth = y.depth := by
  induction h with
  | refl x => rfl
  | trans _ _ ih ih' => exact ih.trans ih'
  | members h =>
    rw [depth, depth]
    refine congrArg (· + 1) (eq_of_forall_ge_iff fun n => ?_)
    simp only [depthMembers_le, h.mem_iff]
  | item before after _ ih =>
    rw [depth, depth]
    refine congrArg (· + 1) (eq_of_forall_ge_iff fun n => ?_)
    simp only [depthItems_le, List.forall_mem_append, List.forall_mem_cons, ih]
  | member before after name _ ih =>
    rw [depth, depth]
    refine congrArg (· + 1) (eq_of_forall_ge_iff fun n => ?_)
    simp only [depthMembers_le, List.forall_mem_append, List.forall_mem_cons, ih]

/-- A part that is no array and no object is a part in any order. -/
theorem within_iff {x y part : Json} (h : Reordered x y) (ha : ∀ items, part ≠ .arr items)
    (ho : ∀ members, part ≠ .obj members) : part.Within x ↔ part.Within y := by
  induction h with
  | refl x => exact Iff.rfl
  | trans _ _ ih ih' => exact ih.trans ih'
  | members h =>
    rw [within_obj, within_obj, or_iff_right (ho _), or_iff_right (ho _)]
    exact exists_congr fun p => and_congr_left fun _ => h.mem_iff
  | item before after _ ih =>
    rw [within_arr, within_arr, or_iff_right (ha _), or_iff_right (ha _)]
    simp only [List.mem_append, List.mem_cons, or_and_right, exists_or, exists_eq_left, ih]
  | member before after name _ ih =>
    rw [within_obj, within_obj, or_iff_right (ho _), or_iff_right (ho _)]
    simp only [List.mem_append, List.mem_cons, or_and_right, exists_or, exists_eq_left, ih]

theorem wellFormed {x y : Json} (h : Reordered x y) (hx : x.WellFormed) : y.WellFormed := by
  induction h with
  | refl x => exact hx
  | trans _ _ ih ih' => exact ih' (ih hx)
  | members h =>
    cases hx with
    | obj names hms =>
      exact .obj ((h.map Prod.fst).nodup_iff.1 names) fun p hp => hms p (h.mem_iff.2 hp)
  | item before after _ ih =>
    cases hx with
    | arr hxs =>
      simp only [List.forall_mem_append, List.forall_mem_cons] at hxs
      refine .arr ?_
      simp only [List.forall_mem_append, List.forall_mem_cons]
      exact ⟨hxs.1, ih hxs.2.1, hxs.2.2⟩
  | member before after name _ ih =>
    cases hx with
    | obj names hms =>
      simp only [List.forall_mem_append, List.forall_mem_cons] at hms
      refine .obj (by simpa using names) ?_
      simp only [List.forall_mem_append, List.forall_mem_cons]
      exact ⟨hms.1, ih hms.2.1, hms.2.2⟩

theorem canonicalForm_eq {x y : Json} (h : Reordered x y) (hx : x.WellFormed) :
    x.canonicalForm = y.canonicalForm := by
  induction h with
  | refl x => rfl
  | trans h _ ih ih' => exact (ih hx).trans (ih' (h.wellFormed hx))
  | @members ms ns h =>
    cases hx with
    | obj names _ =>
      have hnames : (ns.map Prod.fst).Nodup := (h.map Prod.fst).nodup_iff.1 names
      rw [canonicalForm, canonicalForm]
      refine congrArg Json.obj (sortMembers_eq_of_find? names hnames fun name => ?_)
      rw [Keyed.find?_perm h names]
  | item before after _ ih =>
    cases hx with
    | arr hxs =>
      rw [canonicalForm_arr, canonicalForm_arr, List.map_append, List.map_append, List.map_cons,
        List.map_cons, ih (hxs _ (by simp))]
  | member before after name _ ih =>
    cases hx with
    | obj names hms =>
      rw [canonicalForm, canonicalForm, canonicalMembers_eq_map, canonicalMembers_eq_map,
        List.map_append, List.map_append, List.map_cons, List.map_cons,
        ih (hms (name, _) (by simp))]

end Reordered

/-! ## Normalized trees -/

mutual

/-- The tree with its texts and names in normal form. -/
def normalized : Json → Json
  | .str s => .str (Text.normalize s)
  | .arr items => .arr (normalizedItems items)
  | .obj members => .obj (normalizedMembers members)
  | x => x

def normalizedItems : List Json → List Json
  | [] => []
  | x :: xs => normalized x :: normalizedItems xs

def normalizedMembers : List (String × Json) → List (String × Json)
  | [] => []
  | (name, x) :: xs => (Text.normalize name, normalized x) :: normalizedMembers xs

end

theorem normalized_arr (items : List Json) :
    (Json.arr items).normalized = .arr (items.map normalized) := by
  have hitems : normalizedItems items = items.map normalized := by
    induction items with
    | nil => rfl
    | cons x xs ih => rw [normalizedItems, ih, List.map_cons]
  rw [normalized, hitems]

theorem normalized_obj (members : List (String × Json)) :
    (Json.obj members).normalized
      = .obj (members.map fun p => (Text.normalize p.1, p.2.normalized)) := by
  have hmembers : normalizedMembers members
      = members.map fun p => (Text.normalize p.1, p.2.normalized) := by
    induction members with
    | nil => rfl
    | cons p r ih => rw [normalizedMembers, ih, List.map_cons]
  rw [normalized, hmembers]

/-! ## Members in canonical form -/

/-- Members whose names have different normal forms are all there in the canonical form. -/
theorem sortMembers_perm {members : List (String × Json)}
    (h : (members.map fun p => Text.normalize p.1).Nodup) :
    (sortMembers members).Perm (members.map fun p => (Text.normalize p.1, p.2)) := by
  have hnames : (members.map Prod.fst).Nodup := by
    refine List.Nodup.of_map Text.normalize ?_
    rwa [List.map_map]
  have hsorted := (Keyed.sorted_perm hnames).map fun p => (Text.normalize p.1, p.2)
  refine (Keyed.sorted_perm ((hsorted.map Prod.fst).nodup_iff.2 ?_)).trans hsorted
  rwa [List.map_map]

/-- The canonical form is the normalized tree with its members in order. -/
theorem reordered_canonicalForm {x : Json} (h : ∀ members, (Json.obj members).Within x →
    (members.map fun p => Text.normalize p.1).Nodup) : Reordered x.normalized x.canonicalForm := by
  induction x using tree_induction with
  | arr items ih =>
    rw [normalized_arr, canonicalForm_arr]
    exact .arr fun x hx => ih x hx fun members hm => h members (.item hx hm)
  | obj members ih =>
    rw [normalized_obj, canonicalForm, canonicalMembers_eq_map]
    have hvalues : Reordered (.obj (members.map fun p => (Text.normalize p.1, p.2.normalized)))
        (.obj (members.map fun p => (Text.normalize p.1, p.2.canonicalForm))) :=
      .obj fun p hp => ih p hp fun ms hm => h ms (.member hp hm)
    have hsorted : (sortMembers (members.map fun p => (p.1, p.2.canonicalForm))).Perm
        (members.map fun p => (Text.normalize p.1, p.2.canonicalForm)) := by
      have hperm := @sortMembers_perm (members.map fun p => (p.1, p.2.canonicalForm))
      rw [List.map_map, List.map_map] at hperm
      exact hperm (h members .self)
    exact hvalues.trans (.members hsorted.symm)
  | _ =>
    rw [normalized, canonicalForm]
    · exact .refl _
    all_goals simp

/-! ## Faithful trees -/

/-- A tree that its canonical text shows in full: no numbers with a fraction, no integer that is too
long, and no object with two names of one normal form. -/
structure Faithful (x : Json) : Prop where
  floats : ∀ f : Binary64, ¬(Json.float f).Within x
  integers : ∀ n : Int, (Json.int n).Within x → n.natAbs < integerBound
  names : ∀ members, (Json.obj members).Within x → (members.map fun p => Text.normalize p.1).Nodup

namespace Faithful

variable {x y : Json}

theorem canonical_eq (h : x.Faithful) : x.canonical = .ok (render .compact x.canonicalForm) :=
  canonical_eq_ok.2 ⟨floatPath?_eq_none_iff.2 h.floats,
    writable_of_integersFit (integersFit_iff.2 h.integers), rfl⟩

theorem settled (h : x.Faithful) : x.canonicalForm.Settled :=
  settled_canonicalForm (canonical_eq_ok.1 h.canonical_eq).1

theorem canonicalForm_normalized (h : x.Faithful) :
    x.normalized.canonicalForm = x.canonicalForm := by
  have hr := reordered_canonicalForm h.names
  rw [hr.canonicalForm_eq (hr.symm.wellFormed h.settled.wellFormed), h.settled.canonicalForm_eq]

/-- Trees have one canonical text exactly if they are the same normalized tree in any order. -/
theorem canonical_eq_iff (hx : x.Faithful) (hy : y.Faithful) :
    x.canonical = y.canonical ↔ Reordered x.normalized y.normalized := by
  have hrx := reordered_canonicalForm hx.names
  have hry := reordered_canonicalForm hy.names
  constructor
  · intro h
    have hform := canonicalForm_eq_of_canonical hx.canonical_eq (h ▸ hx.canonical_eq)
    exact hrx.trans (hform ▸ hry.symm)
  · intro h
    have hform := h.canonicalForm_eq (hrx.symm.wellFormed hx.settled.wellFormed)
    rw [hx.canonicalForm_normalized, hy.canonicalForm_normalized] at hform
    rw [hx.canonical_eq, hy.canonical_eq, hform]

end Faithful

theorem Reordered.canonical_of_eq {x y : Json} (h : Reordered x y) (hx : x.WellFormed)
    {text : String} (ht : x.canonical = .ok text) : y.canonical = .ok text := by
  refine canonical_of_canonicalForm_eq ht (floatPath?_eq_none_iff.2 fun f hf => ?_)
    (h.canonicalForm_eq hx)
  have hfloat := floatPath?_eq_none_iff.1 (canonical_eq_ok.1 ht).1 f
  exact hfloat ((h.within_iff (by simp) (by simp)).2 hf)

/-- A faithful tree has a canonical text, which is read back, within any limit on nesting that it
keeps, as the normalized tree up to the order of members, and that tree has the same text again; the
order of members does not show in a text; faithful trees have one text exactly if they are the same
normalized tree up to the order of members; and a tree is refused for a fraction exactly if it has
one somewhere. -/
theorem canonical_is_exact :
    (∀ x : Json, x.Faithful → ∃ text, x.canonical = .ok text ∧
      ∀ nesting : Option Nat, (∀ m ∈ nesting, x.depth ≤ m) →
        ∃ y, parseChars ⟨some digitLimit, nesting⟩ text.toList = .ok y ∧
          Reordered x.normalized y ∧ y.canonical = .ok text) ∧
    (∀ x y : Json, x.WellFormed → Reordered x y →
      ∀ text, x.canonical = .ok text ↔ y.canonical = .ok text) ∧
    (∀ x y : Json, x.Faithful → y.Faithful →
      (x.canonical = y.canonical ↔ Reordered x.normalized y.normalized)) ∧
    ∀ x : Json, (∃ path, x.canonical = .error (.float path)) ↔
      ∃ f : Binary64, (Json.float f).Within x := by
  refine ⟨fun x hx => ?_, fun x y hx h text => ?_, fun x y hx hy => hx.canonical_eq_iff hy,
    fun x => ?_⟩
  · refine ⟨_, hx.canonical_eq, fun nesting hn => ?_⟩
    have hread := parseChars_canonical hx.canonical_eq hn (List.all_nil : [].all isLayout = true)
    rw [List.append_nil] at hread
    refine ⟨_, hread, reordered_canonicalForm hx.names, ?_⟩
    refine canonical_of_canonicalForm_eq hx.canonical_eq (hx.settled.floatPath?_eq "") ?_
    exact hx.settled.canonicalForm_eq.symm
  · exact ⟨h.canonical_of_eq hx, h.symm.canonical_of_eq (h.wellFormed hx)⟩
  · have hfloat := not_congr (@floatPath?_eq_none_iff x "")
    simp only [not_forall, not_not] at hfloat
    rw [← hfloat, Json.canonical]
    cases floatPath? "" x with
    | some path => simp
    | none => by_cases hf : x.canonicalForm.integersFit <;> simp [hf]

/-- An object whose first name and whose text are not in normal form. -/
def letters : Json :=
  .obj [("\u1100\u1161", .arr [.str "\u1100\u1161", .int (-3)]), ("a", .bool true)]

theorem faithful_letters : letters.Faithful where
  floats := floatPath?_eq_none_iff.1 (rfl : floatPath? "" letters = none)
  integers := integersFit_iff.1 (by decide +kernel : letters.integersFit = true)
  names members h := by
    rcases within_obj.1 h with he | ⟨p, hp, h⟩
    · cases he
      have ha : Text.normalize "a" = "a" := by decide
      simp [normalize_letters, ha]
    · simp only [List.mem_cons, List.not_mem_nil, or_false] at hp
      rcases hp with rfl | rfl
      · simp [within_arr, within_iff_eq] at h
      · simp [within_iff_eq] at h

theorem canonical_is_exact_of_letters : ∃ text y, letters.canonical = .ok text ∧
    parse text = .ok y ∧ Reordered letters.normalized y ∧ y.canonical = .ok text ∧
    (Json.obj [("a", .bool true),
      ("\u1100\u1161", .arr [.str "\u1100\u1161", .int (-3)])]).canonical = .ok text := by
  obtain ⟨hread, horder, _⟩ := canonical_is_exact
  obtain ⟨text, htext, hparse⟩ := hread letters faithful_letters
  obtain ⟨y, hy, hreordered, hagain⟩ := hparse (some textNestingLimit) (by decide)
  refine ⟨text, y, htext, hy, hreordered, hagain, ?_⟩
  have hwellFormed : letters.WellFormed := by
    refine .obj (by decide) ?_
    simp only [List.forall_mem_cons, List.not_mem_nil, false_imp_iff, implies_true, and_true]
    refine ⟨.arr ?_, .bool true⟩
    simp only [List.forall_mem_cons, List.not_mem_nil, false_imp_iff, implies_true, and_true]
    exact ⟨.str _, .int _⟩
  exact (horder _ _ hwellFormed (.members (.swap _ _ _)) text).1 htext

end CommitChain.Json
