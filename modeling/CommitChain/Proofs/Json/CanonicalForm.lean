import CommitChain.Proofs.Json.Canonical
import CommitChain.Proofs.Json.RoundTrip
import CommitChain.Proofs.Keyed
import CommitChain.Proofs.Text.Normal

/-!
# Trees in canonical form

Canonical texts are read as the canonical form of the tree that they were made of
(`parse_canonical`), so trees with one canonical text have one canonical form
(`canonicalForm_eq_of_canonical`).  A tree whose texts are normal and whose members are sorted is
its own canonical form.
-/

namespace CommitChain.Json

open CommitChain.Text

/-! ## Members -/

theorem isSorted_sortMembers (members : List (String × Json)) :
    Keyed.IsSorted (sortMembers members) :=
  Keyed.isSorted_sorted _

theorem mem_sortMembers {p : String × Json} {members : List (String × Json)}
    (h : p ∈ sortMembers members) : ∃ q ∈ members, p.2 = q.2 := by
  obtain ⟨q, hq, rfl⟩ := List.mem_map.1 (Keyed.mem_sorted h)
  exact ⟨q, Keyed.mem_sorted hq, rfl⟩

theorem isNormal_of_mem_sortMembers (members : List (String × Json)) :
    ∀ p ∈ sortMembers members, IsNormal p.1 := by
  intro p hp
  obtain ⟨q, _, rfl⟩ := List.mem_map.1 (Keyed.mem_sorted hp)
  exact isNormal_normalize q.1

theorem mem_canonicalMembers {p : String × Json} {members : List (String × Json)}
    (h : p ∈ sortMembers (canonicalMembers members)) :
    ∃ q ∈ members, p.2 = q.2.canonicalForm := by
  obtain ⟨r, hr, he⟩ := mem_sortMembers h
  rw [canonicalMembers_eq_map] at hr
  obtain ⟨q, hq, rfl⟩ := List.mem_map.1 hr
  exact ⟨q, hq, he⟩

/-- Members with names in normal form are only sorted. -/
theorem sortMembers_eq_sorted {members : List (String × Json)} (h : ∀ p ∈ members, IsNormal p.1) :
    sortMembers members = Keyed.sorted members := by
  have hmap : (Keyed.sorted members).map (fun p => (Text.normalize p.1, p.2))
      = Keyed.sorted members := by
    refine (List.map_congr_left fun p hp => ?_).trans (List.map_id _)
    rw [show normalize p.1 = p.1 from h p (Keyed.mem_sorted hp)]
    rfl
  rw [sortMembers, hmap, (Keyed.isSorted_sorted members).sorted_eq]

/-- Look-ups in the canonical form of an object whose names are normal and different. -/
theorem find?_sortMembers {members : List (String × Json)} (h : ∀ p ∈ members, IsNormal p.1)
    (hn : (members.map Prod.fst).Nodup) (name : String) :
    Keyed.find? name (sortMembers members) = Keyed.find? name members := by
  rw [sortMembers_eq_sorted h, Keyed.find?_sorted hn]

/-! ## What can be read -/

theorem readableItems_iff {items : List Json} : ReadableItems items ↔ ∀ x ∈ items, x.Readable := by
  induction items with
  | nil => simp [ReadableItems]
  | cons x xs ih => rw [ReadableItems, ih, List.forall_mem_cons]

theorem readableMembers_iff {members : List (String × Json)} :
    ReadableMembers members ↔ ∀ p ∈ members, p.2.Readable := by
  induction members with
  | nil => simp [ReadableMembers]
  | cons p r ih => rw [ReadableMembers, ih, List.forall_mem_cons]

/-- A canonical form that can be written can be read. -/
theorem readable_canonicalForm {x : Json} {path : String} (hfloat : floatPath? path x = none)
    (hfit : (canonicalForm x).integersFit = true) : (canonicalForm x).Readable := by
  induction x using tree_induction generalizing path with
  | null => simp [canonicalForm, Readable]
  | bool b => simp [canonicalForm, Readable]
  | str s => simp [canonicalForm, Readable]
  | int n =>
    rw [canonicalForm_int, integersFit, decide_eq_true_eq] at hfit
    rwa [canonicalForm_int, Readable]
  | float x => exact absurd hfloat (by simp [floatPath?])
  | arr items ih =>
    rw [canonicalForm, integersFit, integersFitItems_iff, canonicalItems_eq_map,
      List.forall_mem_map] at hfit
    rw [canonicalForm, Readable, readableItems_iff, canonicalItems_eq_map, List.forall_mem_map]
    exact fun x hx => ih x hx (floatPath?_arr.1 hfloat x hx path) (hfit x hx)
  | obj members ih =>
    rw [canonicalForm, integersFit, integersFitMembers_iff] at hfit
    rw [canonicalForm, Readable, readableMembers_iff]
    refine ⟨(isSorted_sortMembers _).nodup_keys, fun p hp => ?_⟩
    obtain ⟨q, hq, hv⟩ := mem_canonicalMembers hp
    have hfit := hfit p hp
    rw [hv] at hfit ⊢
    exact ih q hq (floatPath?_obj.1 hfloat q hq path) hfit

/-! ## Depth -/

theorem depthItems_le {items : List Json} {n : Nat} :
    depthItems items ≤ n ↔ ∀ x ∈ items, x.depth ≤ n := by
  induction items with
  | nil => simp [depthItems]
  | cons x xs ih => rw [depthItems, Nat.max_le, ih, List.forall_mem_cons]

theorem depthMembers_le {members : List (String × Json)} {n : Nat} :
    depthMembers members ≤ n ↔ ∀ p ∈ members, p.2.depth ≤ n := by
  induction members with
  | nil => simp [depthMembers]
  | cons p r ih => rw [depthMembers, Nat.max_le, ih, List.forall_mem_cons]

theorem depth_canonicalForm (x : Json) : x.canonicalForm.depth ≤ x.depth := by
  induction x using tree_induction with
  | null => simp [canonicalForm]
  | bool b => simp [canonicalForm]
  | int n => simp [canonicalForm]
  | float x => simp [canonicalForm]
  | str s => simp [canonicalForm, depth]
  | arr items ih =>
    rw [canonicalForm, depth, depth, Nat.add_le_add_iff_right, canonicalItems_eq_map,
      depthItems_le, List.forall_mem_map]
    exact fun x hx => Nat.le_trans (ih x hx) (depthItems_le.1 (Nat.le_refl _) x hx)
  | obj members ih =>
    rw [canonicalForm, depth, depth, Nat.add_le_add_iff_right, depthMembers_le]
    intro p hp
    obtain ⟨q, hq, hv⟩ := mem_canonicalMembers hp
    rw [hv]
    exact Nat.le_trans (ih q hq) (depthMembers_le.1 (Nat.le_refl _) q hq)

/-- A canonical text, which may have blanks behind it, is read as the canonical form of the tree
that it was made of, within any limit on nesting that the tree keeps. -/
theorem parseChars_canonical {x : Json} {text : String} (h : x.canonical = .ok text)
    {nesting : Option Nat} (hd : ∀ m ∈ nesting, x.depth ≤ m) {tail : List Char}
    (ht : tail.all isLayout = true) :
    parseChars ⟨some digitLimit, nesting⟩ (text.toList ++ tail) = .ok x.canonicalForm := by
  obtain ⟨hfloat, hfit, rfl⟩ := canonical_eq_ok.1 h
  refine parseChars_render (readable_canonicalForm hfloat hfit) (fun m hm => ?_) ht
  exact (filled_le_depth _).trans ((depth_canonicalForm x).trans (hd m hm))

/-- A canonical text, which may have a newline behind it, is read as the canonical form of the tree
that it was made of. -/
theorem parse_canonical {x : Json} {text : String} (h : x.canonical = .ok text)
    (hd : x.depth ≤ textNestingLimit) {tail : String} (ht : tail.toList.all isLayout = true) :
    parse (text ++ tail) = .ok x.canonicalForm := by
  rw [parse, String.toList_append]
  refine parseChars_canonical h (fun m hm => ?_) ht
  rwa [← Option.some.inj hm]

/-! ## Plain trees -/

theorem writable_of_integersFit {x : Json} (h : x.integersFit = true) : x.Writable := by
  rw [Writable]
  induction x using tree_induction with
  | null => simp [canonicalForm, integersFit]
  | bool b => simp [canonicalForm, integersFit]
  | int n => rwa [canonicalForm_int]
  | float x => simp [canonicalForm, integersFit]
  | str s => simp [canonicalForm, integersFit]
  | arr items ih =>
    rw [integersFit, integersFitItems_iff] at h
    rw [canonicalForm, integersFit, integersFitItems_iff, canonicalItems_eq_map,
      List.forall_mem_map]
    exact fun x hx => ih x hx (h x hx)
  | obj members ih =>
    rw [integersFit, integersFitMembers_iff] at h
    rw [canonicalForm, integersFit, integersFitMembers_iff]
    intro p hp
    obtain ⟨q, hq, hv⟩ := mem_canonicalMembers hp
    rw [hv]
    exact ih q hq (h q hq)

/-- No number with a fraction, and no integer that is too long. -/
def Plain (x : Json) : Prop :=
  (∀ path, floatPath? path x = none) ∧ x.integersFit = true

theorem plain_int {n : Int} (h : n.natAbs < integerBound) : (int n).Plain :=
  ⟨fun _ => by simp [floatPath?], by rw [integersFit, decide_eq_true_eq]; exact h⟩

theorem plain_str (s : String) : (str s).Plain :=
  ⟨fun _ => by simp [floatPath?], by simp [integersFit]⟩

theorem plain_arr_iff {items : List Json} : (arr items).Plain ↔ ∀ x ∈ items, x.Plain := by
  have hfit : (arr items).integersFit = true ↔ ∀ x ∈ items, x.integersFit = true := by
    rw [integersFit, integersFitItems_iff]
  constructor
  · rintro ⟨hfloat, hints⟩ x hx
    exact ⟨floatPath?_arr.1 (hfloat "") x hx, hfit.1 hints x hx⟩
  · intro h
    exact ⟨fun path => floatPath?_arr.2 fun x hx => (h x hx).1, hfit.2 fun x hx => (h x hx).2⟩

theorem plain_arr {items : List Json} (h : ∀ x ∈ items, x.Plain) : (arr items).Plain :=
  plain_arr_iff.2 h

theorem plain_obj {members : List (String × Json)} (h : ∀ p ∈ members, p.2.Plain) :
    (obj members).Plain := by
  refine ⟨fun path => floatPath?_obj.2 fun p hp => (h p hp).1, ?_⟩
  · rw [integersFit, integersFitMembers_iff]
    exact fun p hp => (h p hp).2

theorem Plain.canonical {x : Json} (h : x.Plain) :
    x.canonical = .ok (render .compact x.canonicalForm) :=
  canonical_eq_ok.2 ⟨h.1 "", writable_of_integersFit h.2, rfl⟩

/-! ## Trees with a canonical text -/

theorem exists_canonical_str (s : String) : ∃ text, (str s).canonical = .ok text :=
  ⟨_, (plain_str s).canonical⟩

/-- An array has a canonical text if its items have. -/
theorem exists_canonical_arr {items : List Json}
    (h : ∀ x ∈ items, ∃ text, x.canonical = .ok text) :
    ∃ text, (arr items).canonical = .ok text := by
  have hparts := fun x hx => (h x hx).imp fun _ => canonical_eq_ok.1
  refine ⟨_, canonical_eq_ok.2 ⟨floatPath?_arr.2 fun x hx path => ?_,
    writable_arr.2 fun x hx => ?_, rfl⟩⟩
  · obtain ⟨_, hfloat, _⟩ := hparts x hx
    exact floatPath?_eq_none hfloat path
  · obtain ⟨_, _, hfit, _⟩ := hparts x hx
    exact hfit

/-- An object has a canonical text if its values have. -/
theorem exists_canonical_obj {members : List (String × Json)}
    (h : ∀ p ∈ members, ∃ text, p.2.canonical = .ok text) :
    ∃ text, (obj members).canonical = .ok text := by
  have hparts := fun p hp => (h p hp).imp fun _ => canonical_eq_ok.1
  refine ⟨_, canonical_eq_ok.2 ⟨floatPath?_obj.2 fun p hp path => ?_, ?_, rfl⟩⟩
  · obtain ⟨_, hfloat, _⟩ := hparts p hp
    exact floatPath?_eq_none hfloat path
  · rw [Writable, canonicalForm, integersFit, integersFitMembers_iff]
    intro p hp
    obtain ⟨q, hq, hv⟩ := mem_canonicalMembers hp
    obtain ⟨_, _, hfit, _⟩ := hparts q hq
    exact hv ▸ hfit

/-! ## Settled trees -/

/-- No numbers with a fraction, texts and names in normal form, and members in the order of their
names. -/
inductive Settled : Json → Prop
  | null : Settled null
  | bool (b : Bool) : Settled (bool b)
  | int (n : Int) : Settled (int n)
  | str {s : String} (h : IsNormal s) : Settled (str s)
  | arr {items : List Json} (h : ∀ x ∈ items, Settled x) : Settled (arr items)
  | obj {members : List (String × Json)} (names : ∀ p ∈ members, IsNormal p.1)
      (sorted : Keyed.IsSorted members) (h : ∀ p ∈ members, Settled p.2) : Settled (obj members)

theorem Settled.canonicalForm_eq {x : Json} (h : x.Settled) : x.canonicalForm = x := by
  induction h with
  | null => simp [canonicalForm]
  | bool b => simp [canonicalForm]
  | int n => simp [canonicalForm]
  | str h => rw [canonicalForm, h]
  | arr h ih =>
    rw [canonicalForm, canonicalItems_eq_map, List.map_congr_left ih]
    exact congrArg _ (List.map_id' _)
  | @obj members names sorted h ih =>
    have hmembers : canonicalMembers members = members := by
      rw [canonicalMembers_eq_map]
      refine (List.map_congr_left fun p hp => ?_).trans (List.map_id _)
      rw [ih p hp]
      rfl
    rw [canonicalForm, hmembers, sortMembers_eq_sorted names, sorted.sorted_eq]

theorem Settled.floatPath?_eq {x : Json} (h : x.Settled) (path : String) :
    floatPath? path x = none := by
  induction h generalizing path with
  | null => simp [floatPath?]
  | bool b => simp [floatPath?]
  | int n => simp [floatPath?]
  | str h => simp [floatPath?]
  | arr h ih => exact floatPath?_arr.2 ih
  | obj names sorted h ih => exact floatPath?_obj.2 ih

/-! ## What a text stands for -/

/-- A compact text is that of one tree. -/
theorem Readable.eq_of_render {x y : Json} (hx : x.Readable) (hy : y.Readable)
    (h : render .compact x = render .compact y) : x = y := by
  have parse : ∀ {z : Json}, z.Readable →
      parseChars ⟨some digitLimit, none⟩ ((render .compact z).toList ++ []) = .ok z := by
    intro z hz
    refine parseChars_render hz ?_ rfl
    intro m hm
    cases hm
  have hread := parse hx
  rw [h, parse hy] at hread
  exact (Except.ok.inj hread).symm

/-- A canonical text is that of one canonical form. -/
theorem canonicalForm_eq_of_canonical {x y : Json} {text : String} (hx : x.canonical = .ok text)
    (hy : y.canonical = .ok text) : x.canonicalForm = y.canonicalForm := by
  obtain ⟨hfloat, hfit, htext⟩ := canonical_eq_ok.1 hx
  obtain ⟨hfloat', hfit', htext'⟩ := canonical_eq_ok.1 hy
  exact (readable_canonicalForm hfloat hfit).eq_of_render (readable_canonicalForm hfloat' hfit')
    (htext.trans htext'.symm)

theorem Settled.eq_of_canonical {x y : Json} (hx : x.Settled) (hy : y.Settled) {text : String}
    (h : x.canonical = .ok text) (g : y.canonical = .ok text) : x = y := by
  have heq := canonicalForm_eq_of_canonical h g
  rwa [hx.canonicalForm_eq, hy.canonicalForm_eq] at heq

/-- Trees of one canonical form have one canonical text, if they can be written. -/
theorem canonical_of_canonicalForm_eq {x y : Json} {text : String} (h : x.canonical = .ok text)
    (hy : y.floatPath? "" = none) (he : x.canonicalForm = y.canonicalForm) :
    y.canonical = .ok text := by
  obtain ⟨_, hfit, htext⟩ := canonical_eq_ok.1 h
  rw [Writable, he] at hfit
  exact canonical_eq_ok.2 ⟨hy, hfit, he ▸ htext⟩

theorem exists_common_canonical {x y : Json} (hx : ∃ text, x.canonical = .ok text)
    (hy : ∃ text, y.canonical = .ok text) (h : x.canonicalForm = y.canonicalForm) :
    ∃ text, x.canonical = .ok text ∧ y.canonical = .ok text := by
  obtain ⟨text, htext⟩ := hx
  obtain ⟨_, htext'⟩ := hy
  exact ⟨text, htext, canonical_of_canonicalForm_eq htext (canonical_eq_ok.1 htext').1 h⟩

/-- The canonical form of a tree without fractions is settled. -/
theorem settled_canonicalForm {x : Json} {path : String} (h : floatPath? path x = none) :
    x.canonicalForm.Settled := by
  induction x using tree_induction generalizing path with
  | null => simpa [canonicalForm] using Settled.null
  | bool b => simpa [canonicalForm] using Settled.bool b
  | int n => simpa [canonicalForm] using Settled.int n
  | float x => exact absurd h (by simp [floatPath?])
  | str s =>
    rw [canonicalForm]
    exact .str (isNormal_normalize s)
  | arr items ih =>
    rw [canonicalForm, canonicalItems_eq_map]
    exact .arr (List.forall_mem_map.2 fun x hx => ih x hx (floatPath?_arr.1 h x hx path))
  | obj members ih =>
    rw [canonicalForm]
    refine .obj (isNormal_of_mem_sortMembers _) (isSorted_sortMembers _) fun p hp => ?_
    obtain ⟨q, hq, hv⟩ := mem_canonicalMembers hp
    exact hv ▸ ih q hq (floatPath?_obj.1 h q hq path)

end CommitChain.Json
