import CommitChain.Json.Digest
import CommitChain.Proofs.Outcome

/-!
# Canonical forms

Which trees have a canonical text, and so a digest.
-/

namespace CommitChain.Json

/-- Induction on a tree, with the items of an array and the values of an object as its parts. -/
@[elab_as_elim]
theorem tree_induction {motive : Json → Prop} (null : motive null) (bool : ∀ b, motive (bool b))
    (int : ∀ n, motive (int n)) (float : ∀ x, motive (float x)) (str : ∀ s, motive (str s))
    (arr : ∀ items, (∀ x ∈ items, motive x) → motive (arr items))
    (obj : ∀ members, (∀ p ∈ members, motive p.2) → motive (obj members)) (x : Json) : motive x :=
  @Json.rec motive (fun items => ∀ x ∈ items, motive x) (fun members => ∀ p ∈ members, motive p.2)
    (fun p => motive p.2) null bool int float str arr obj
    (fun _ hx => absurd hx List.not_mem_nil)
    (fun _ _ hx hxs => List.forall_mem_cons.2 ⟨hx, hxs⟩)
    (fun _ hp => absurd hp List.not_mem_nil)
    (fun _ _ hp hps => List.forall_mem_cons.2 ⟨hp, hps⟩)
    (fun _ _ hx => hx) x

/-! ## Items and members -/

theorem integersFitItems_iff {items : List Json} :
    integersFitItems items = true ↔ ∀ x ∈ items, x.integersFit = true := by
  induction items with
  | nil => simp [integersFitItems]
  | cons x xs ih => simp [integersFitItems, ih]

theorem integersFitMembers_iff {members : List (String × Json)} :
    integersFitMembers members = true ↔ ∀ p ∈ members, p.2.integersFit = true := by
  induction members with
  | nil => simp [integersFitMembers]
  | cons p r ih => rw [integersFitMembers, Bool.and_eq_true, ih, List.forall_mem_cons]

theorem canonicalItems_eq_map (items : List Json) :
    canonicalItems items = items.map canonicalForm := by
  induction items with
  | nil => rfl
  | cons x xs ih => rw [canonicalItems, ih, List.map_cons]

theorem canonicalMembers_eq_map (members : List (String × Json)) :
    canonicalMembers members = members.map fun p => (p.1, canonicalForm p.2) := by
  induction members with
  | nil => rfl
  | cons p r ih => rw [canonicalMembers, ih, List.map_cons]

theorem map_fst_canonicalMembers (members : List (String × Json)) :
    (canonicalMembers members).map Prod.fst = members.map Prod.fst := by
  rw [canonicalMembers_eq_map, List.map_map]
  rfl

theorem find?_canonicalMembers (members : List (String × Json)) (name : String) :
    Keyed.find? name (canonicalMembers members)
      = (Keyed.find? name members).map canonicalForm := by
  induction members with
  | nil => rfl
  | cons p r ih =>
    rw [canonicalMembers, Keyed.find?, Keyed.find?, ih]
    split <;> rfl

theorem canonicalForm_int (n : Int) : (int n).canonicalForm = .int n := by
  simp [canonicalForm]

theorem canonicalForm_arr (items : List Json) :
    (arr items).canonicalForm = .arr (items.map canonicalForm) := by
  rw [canonicalForm, canonicalItems_eq_map]

/-! ## Numbers with a fraction -/

theorem floatPath?_of_mem_items {items : List Json} {path : String} {index : Nat}
    (h : floatPathItems? path index items = none) :
    ∀ x ∈ items, ∃ path, floatPath? path x = none := by
  induction items generalizing index with
  | nil => exact fun x hx => absurd hx List.not_mem_nil
  | cons y ys ih =>
    rw [floatPathItems?] at h
    split at h
    · exact absurd h (by simp)
    next hy => exact List.forall_mem_cons.2 ⟨⟨_, hy⟩, ih h⟩

theorem floatPath?_of_mem_members {members : List (String × Json)} {path : String}
    (h : floatPathMembers? path members = none) :
    ∀ p ∈ members, ∃ path, floatPath? path p.2 = none := by
  induction members with
  | nil => exact fun p hp => absurd hp List.not_mem_nil
  | cons p ms ih =>
    obtain ⟨k, y⟩ := p
    rw [floatPathMembers?] at h
    split at h
    · exact absurd h (by simp)
    next hy => exact List.forall_mem_cons.2 ⟨⟨_, hy⟩, ih h⟩

theorem floatPathItems?_eq_none {items : List Json}
    (h : ∀ x ∈ items, ∀ path, floatPath? path x = none) (path : String) (index : Nat) :
    floatPathItems? path index items = none := by
  induction items generalizing index with
  | nil => rfl
  | cons x xs ih =>
    obtain ⟨hx, hxs⟩ := List.forall_mem_cons.1 h
    rw [floatPathItems?, hx]
    exact ih hxs (index + 1)

theorem floatPathMembers?_eq_none {members : List (String × Json)}
    (h : ∀ p ∈ members, ∀ path, floatPath? path p.2 = none) (path : String) :
    floatPathMembers? path members = none := by
  induction members with
  | nil => rfl
  | cons p ms ih =>
    obtain ⟨hp, hms⟩ := List.forall_mem_cons.1 h
    rw [floatPathMembers?, hp]
    exact ih hms

/-- Whether there is a number with a fraction does not depend on the path to the tree. -/
theorem floatPath?_eq_none {x : Json} {path : String} (h : floatPath? path x = none)
    (path' : String) : floatPath? path' x = none := by
  induction x using tree_induction generalizing path path' with
  | float x => exact absurd h (by simp [floatPath?])
  | arr items ih =>
    rw [floatPath?] at h ⊢
    refine floatPathItems?_eq_none (fun x hx path => ?_) path' 0
    obtain ⟨_, hf⟩ := floatPath?_of_mem_items h x hx
    exact ih x hx hf path
  | obj members ih =>
    rw [floatPath?] at h ⊢
    refine floatPathMembers?_eq_none (fun p hp path => ?_) path'
    obtain ⟨_, hf⟩ := floatPath?_of_mem_members h p hp
    exact ih p hp hf path
  | _ => simp [floatPath?]

theorem floatPath?_arr {items : List Json} {path : String} :
    floatPath? path (arr items) = none ↔ ∀ x ∈ items, ∀ path, floatPath? path x = none := by
  rw [floatPath?]
  refine ⟨fun h x hx path' => ?_, fun h => floatPathItems?_eq_none h path 0⟩
  obtain ⟨_, hx⟩ := floatPath?_of_mem_items h x hx
  exact floatPath?_eq_none hx path'

theorem floatPath?_obj {members : List (String × Json)} {path : String} :
    floatPath? path (obj members) = none ↔ ∀ p ∈ members, ∀ path, floatPath? path p.2 = none := by
  rw [floatPath?]
  refine ⟨fun h p hp path' => ?_, fun h => floatPathMembers?_eq_none h path⟩
  obtain ⟨_, hp⟩ := floatPath?_of_mem_members h p hp
  exact floatPath?_eq_none hp path'

/-! ## Canonical texts -/

/-- Whether every integer of the canonical form can be written. -/
def Writable (x : Json) : Prop :=
  x.canonicalForm.integersFit = true

theorem writable_arr {items : List Json} : (arr items).Writable ↔ ∀ x ∈ items, x.Writable := by
  rw [Writable, canonicalForm, integersFit, integersFitItems_iff, canonicalItems_eq_map,
    List.forall_mem_map]
  rfl

theorem canonical_eq_ok {x : Json} {text : String} :
    x.canonical = .ok text
      ↔ x.floatPath? "" = none ∧ x.Writable ∧ render .compact x.canonicalForm = text := by
  unfold canonical Writable
  split
  next h => simp [h]
  next h => by_cases hw : x.canonicalForm.integersFit <;> simp [h, hw]

theorem digest_eq_ok {x : Json} {domain : String} {d : Hash.Digest} :
    x.digest domain = .ok d
      ↔ x.floatPath? "" = none ∧ x.Writable
        ∧ Hash.taggedDigest domain [(render .compact x.canonicalForm).toUTF8] = d := by
  rw [digest, canonicalBytes, map_eq_ok]
  constructor
  · rintro ⟨bytes, hb, hd⟩
    obtain ⟨text, ht, rfl⟩ := map_eq_ok.1 hb
    obtain ⟨hf, hw, rfl⟩ := canonical_eq_ok.1 ht
    exact ⟨hf, hw, hd⟩
  · rintro ⟨hf, hw, hd⟩
    exact ⟨_, map_eq_ok.2 ⟨_, canonical_eq_ok.2 ⟨hf, hw, rfl⟩, rfl⟩, hd⟩

theorem digest_of_canonical {x : Json} {text : String} (h : x.canonical = .ok text)
    (domain : String) : x.digest domain = .ok (Hash.taggedDigest domain [text.toUTF8]) := by
  rw [digest, canonicalBytes, h]
  rfl

/-- What has a digest has a canonical text, and that is what is hashed. -/
theorem exists_canonical_of_digest {x : Json} {domain : String} {d : Hash.Digest}
    (h : x.digest domain = .ok d) :
    ∃ text, x.canonical = .ok text ∧ Hash.taggedDigest domain [text.toUTF8] = d := by
  obtain ⟨hfloat, hwritable, hd⟩ := digest_eq_ok.1 h
  exact ⟨_, canonical_eq_ok.2 ⟨hfloat, hwritable, rfl⟩, hd⟩

end CommitChain.Json
