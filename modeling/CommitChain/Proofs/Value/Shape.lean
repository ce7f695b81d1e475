import CommitChain.Proofs.Json.Equality
import CommitChain.Proofs.Value.Decoded

/-!
# Trees that stand for values

`Shape` describes the trees that can be decoded (`exists_decodeAt_iff`).  Whether a tree can be
decoded does not depend on how its texts are composed or its members ordered, so it can be seen from
its canonical form (`Shape.canonicalForm`); and equality by value is exact on such trees
(`Shape.exact`).
-/

namespace CommitChain.Value

open CommitChain.Text

/-- Whether a tree is tagged as a pair. -/
def isPair : Json → Bool
  | .arr (.str tag :: _) => tag = "cons"
  | _ => false

/-- The trees that stand for values. -/
inductive Shape : Json → Prop
  | num (n : Int) : Shape (.arr [.str "num", .int n])
  | sym (name : String) : Shape (.arr [.str "sym", .str name])
  | str (s : String) : Shape (.arr [.str "str", .str s])
  | nil : Shape (.arr [.str "nil"])
  | cons {items : List Json} {last : Json} (ne : items ≠ []) (hi : ∀ x ∈ items, Shape x)
      (hl : Shape last) (single : isPair last = false) :
      Shape (.arr [.str "cons", .arr items, last])
  | closure (params : List String) {body : Json} {members : List (String × Json)}
      (hb : Shape body) (he : ∀ p ∈ members, Shape p.2) :
      Shape (.arr [.str "fun", namesJson params, body, .obj members])
  | fix (name : String) (params : List String) {body : Json} {members : List (String × Json)}
      (hb : Shape body) (he : ∀ p ∈ members, Shape p.2) :
      Shape (.arr [.str "fix", .str name, namesJson params, body, .obj members])

/-! ## Trees that are decoded -/

/-- What is decoded has the shape of a value, and of a pair if the value is one. -/
def Decoded (path : String) (x : Json) : Prop :=
  ∀ v, decodeAt path x = .ok v → Shape x ∧ v.isCons = isPair x

/-- The trees of bindings have the shape of values if they do one by one. -/
theorem Bound.shape {members : List (String × Json)} {pairs : List (String × Value)}
    (h : Bound (fun x v => Shape x ∧ v.isCons = isPair x) members pairs) :
    ∀ p ∈ members, Shape p.2 := by
  intro p hp
  obtain ⟨q, _, _, hshape, _⟩ := exists_of_forall₂_left h p hp
  exact hshape

theorem decoded (path : String) (x : Json) : Decoded path x := by
  intro v h
  refine decodeAt_induction (motive := fun x v => Shape x ∧ v.isCons = isPair x)
    ?num ?sym ?str ?nil ?cons ?closure ?fix h
  case num => exact fun n => ⟨.num n, rfl⟩
  case sym => exact fun name => ⟨.sym name, rfl⟩
  case str => exact fun s => ⟨.str s, rfl⟩
  case nil => exact ⟨.nil, rfl⟩
  case cons =>
    intro items vs last w ne hitems hlast hw
    refine ⟨.cons ne (fun x hx => ?_) hlast.1 (hlast.2 ▸ hw), ?_⟩
    · obtain ⟨y, _, hshape, _⟩ := exists_of_forall₂_left hitems x hx
      exact hshape
    · cases hitems with
      | nil => exact absurd rfl ne
      | cons _ _ => rfl
  case closure =>
    exact fun params body b members pairs hb he => ⟨.closure params hb.1 he.shape, rfl⟩
  case fix =>
    exact fun name params body b members pairs hb he => ⟨.fix name params hb.1 he.shape, rfl⟩

/-! ## Decoding trees of the shape -/

theorem exists_decodeItems {items : List Json}
    (h : ∀ x ∈ items, ∀ path, ∃ v, decodeAt path x = .ok v) (path : String) (index : Nat) :
    ∃ vs, decodeItems path index items = .ok vs := by
  induction items generalizing index with
  | nil => exact ⟨[], rfl⟩
  | cons x xs ih =>
    obtain ⟨hx, hxs⟩ := List.forall_mem_cons.1 h
    obtain ⟨v, hv⟩ := hx s!"{path}[{index}]"
    obtain ⟨vs, hvs⟩ := ih hxs (index + 1)
    exact ⟨v :: vs, by rw [decodeItems, hv, hvs, ok_bind, ok_bind]⟩

theorem exists_decodeScope {members : List (String × Json)}
    (h : ∀ p ∈ members, ∀ path, ∃ v, decodeAt path p.2 = .ok v) (path : String) :
    ∃ env, decodeScope path (.obj members) = .ok env := by
  have hpairs : ∃ pairs, decodeMembers path members = .ok pairs := by
    induction members with
    | nil => exact ⟨[], rfl⟩
    | cons p r ih =>
      obtain ⟨name, x⟩ := p
      obtain ⟨hp, hr⟩ := List.forall_mem_cons.1 h
      obtain ⟨v, hv⟩ := hp (path ++ "." ++ name)
      obtain ⟨pairs, hpairs⟩ := ih hr
      exact ⟨(name, v) :: pairs, by rw [decodeMembers, hv, hpairs, ok_bind, ok_bind]⟩
  obtain ⟨pairs, hpairs⟩ := hpairs
  exact ⟨Env.ofPairs pairs, by rw [decodeScope, hpairs, ok_bind]⟩

theorem Shape.exists_decodeAt {x : Json} (h : Shape x) (path : String) :
    ∃ v, decodeAt path x = .ok v := by
  induction h generalizing path with
  | num n => exact ⟨_, by rw [decodeAt]⟩
  | sym name => exact ⟨_, by rw [decodeAt]⟩
  | str s => exact ⟨_, by rw [decodeAt]⟩
  | nil => exact ⟨_, by rw [decodeAt]⟩
  | @cons items last ne hi hl single ihi ihl =>
    cases items with
    | nil => exact absurd rfl ne
    | cons x xs =>
      obtain ⟨hx, hxs⟩ := List.forall_mem_cons.1 ihi
      obtain ⟨v, hv⟩ := hx s!"{path}[0]"
      obtain ⟨vs, hvs⟩ := exists_decodeItems hxs path 1
      obtain ⟨w, hw⟩ := ihl (path ++ ".tail")
      have hcons : ¬w.isCons = true := by
        rw [(decoded _ _ w hw).2, single]
        exact Bool.false_ne_true
      exact ⟨_, by rw [decodeAt, hv, hvs, hw, ok_bind, ok_bind, ok_bind, if_neg hcons]⟩
  | closure params hb he ihb ihe =>
    obtain ⟨b, hb⟩ := ihb (path ++ ".body")
    obtain ⟨env, he⟩ := exists_decodeScope ihe (path ++ ".env")
    exact ⟨_, by rw [decodeAt, decodeParams_namesJson, hb, he, ok_bind, ok_bind, ok_bind]⟩
  | fix name params hb he ihb ihe =>
    obtain ⟨b, hb⟩ := ihb (path ++ ".body")
    obtain ⟨env, he⟩ := exists_decodeScope ihe (path ++ ".env")
    exact ⟨_, by rw [decodeAt, decodeParams_namesJson, hb, he, ok_bind, ok_bind, ok_bind]⟩

/-- The trees that stand for values are those that can be decoded. -/
theorem exists_decodeAt_iff {path : String} {x : Json} :
    (∃ v, decodeAt path x = .ok v) ↔ Shape x :=
  ⟨fun ⟨v, hv⟩ => (decoded path x v hv).1, fun h => h.exists_decodeAt path⟩

/-! ## Canonical forms -/

theorem canonicalForm_namesJson (names : List String) :
    (namesJson names).canonicalForm = namesJson (names.map normalize) := by
  rw [namesJson, Json.canonicalForm_arr, List.map_map, namesJson, List.map_map]
  refine congrArg Json.arr (List.map_congr_left fun name _ => ?_)
  rw [Function.comp_apply, Function.comp_apply, Json.canonicalForm]

theorem canonicalForm_tagged {tag : String} (ht : IsNormal tag) (items : List Json) :
    (Json.arr (.str tag :: items)).canonicalForm
      = .arr (.str tag :: items.map Json.canonicalForm) := by
  rw [Json.canonicalForm_arr, List.map_cons, Json.canonicalForm, ht]

/-- The tag is the same in the canonical form. -/
theorem Shape.isPair_canonicalForm {x : Json} (h : Shape x) :
    isPair x.canonicalForm = isPair x := by
  cases h with
  | num n => rw [canonicalForm_tagged (by decide)]; rfl
  | sym name => rw [canonicalForm_tagged (by decide)]; rfl
  | str s => rw [canonicalForm_tagged (by decide)]; rfl
  | nil => rw [canonicalForm_tagged (by decide)]; rfl
  | cons ne hi hl single => rw [canonicalForm_tagged (by decide)]; rfl
  | closure params hb he => rw [canonicalForm_tagged (by decide)]; rfl
  | fix name params hb he => rw [canonicalForm_tagged (by decide)]; rfl

/-- The canonical form of a tree that stands for a value stands for one. -/
theorem Shape.canonicalForm {x : Json} (h : Shape x) : Shape x.canonicalForm := by
  have hmembers : ∀ {members : List (String × Json)},
      (∀ p ∈ members, Shape p.2.canonicalForm) →
        ∀ p ∈ Json.canonicalObject members, Shape p.2 := by
    intro members h p hp
    obtain ⟨q, hq, hv⟩ := Json.mem_canonicalMembers hp
    exact hv ▸ h q hq
  induction h with
  | num n =>
    rw [canonicalForm_tagged (by decide), List.map_singleton, Json.canonicalForm_int]
    exact .num n
  | sym name =>
    rw [canonicalForm_tagged (by decide), List.map_singleton, Json.canonicalForm]
    exact .sym _
  | str s =>
    rw [canonicalForm_tagged (by decide), List.map_singleton, Json.canonicalForm]
    exact .str _
  | nil =>
    rw [canonicalForm_tagged (by decide)]
    exact .nil
  | cons ne hi hl single ihi ihl =>
    rw [canonicalForm_tagged (by decide), List.map_cons, List.map_singleton, Json.canonicalForm_arr]
    exact .cons (by simpa using ne) (List.forall_mem_map.2 ihi) ihl
      (hl.isPair_canonicalForm.trans single)
  | closure params hb he ihb ihe =>
    rw [canonicalForm_tagged (by decide), List.map_cons, List.map_cons, List.map_singleton,
      canonicalForm_namesJson, Json.canonicalForm_obj]
    exact .closure _ ihb (hmembers ihe)
  | fix name params hb he ihb ihe =>
    rw [canonicalForm_tagged (by decide), List.map_cons, List.map_cons, List.map_cons,
      List.map_singleton, canonicalForm_namesJson, Json.canonicalForm_obj, Json.canonicalForm]
    exact .fix _ _ ihb (hmembers ihe)

/-! ## Equality -/

theorem exact_namesJson (names : List String) : (namesJson names).Exact :=
  .arr (List.forall_mem_map.2 fun name _ => .str name)

/-- A well-formed tree that stands for a value has nothing in it that equals something else. -/
theorem Shape.exact {x : Json} (h : Shape x) (hx : x.WellFormed) : x.Exact := by
  have items : ∀ {xs : List Json}, (Json.arr xs).WellFormed → ∀ x ∈ xs, x.WellFormed := by
    intro xs h
    cases h with
    | arr h => exact h
  have tagged : ∀ {tag : String} {xs : List Json}, (∀ x ∈ xs, x.Exact) →
      (Json.arr (.str tag :: xs)).Exact := by
    exact fun h => .arr (List.forall_mem_cons.2 ⟨.str _, h⟩)
  have object : ∀ {members : List (String × Json)}, (Json.obj members).WellFormed →
      (∀ p ∈ members, p.2.WellFormed → p.2.Exact) → (Json.obj members).Exact := by
    intro members hw h
    cases hw with
    | obj names hw => exact .obj names fun p hp => h p hp (hw p hp)
  induction h with
  | num n => exact tagged (List.forall_mem_singleton.2 (.int n))
  | sym name => exact tagged (List.forall_mem_singleton.2 (.str name))
  | str s => exact tagged (List.forall_mem_singleton.2 (.str s))
  | nil => exact tagged fun _ hx => absurd hx List.not_mem_nil
  | @cons xs last ne hi hl single ihi ihl =>
    have hxs := items (items hx (.arr xs) (by simp))
    refine tagged ?_
    simp only [List.forall_mem_cons, List.not_mem_nil, false_imp_iff, implies_true, and_true]
    exact ⟨.arr fun x hm => ihi x hm (hxs x hm), ihl (items hx last (by simp))⟩
  | @closure params body members hb he ihb ihe =>
    refine tagged ?_
    simp only [List.forall_mem_cons, List.not_mem_nil, false_imp_iff, implies_true, and_true]
    exact ⟨exact_namesJson params, ihb (items hx body (by simp)),
      object (items hx (.obj members) (by simp)) ihe⟩
  | @fix name params body members hb he ihb ihe =>
    refine tagged ?_
    simp only [List.forall_mem_cons, List.not_mem_nil, false_imp_iff, implies_true, and_true]
    exact ⟨.str name, exact_namesJson params, ihb (items hx body (by simp)),
      object (items hx (.obj members) (by simp)) ihe⟩

end CommitChain.Value
