import CommitChain.Proofs.Json.Within
import CommitChain.Proofs.Value.Encoding

/-!
# Suspended computations in encodings

A suspended computation is encoded as a node of its own, and `suspended?` finds one exactly if the
encoding holds such a node (`suspended?_eq_none_iff`).  Bindings that the code beside them does not
refer to have no part in it, so whatever is suspended in them does not count.
-/

namespace CommitChain.Value

/-- The tree of a suspended computation: its code and its environment. -/
def IsThunk (x : Json) : Prop :=
  ∃ expr members, x = .arr [.str "thunk", expr, .obj members]

/-- Whether a suspended computation stands somewhere in a tree. -/
def HasThunk (x : Json) : Prop :=
  ∃ part : Json, IsThunk part ∧ part.Within x

/-! ## Trees without suspended computations -/

theorem not_hasThunk_iff {x : Json} :
    ¬HasThunk x ↔ ∀ part : Json, part.Within x → ¬IsThunk part :=
  ⟨fun h part hp ht => h ⟨part, ht, hp⟩, fun h ⟨part, ht, hp⟩ => h part hp ht⟩

theorem not_hasThunk_arr {items : List Json} :
    ¬HasThunk (.arr items) ↔ ¬IsThunk (.arr items) ∧ ∀ x ∈ items, ¬HasThunk x := by
  simp only [not_hasThunk_iff, Json.forall_within_arr]

theorem not_hasThunk_obj {members : List (String × Json)} :
    ¬HasThunk (.obj members) ↔ ∀ p ∈ members, ¬HasThunk p.2 := by
  simp only [not_hasThunk_iff, Json.forall_within_obj]
  exact and_iff_right fun ⟨_, _, h⟩ => absurd h (by simp)

theorem not_hasThunk_str (s : String) : ¬HasThunk (.str s) := by
  rintro ⟨part, ⟨_, _, rfl⟩, hp⟩
  cases hp

theorem not_hasThunk_int (n : Int) : ¬HasThunk (.int n) := by
  rintro ⟨part, ⟨_, _, rfl⟩, hp⟩
  cases hp

theorem hasThunk_thunk (expr : Json) (members : List (String × Json)) :
    HasThunk (.arr [.str "thunk", expr, .obj members]) :=
  ⟨_, ⟨expr, members, rfl⟩, .self⟩

theorem not_hasThunk_tagged {tag : String} {items : List Json} (ht : tag ≠ "thunk") :
    ¬HasThunk (.arr (.str tag :: items)) ↔ ∀ x ∈ items, ¬HasThunk x := by
  have hself : ¬IsThunk (.arr (.str tag :: items)) := by
    rintro ⟨_, _, h⟩
    exact ht (Json.str.inj (List.cons.inj (Json.arr.inj h)).1)
  rw [not_hasThunk_arr, and_iff_right hself, List.forall_mem_cons,
    and_iff_right (not_hasThunk_str tag)]

theorem not_hasThunk_namesJson (names : List String) : ¬HasThunk (namesJson names) := by
  refine not_hasThunk_arr.2 ⟨?_, List.forall_mem_map.2 fun name _ => not_hasThunk_str name⟩
  rintro ⟨_, members, h⟩
  have hmem : Json.obj members ∈ names.map Json.str := Json.arr.inj h ▸ by simp
  obtain ⟨name, _, hname⟩ := List.mem_map.1 hmem
  exact absurd hname (by simp)

/-! ## Encodings by their items -/

theorem parts_eq (v : Value) : parts v = (v.items.map encode, v.last.encode) := by
  induction v using value_induction with
  | cons a b _ ihb =>
    rw [parts, ihb]
    rfl
  | _ => rfl

/-- The encoding of a chain is told by those of its items and its end. -/
theorem encode_eq_pack (v : Value) : v.encode = pack (v.items.map encode, v.last.encode) := by
  rw [encode, parts_eq]

/-- No encoding is a text. -/
theorem encode_ne_str (v : Value) (s : String) : v.encode ≠ .str s := by
  cases v <;> simp [encode, parts, pack]

theorem not_hasThunk_pack {vs : List Value} {last : Json} :
    ¬HasThunk (pack (vs.map encode, last)) ↔ (∀ v ∈ vs, ¬HasThunk v.encode) ∧ ¬HasThunk last := by
  cases vs with
  | nil => exact (and_iff_right fun _ hv => absurd hv List.not_mem_nil).symm
  | cons v vs =>
    have hitems : ¬IsThunk (.arr ((v :: vs).map encode)) := by
      rintro ⟨_, _, h⟩
      exact encode_ne_str v "thunk" (List.cons.inj (Json.arr.inj h)).1
    have hpack : pack ((v :: vs).map encode, last)
        = .arr [.str "cons", .arr ((v :: vs).map encode), last] := rfl
    rw [hpack, not_hasThunk_tagged (by decide), List.forall_mem_cons, List.forall_mem_singleton,
      not_hasThunk_arr, and_iff_right hitems, List.forall_mem_map]

theorem not_hasThunk_cons (a b : Value) :
    ¬HasThunk (cons a b).encode ↔ ¬HasThunk a.encode ∧ ¬HasThunk b.encode := by
  rw [encode_eq_pack b, not_hasThunk_pack, encode_eq_pack (cons a b), not_hasThunk_pack, items,
    List.forall_mem_cons, and_assoc]
  rfl

theorem not_hasThunk_scopeParts {keep : List String} {env : List (String × Value)} :
    ¬HasThunk (.obj (scopeParts keep env))
      ↔ ∀ p ∈ env, keep.contains p.1 → ¬HasThunk p.2.encode := by
  rw [scopeParts_eq_map, not_hasThunk_obj, List.forall_mem_map]
  simp only [List.mem_filter, and_imp]

theorem not_hasThunk_closure (params : List String) (body : Value) (env : Env) :
    ¬HasThunk (closure params body env).encode ↔ ¬HasThunk body.encode ∧
      ∀ p ∈ env, (freeInFunction params body).contains p.1 → ¬HasThunk p.2.encode := by
  have hencode : (closure params body env).encode = .arr [.str "fun", namesJson params, body.encode,
      .obj (scopeParts (freeInFunction params body) env)] := rfl
  rw [hencode, not_hasThunk_tagged (by decide), List.forall_mem_cons, List.forall_mem_cons,
    List.forall_mem_singleton, and_iff_right (not_hasThunk_namesJson params),
    not_hasThunk_scopeParts]

theorem not_hasThunk_fix (name : String) (params : List String) (body : Value) (env : Env) :
    ¬HasThunk (fix name params body env).encode ↔ ¬HasThunk body.encode ∧
      ∀ p ∈ env, (freeInFix name params body).contains p.1 → ¬HasThunk p.2.encode := by
  have hencode : (fix name params body env).encode = .arr [.str "fix", .str name, namesJson params,
      body.encode, .obj (scopeParts (freeInFix name params body) env)] := rfl
  rw [hencode, not_hasThunk_tagged (by decide), List.forall_mem_cons, List.forall_mem_cons,
    List.forall_mem_cons, List.forall_mem_singleton, and_iff_right (not_hasThunk_str name),
    and_iff_right (not_hasThunk_namesJson params), not_hasThunk_scopeParts]

/-! ## Where a suspended computation is found -/

theorem suspendedInScope?_eq_none_iff (keep : List String) {env : List (String × Value)}
    (h : ∀ p ∈ env, ∀ path, suspended? path none p.2 = none ↔ ¬HasThunk p.2.encode)
    (path : String) : suspendedInScope? path keep env = none
      ↔ ∀ p ∈ env, keep.contains p.1 → ¬HasThunk p.2.encode := by
  induction env with
  | nil => exact iff_of_true rfl fun _ hp => absurd hp List.not_mem_nil
  | cons p env ih =>
    obtain ⟨hp, henv⟩ := List.forall_mem_cons.1 h
    rw [suspendedInScope?, List.forall_mem_cons, ← ih henv]
    by_cases hk : keep.contains p.1
    · rw [if_pos hk, imp_iff_right hk]
      split
      next hs => exact iff_of_false (by simp) fun hn => by simp [(hp _).2 hn.1] at hs
      next hs => exact (and_iff_right ((hp _).1 hs)).symm
    · rw [if_neg hk]
      exact (and_iff_right fun hk' => absurd hk' hk).symm

/-- Nothing suspended is found, on whatever path, exactly if the encoding holds no thunk. -/
theorem suspended?_eq_none_iff {v : Value} (path : String) (index : Option Nat) :
    suspended? path index v = none ↔ ¬HasThunk v.encode := by
  induction v using value_induction generalizing path index with
  | num n => exact iff_of_true rfl ((not_hasThunk_tagged (by decide)).2
      (List.forall_mem_singleton.2 (not_hasThunk_int n)))
  | sym name => exact iff_of_true rfl ((not_hasThunk_tagged (by decide)).2
      (List.forall_mem_singleton.2 (not_hasThunk_str name)))
  | str s => exact iff_of_true rfl ((not_hasThunk_tagged (by decide)).2
      (List.forall_mem_singleton.2 (not_hasThunk_str s)))
  | nil => exact iff_of_true rfl ((not_hasThunk_tagged (by decide)).2
      fun _ hx => absurd hx List.not_mem_nil)
  | cons a b iha ihb =>
    rw [not_hasThunk_cons, suspended?]
    split
    next hs => exact iff_of_false (by simp) fun hn => by simp [(iha _ _).2 hn.1] at hs
    next hs => exact (ihb _ _).trans (and_iff_right ((iha _ _).1 hs)).symm
  | closure params body env ihb ihe =>
    have hscope := suspendedInScope?_eq_none_iff (freeInFunction params body)
      fun p hp path => ihe p hp path none
    rw [not_hasThunk_closure, suspended?]
    split
    next hs => exact iff_of_false (by simp) fun hn => by simp [(ihb _ _).2 hn.1] at hs
    next hs => exact (hscope _).trans (and_iff_right ((ihb _ _).1 hs)).symm
  | fix name params body env ihb ihe =>
    have hscope := suspendedInScope?_eq_none_iff (freeInFix name params body)
      fun p hp path => ihe p hp path none
    rw [not_hasThunk_fix, suspended?]
    split
    next hs => exact iff_of_false (by simp) fun hn => by simp [(ihb _ _).2 hn.1] at hs
    next hs => exact (hscope _).trans (and_iff_right ((ihb _ _).1 hs)).symm
  | thunk expr env _ _ =>
    exact iff_of_false (by simp [suspended?]) (not_not_intro (hasThunk_thunk _ _))

end CommitChain.Value
