import CommitChain.Language.Form

/-!
# Forms and their parts

Reading a form takes it apart, and a form that is built from those parts is the one that was read
(`paramNames?_eq_some`, `bindingPairs?_eq_some`).
-/

namespace CommitChain

namespace Value

/-- The form that a name starts. -/
def form (name : String) (args : List Value) : Value :=
  cons (sym name) (ofList args)

def nameList (names : List String) : Value :=
  ofList (names.map sym)

def bindingList (pairs : List (String × Value)) : Value :=
  ofList (pairs.map fun p => ofList [sym p.1, p.2])

theorem toList?_eq_some {v : Value} {vs : List Value} : v.toList? = some vs ↔ v = ofList vs := by
  constructor
  · exact eq_ofList_of_toList?
  · rintro rfl
    exact toList?_ofList vs

theorem headName?_eq_some {v : Value} {name : String} :
    v.headName? = some name ↔ ∃ tail, v = .cons (.sym name) tail := by
  constructor
  · intro h
    unfold headName? at h
    split at h
    next found tail =>
      cases h
      exact ⟨tail, rfl⟩
    · cases h
  · rintro ⟨tail, rfl⟩
    rfl

theorem eq_sym_of_headName? {head tail : Value} {name : String}
    (h : (cons head tail).headName? = some name) : head = sym name := by
  obtain ⟨_, htail⟩ := headName?_eq_some.1 h
  exact (cons.inj htail).1

theorem mapM_symbolName? {vs : List Value} {names : List String} :
    vs.mapM symbolName? = some names ↔ vs = names.map sym := by
  constructor
  · intro h
    induction vs generalizing names with
    | nil =>
      cases h
      rfl
    | cons v vs ih =>
      simp only [List.mapM_cons, Option.bind_eq_bind, Option.pure_def, Option.bind_eq_some_iff] at h
      obtain ⟨name, hv, rest, hvs, h⟩ := h
      cases v with
      | sym =>
        cases hv
        cases h
        rw [ih hvs]
        rfl
      | _ => cases hv
  · rintro rfl
    induction names with
    | nil => rfl
    | cons name names ih =>
      rw [List.map_cons, List.mapM_cons, ih]
      rfl

theorem paramNames?_eq_some {v : Value} {names : List String} :
    v.paramNames? = some names ↔ v = nameList names ∧ names.Nodup := by
  constructor
  · intro h
    obtain ⟨vs, hvs, h⟩ := Option.bind_eq_some_iff.1 h
    obtain ⟨found, hfound, h⟩ := Option.bind_eq_some_iff.1 h
    rw [toList?_eq_some.1 hvs, mapM_symbolName?.1 hfound]
    split at h
    next hnodup =>
      cases h
      exact ⟨rfl, hnodup⟩
    · cases h
  · rintro ⟨rfl, hnodup⟩
    rw [paramNames?, nameList, toList?_ofList, Option.bind_eq_bind, Option.bind_some,
      mapM_symbolName?.2 rfl, Option.bind_eq_bind, Option.bind_some, if_pos hnodup]

theorem bindingPairs?_eq_some {v : Value} {pairs : List (String × Value)} :
    v.bindingPairs? = some pairs ↔ v = bindingList pairs := by
  constructor
  · intro h
    fun_induction bindingPairs? v generalizing pairs with
    | case1 =>
      cases h
      rfl
    | case2 name expr rest ih =>
      obtain ⟨found, hfound, rfl⟩ := Option.map_eq_some_iff.1 h
      rw [ih hfound]
      rfl
    | case3 => cases h
  · rintro rfl
    induction pairs with
    | nil => rfl
    | cons p pairs ih => exact congrArg (Option.map (p :: ·)) ih

end Value

end CommitChain
