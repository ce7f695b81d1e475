import CommitChain.Machine.State
import CommitChain.Proofs.Value.Regular

/-!
# Free variables of well-formed forms

What `freeVariables` comes to for the forms that the machine can run, in terms of their arguments.
-/

namespace CommitChain.Value

theorem freeInItems_of_toList? {v : Value} {args : List Value} (h : v.toList? = some args) :
    v.freeInItems = args.flatMap freeVariables := by
  rw [toList?_eq_some.1 h]
  induction args generalizing v with
  | nil => rfl
  | cons a rest ih =>
    rw [List.flatMap_cons, ← ih (toList?_ofList rest)]
    rfl

/-- A form that is not scanned in a way of its own. -/
theorem freeVariables_form {name : String} {tail : Value} (hq : name ≠ "quote")
    (hl : name ≠ "lambda") (hlet : name ≠ "let") (hrec : name ≠ "letrec") :
    (cons (sym name) tail).freeVariables
      = (if isKeyword name ∨ selfEvaluating.contains name then [] else [name])
        ++ tail.freeInItems := by
  cases tail with
  | cons a b =>
    cases b with
    | cons c d =>
      simp only [freeVariables, hq, hl, hlet, hrec, false_and, if_false, freeInItems,
        List.append_assoc]
    | _ => simp only [freeVariables, hq, if_false]
  | _ => simp only [freeVariables, hq, if_false]

theorem freeVariables_application {head tail : Value} (h : head.symbolName? = none) :
    (cons head tail).freeVariables = head.freeVariables ++ tail.freeInItems := by
  cases head <;> simp_all [symbolName?, freeVariables]

theorem freeVariables_lambda {tail params body : Value} {names : List String}
    (ht : tail.toList? = some [params, body]) (hp : params.paramNames? = some names) :
    (cons (sym "lambda") tail).freeVariables = freeInFunction names body := by
  rw [eq_ofList_of_toList? ht]
  simp [ofList, chain, freeVariables, isCons, hp, freeInFunction]

theorem freeVariables_let {tail bindings body : Value} {pairs : List (String × Value)}
    (ht : tail.toList? = some [bindings, body]) (hb : bindings.bindingPairs? = some pairs) :
    (cons (sym "let") tail).freeVariables
      = freeInBindings false body.freeVariables bindings := by
  rw [eq_ofList_of_toList? ht]
  simp [ofList, chain, freeVariables, isCons, hb]

theorem freeVariables_letrec {tail bindings body : Value} {pairs : List (String × Value)}
    (ht : tail.toList? = some [bindings, body]) (hb : bindings.bindingPairs? = some pairs) :
    (cons (sym "letrec") tail).freeVariables
      = freeInBindings true body.freeVariables bindings := by
  rw [eq_ofList_of_toList? ht]
  simp [ofList, chain, freeVariables, isCons, hb]

/-- The free variables of a row of `letrec` bindings around code with the free variables
`inner`. -/
def freeInRecRow (inner : List String) : List (String × Value) → List String
  | [] => inner
  | (name, expr) :: rest =>
    (freeInRecRow inner rest).filter (· ≠ name) ++ expr.freeVariables.filter (· ≠ name)

theorem freeInBindings_false {inner : List String} {bindings : Value}
    {pairs : List (String × Value)} (hb : bindings.bindingPairs? = some pairs) :
    freeInBindings false inner bindings = Machine.freeInRow inner pairs := by
  fun_induction bindingPairs? bindings generalizing pairs with
  | case1 =>
    cases hb
    rfl
  | case2 name expr rest ih =>
    obtain ⟨r, hr, rfl⟩ := Option.map_eq_some_iff.1 hb
    simp [freeInBindings, ih hr, Machine.freeInRow]
  | case3 => exact absurd hb (by simp)

theorem freeInBindings_true {inner : List String} {bindings : Value}
    {pairs : List (String × Value)} (hb : bindings.bindingPairs? = some pairs) :
    freeInBindings true inner bindings = freeInRecRow inner pairs := by
  fun_induction bindingPairs? bindings generalizing pairs with
  | case1 =>
    cases hb
    rfl
  | case2 name expr rest ih =>
    obtain ⟨r, hr, rfl⟩ := Option.map_eq_some_iff.1 hb
    simp [freeInBindings, ih hr, freeInRecRow]
  | case3 => exact absurd hb (by simp)

end CommitChain.Value
