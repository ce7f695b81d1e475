import CommitChain.Proofs.Machine.Pruned

/-!
# Reductions of pruned states

A reduction reads nothing of a state but what its pruned form keeps (`State.step_prune`), with two
exceptions: `eq` compares whole environments, and a symbol `nil` is looked up although it does not
count as a free variable.
-/

namespace CommitChain.Machine

open CommitChain.Value

/-! ## Builtins -/

theorem numbers_prune (b : Builtin) (v w : Value) :
    numbers b v.prune w.prune
      = match numbers b v w with
        | .ok p => .ok p
        | .error e => .error e.prune := by
  cases v <;> cases w <;> simp [numbers, Value.prune, Fault.prune]

theorem pruneValue_numbers {b : Builtin} {v w : Value} {f : Int × Int → Except Fault Value} :
    pruneValue (numbers b v.prune w.prune >>= f) = pruneValue (numbers b v w >>= f) := by
  rw [numbers_prune]
  cases numbers b v w with
  | ok p => rfl
  | error e => exact congrArg Except.error e.prune_prune

theorem applyBuiltin_prune {b : Builtin} {args : List Value}
    (hb : b = .same → ∀ u v, args ≠ [u, v]) :
    pruneValue (applyBuiltin b (args.map Value.prune)) = pruneValue (applyBuiltin b args) := by
  match args with
  | [] => cases b <;> rfl
  | [v] =>
    cases b
    case car =>
      cases v <;> simp [applyBuiltin, pruneValue, Fault.prune, Value.prune, Value.prune_prune,
        freeInFunction_prune, freeInFix_prune, freeVariables_prune, pruneScope_pruneScope]
    case cdr =>
      cases v <;> simp [applyBuiltin, pruneValue, Fault.prune, Value.prune, Value.prune_prune,
        freeInFunction_prune, freeInFix_prune, freeVariables_prune, pruneScope_pruneScope]
    case atom =>
      rw [List.map_cons, List.map_nil, applyBuiltin, isAtom_prune, applyBuiltin]
    all_goals rfl
  | [v, w] =>
    cases b
    case add => exact pruneValue_numbers
    case sub => exact pruneValue_numbers
    case mul => exact pruneValue_numbers
    case div => exact pruneValue_numbers
    case mod => exact pruneValue_numbers
    case equal => exact pruneValue_numbers
    case less => exact pruneValue_numbers
    case greater => exact pruneValue_numbers
    case lessEqual => exact pruneValue_numbers
    case greaterEqual => exact pruneValue_numbers
    case same => exact absurd rfl (hb rfl v w)
    case cons => exact congrArg Except.ok (Value.prune_prune (cons v w))
    all_goals rfl
  | _ :: _ :: _ :: _ => cases b <;> rfl

/-! ## Functions -/

theorem isSorted_bindAll {env : Env} (h : Keyed.IsSorted env) (pairs : List (String × Value)) :
    Keyed.IsSorted (env.bindAll pairs) := by
  induction pairs generalizing env with
  | nil => exact h
  | cons p r ih => exact ih (Keyed.isSorted_insert p.1 p.2 h)

theorem enter_prune {params : List String} {body : Value} {args : List Value} {env env' : Env}
    {stack : Stack} (h : Env.AgreeOn (freeInFunction params body) env' env)
    (hs' : Keyed.IsSorted env') (hs : Keyed.IsSorted env)
    (hl : args.length = params.length) :
    (State.eval body.prune (env'.bindAll (params.zip (args.map Value.prune)))
        (stack.map Pending.prune)).prune
      = (State.eval body (env.bindAll (params.zip args)) stack).prune :=
  prune_eval (Env.AgreeOn.bindAll (by rw [List.length_map, hl]) (map_prune_prune args) h)
    (isSorted_bindAll hs' _) (isSorted_bindAll hs _) (map_pending_prune_prune stack)

theorem applyFunction_prune {fn : Value} (hf : fn.Regular) (args : List Value) (stack : Stack) :
    pruneOutcome (applyFunction fn.prune (args.map Value.prune) (stack.map Pending.prune))
      = pruneOutcome (applyFunction fn args stack) := by
  cases fn with
  | closure params body env =>
    have he := (regular_closure.1 hf).2.2.1
    simp only [applyFunction, Value.prune, close, List.length_map]
    split
    next hl =>
      exact congrArg Except.ok (enter_prune (Env.agreeOn_pruneScope env fun _ hn => hn)
        (isSorted_pruneScope _ he) he hl)
    next => rfl
  | fix name params body env =>
    have he := (regular_fix.1 hf).2.2.2.1
    simp only [applyFunction, Value.prune, close, fixEnv, List.length_map]
    split
    next hl =>
      refine congrArg Except.ok (enter_prune (Env.AgreeOn.bind ?_ ?_)
        (Keyed.isSorted_insert _ _ (isSorted_pruneScope _ he)) (Keyed.isSorted_insert _ _ he) hl)
      · exact Env.agreeOn_pruneScope env fun _ hn => hn
      · exact Value.prune_prune (fix name params body env)
    next => rfl
  | num n => rfl
  | sym n => rfl
  | str s => rfl
  | nil => rfl
  | cons a b => exact congrArg (fun v => Except.error (Fault.notFunction v)) (Value.prune_prune _)
  | thunk expr env =>
    exact congrArg (fun v => Except.error (Fault.notFunction v))
      (Value.prune_prune (thunk expr env))

theorem close_prune {v : Value} (hv : v.Regular) : v.prune.close.prune = v.close.prune := by
  cases v with
  | fix name params body env =>
    have he := (regular_fix.1 hv).2.2.2.1
    simp only [Value.prune, close, fixEnv, Value.prune_prune, freeInFunction_prune]
    refine congrArg _ (Env.AgreeOn.pruneScope_eq (Env.AgreeOn.bind ?_ ?_)
      (Keyed.isSorted_insert _ _ (isSorted_pruneScope _ he)) (Keyed.isSorted_insert _ _ he))
    · exact Env.agreeOn_pruneScope env fun _ hn => hn
    · exact Value.prune_prune (fix name params body env)
  | closure params body env => exact Value.prune_prune (closure params body env)
  | thunk expr env => exact Value.prune_prune (thunk expr env)
  | cons a b => exact Value.prune_prune (cons a b)
  | num n => rfl
  | sym n => rfl
  | str s => rfl
  | nil => rfl

/-! ## Control -/

/-- A `lambda` that the machine accepts, as a form. -/
theorem freeVariables_of_lambda {expr params body l : Value} {names : List String}
    (hh : expr.headName? = some "lambda") (hl : expr.toList? = some [l, params, body])
    (hp : params.paramNames? = some names) : expr.freeVariables = freeInFunction names body := by
  obtain ⟨tail, rfl⟩ := headName?_eq_some.1 hh
  obtain ⟨r, hr, he⟩ := Option.map_eq_some_iff.1 hl
  exact freeVariables_lambda (hr.trans (congrArg some (List.cons.inj he).2)) hp

theorem letrecEnv_malformed {name : String} {expr l params body : Value}
    (hh : expr.headName? = some "lambda") (hl : expr.toList? = some [l, params, body])
    (hp : params.paramNames? = none) (env : Env) (rest : List (String × Value)) :
    letrecEnv env ((name, expr) :: rest) = .error (.letrecMalformed name) := by
  simp only [letrecEnv, hh, hl, hp]

theorem letrecEnv_notLambda {name : String} {expr : Value}
    (h : ∀ l params body, expr.headName? = some "lambda" →
      expr.toList? = some [l, params, body] → False) (env : Env) (rest : List (String × Value)) :
    letrecEnv env ((name, expr) :: rest) = .error (.letrecNotLambda name) := by
  rw [letrecEnv]
  split
  next l params body hh hl => exact absurd hl (h l params body hh)
  next => rfl

theorem letrecEnv_prune {keep : List String} : ∀ {pairs : List (String × Value)} {env env' : Env},
    Keyed.IsSorted env' → Keyed.IsSorted env → Env.AgreeOn (freeInRecRow keep pairs) env' env →
    (∃ e, letrecEnv env' (pairs.map fun p => (p.1, p.2.prune)) = .error e
      ∧ letrecEnv env pairs = .error e) ∨
    (∃ scope' scope, letrecEnv env' (pairs.map fun p => (p.1, p.2.prune)) = .ok scope'
      ∧ letrecEnv env pairs = .ok scope ∧ Keyed.IsSorted scope' ∧ Keyed.IsSorted scope
      ∧ Env.AgreeOn keep scope' scope) := by
  intro pairs
  induction pairs with
  | nil => exact fun hs' hs h => .inr ⟨_, _, rfl, rfl, hs', hs, h⟩
  | cons p rest ih =>
    obtain ⟨name, expr⟩ := p
    intro env env' hs' hs h
    rw [List.map_cons]
    by_cases hlam : ∃ l params body, expr.headName? = some "lambda"
        ∧ expr.toList? = some [l, params, body]
    · obtain ⟨l, params, body, hh, hl⟩ := hlam
      have hh' := (headName?_prune expr).trans hh
      have hl' : expr.prune.toList? = some [l.prune, params.prune, body.prune] := by
        rw [toList?_prune, hl]
        rfl
      cases hp : params.paramNames? with
      | none =>
        have hp' := (paramNames?_prune params).trans hp
        exact .inl ⟨_, letrecEnv_malformed hh' hl' hp' _ _, letrecEnv_malformed hh hl hp _ _⟩
      | some names =>
        have hp' := (paramNames?_prune params).trans hp
        rw [letrecEnv_cons hh' hl' hp', letrecEnv_cons hh hl hp]
        have hfree : freeInFix name names body = expr.freeVariables.filter (· ≠ name) := by
          rw [freeVariables_of_lambda hh hl hp, freeInFix]
        have hfix : (fix name names body.prune env').prune = (fix name names body env).prune := by
          rw [Value.prune, Value.prune_prune, freeInFix_prune, Value.prune,
            Env.AgreeOn.pruneScope_eq (h.mono fun x hx => ?_) hs' hs]
          rw [hfree] at hx
          exact List.mem_append_right _ hx
        refine ih (Keyed.isSorted_insert _ _ hs') (Keyed.isSorted_insert _ _ hs)
          (Env.AgreeOn.bind (h.mono fun x hx => ?_) hfix)
        exact List.mem_append_left _ hx
    · refine .inl ⟨_, letrecEnv_notLambda (fun l params body hh hl => hlam ?_) _ _,
        letrecEnv_notLambda (fun l params body hh hl => hlam ⟨l, params, body, hh, hl⟩) _ _⟩
      rw [toList?_prune] at hl
      obtain ⟨xs, hxs, he⟩ := Option.map_eq_some_iff.1 hl
      obtain ⟨l₀, params₀, body₀, rfl⟩ := List.length_eq_three.1
        ((List.length_map Value.prune).symm.trans (congrArg List.length he))
      exact ⟨l₀, params₀, body₀, (headName?_prune expr).symm.trans hh, hxs⟩

/-- The free variables of an argument of a plain form are free in the form. -/
theorem mem_free_of_arg {name : String} {tail a : Value} {args : List Value}
    (ht : tail.toList? = some args) (ha : a ∈ args) (hq : name ≠ "quote") (hl : name ≠ "lambda")
    (hlet : name ≠ "let") (hrec : name ≠ "letrec") {x : String} (hx : x ∈ a.freeVariables) :
    x ∈ (cons (sym name) tail).freeVariables := by
  rw [freeVariables_form hq hl hlet hrec, freeInItems_of_toList? ht]
  exact List.mem_append_right _ (List.mem_flatMap.2 ⟨a, ha, hx⟩)

/-- The free variables of an application are those of its parts. -/
theorem freeVariables_apply {f : Value} (es : List Value)
    (call : ∀ name, f = .sym name → isKeyword name = false) :
    (cons f (ofList es)).freeVariables = f.freeVariables ++ es.flatMap freeVariables := by
  rw [← freeInItems_of_toList? (toList?_ofList es)]
  cases hs : f.symbolName? with
  | none => exact freeVariables_application hs
  | some name =>
    obtain rfl : f = sym name := by cases f <;> simp_all [symbolName?]
    have hkey := call name rfl
    have hspecial := (isKeyword_eq_false.1 hkey).1
    rw [freeVariables_form, freeVariables, hkey]
    · simp
    all_goals
      rintro rfl
      exact hspecial (by decide)

/-! ## Forms -/

/-- The machine starts on a form as it does on its pruned form, in an environment of the free
variables alone. -/
def StartsAlike (form head : Value) (args : List Value) (env : Env) (stack : Stack) : Prop :=
  pruneOutcome (evalForm form.prune head.prune (args.map Value.prune)
      (pruneScope form.freeVariables env) (stack.map Pending.prune))
    = pruneOutcome (evalForm form head args env stack)

theorem malformed_prune (form : String) (v : Value) :
    pruneOutcome (.error (.malformed form v.prune)) = pruneOutcome (.error (.malformed form v)) :=
  congrArg (fun v => Except.error (Fault.malformed form v)) (Value.prune_prune v)

theorem returns_prune {v v' : Value} (h : v'.prune = v.prune) (stack : Stack) :
    pruneOutcome (.ok (.ret v' (stack.map Pending.prune))) = pruneOutcome (.ok (.ret v stack)) := by
  rw [pruneOutcome, State.prune, h, map_pending_prune_prune, pruneOutcome, State.prune]

theorem map_prune_push {p p' : Pending} (h : p'.prune = p.prune) (stack : Stack) :
    (p' :: stack.map Pending.prune).map Pending.prune = (p :: stack).map Pending.prune := by
  rw [List.map_cons, List.map_cons, h, map_pending_prune_prune]

section

variable {head tail : Value} {args : List Value} {env : Env} {stack : Stack}

theorem startsAlike_quote : StartsAlike (cons (sym "quote") tail) head args env stack := by
  rcases args with _ | ⟨v, _ | ⟨_, _⟩⟩
  · rfl
  · exact returns_prune (Value.prune_prune v) stack
  · rfl

theorem startsAlike_lambda (ht : tail.toList? = some args) (he : Keyed.IsSorted env) :
    StartsAlike (cons (sym "lambda") tail) head args env stack := by
  rcases args with _ | ⟨params, _ | ⟨body, _ | ⟨_, _⟩⟩⟩
  · exact malformed_prune "lambda" _
  · exact malformed_prune "lambda" _
  · have hhead : (cons (sym "lambda") tail).headName? = some "lambda" := rfl
    simp only [StartsAlike, evalForm, headName?_prune, hhead, List.map_cons, List.map_nil,
      paramNames?_prune]
    cases hp : params.paramNames? with
    | none => exact malformed_prune "lambda" _
    | some names =>
      refine returns_prune ?_ stack
      rw [Value.prune, Value.prune_prune, freeInFunction_prune, Value.prune]
      refine congrArg _ (Env.AgreeOn.pruneScope_eq (Env.agreeOn_pruneScope env fun x hx => ?_)
        (isSorted_pruneScope _ he) he)
      rwa [freeVariables_lambda ht hp]
  · exact malformed_prune "lambda" _

theorem bindState_prune {pairs : List (String × Value)} {body : Value} {env' : Env}
    (h : Env.AgreeOn (freeInRow body.freeVariables pairs) env' env) (he' : Keyed.IsSorted env')
    (he : Keyed.IsSorted env) :
    (bindState env' body.prune (stack.map Pending.prune)
        (pairs.map fun p => (p.1, p.2.prune))).prune
      = (bindState env body stack pairs).prune := by
  cases pairs with
  | nil => exact prune_eval h he' he (map_pending_prune_prune stack)
  | cons p rest =>
    refine prune_eval (h.mono fun x hx => ?_) he' he
      (map_prune_push (prune_bind (h.mono fun x hx => ?_) he' he) stack)
    · exact List.mem_append_right _ hx
    · exact List.mem_append_left _ hx

theorem startsAlike_let (ht : tail.toList? = some args) (he : Keyed.IsSorted env) :
    StartsAlike (cons (sym "let") tail) head args env stack := by
  rcases args with _ | ⟨bindings, _ | ⟨body, _ | ⟨_, _⟩⟩⟩
  · exact malformed_prune "let" _
  · exact malformed_prune "let" _
  · have hhead : (cons (sym "let") tail).headName? = some "let" := rfl
    cases hb : bindings.bindingPairs? with
    | none =>
      simp only [StartsAlike, evalForm, headName?_prune, hhead, List.map_cons, List.map_nil,
        bindingPairs?_prune, hb]
      exact malformed_prune "let" _
    | some pairs =>
      have hfree := (freeVariables_let ht hb).trans (freeInBindings_false hb)
      rw [StartsAlike, List.map_cons, List.map_cons, List.map_nil, evalForm_let body hhead hb,
        evalForm_let body.prune ((headName?_prune _).trans hhead)
          ((bindingPairs?_prune bindings).trans (congrArg _ hb))]
      exact congrArg Except.ok (bindState_prune
        (Env.agreeOn_pruneScope env fun x hx => hfree ▸ hx) (isSorted_pruneScope _ he) he)
  · exact malformed_prune "let" _

theorem startsAlike_letrec (ht : tail.toList? = some args) (he : Keyed.IsSorted env) :
    StartsAlike (cons (sym "letrec") tail) head args env stack := by
  rcases args with _ | ⟨bindings, _ | ⟨body, _ | ⟨_, _⟩⟩⟩
  · exact malformed_prune "letrec" _
  · exact malformed_prune "letrec" _
  · have hhead : (cons (sym "letrec") tail).headName? = some "letrec" := rfl
    simp only [StartsAlike, evalForm, headName?_prune, hhead, List.map_cons, List.map_nil,
      bindingPairs?_prune]
    cases hb : bindings.bindingPairs? with
    | none => exact malformed_prune "letrec" _
    | some pairs =>
      have hfree := (freeVariables_letrec ht hb).trans (freeInBindings_true hb)
      simp only [Option.map_some]
      rcases letrecEnv_prune (isSorted_pruneScope _ he) he
          (Env.agreeOn_pruneScope env fun x hx => hfree ▸ hx) with
        ⟨e, h', h⟩ | ⟨scope', scope, h', h, hs', hs, hagree⟩
      · rw [h', h]
        rfl
      · rw [h', h]
        exact congrArg Except.ok (prune_eval hagree hs' hs (map_pending_prune_prune stack))
  · exact malformed_prune "letrec" _

theorem startsAlike_if (ht : tail.toList? = some args) (he : Keyed.IsSorted env) :
    StartsAlike (cons (sym "if") tail) head args env stack := by
  have he' := isSorted_pruneScope (cons (sym "if") tail).freeVariables he
  have free : ∀ {a}, a ∈ args →
      ∀ x ∈ a.freeVariables, x ∈ (cons (sym "if") tail).freeVariables :=
    fun ha x hx => mem_free_of_arg ht ha (by decide) (by decide) (by decide) (by decide) hx
  rcases args with _ | ⟨test, _ | ⟨thenExpr, _ | ⟨elseExpr, _ | ⟨_, _⟩⟩⟩⟩
  · exact malformed_prune "if" _
  · exact malformed_prune "if" _
  · refine congrArg Except.ok (prune_eval (Env.agreeOn_pruneScope env (free (by simp))) he' he
      (map_prune_push (prune_branch thenExpr nil
        (Env.agreeOn_pruneScope env fun x hx => ?_) he' he) stack))
    exact free (by simp) x ((List.mem_append.1 hx).resolve_right List.not_mem_nil)
  · refine congrArg Except.ok (prune_eval (Env.agreeOn_pruneScope env (free (by simp))) he' he
      (map_prune_push (prune_branch thenExpr elseExpr
        (Env.agreeOn_pruneScope env fun x hx => ?_) he' he) stack))
    exact (List.mem_append.1 hx).elim (free (by simp) x) (free (by simp) x)
  · exact malformed_prune "if" _

theorem startsAlike_begin (ht : tail.toList? = some args) (he : Keyed.IsSorted env) :
    StartsAlike (cons (sym "begin") tail) head args env stack := by
  have he' := isSorted_pruneScope (cons (sym "begin") tail).freeVariables he
  have free : ∀ {a}, a ∈ args →
      ∀ x ∈ a.freeVariables, x ∈ (cons (sym "begin") tail).freeVariables :=
    fun ha x hx => mem_free_of_arg ht ha (by decide) (by decide) (by decide) (by decide) hx
  rcases args with _ | ⟨expr, _ | ⟨next, rest⟩⟩
  · exact returns_prune rfl stack
  · exact congrArg Except.ok (prune_eval (Env.agreeOn_pruneScope env (free (by simp))) he' he
      (map_pending_prune_prune stack))
  · refine congrArg Except.ok (prune_eval (Env.agreeOn_pruneScope env (free (by simp))) he' he
      (map_prune_push (prune_sequence (next :: rest)
        (Env.agreeOn_pruneScope env fun x hx => ?_) he' he) stack))
    obtain ⟨a, ha, hx⟩ := List.mem_flatMap.1 hx
    exact free (List.mem_cons_of_mem _ ha) x hx

theorem startsAlike_delay (ht : tail.toList? = some args) (he : Keyed.IsSorted env) :
    StartsAlike (cons (sym "delay") tail) head args env stack := by
  rcases args with _ | ⟨expr, _ | ⟨_, _⟩⟩
  · rfl
  · refine returns_prune ?_ stack
    rw [Value.prune, Value.prune_prune, freeVariables_prune, Value.prune]
    refine congrArg _ (Env.AgreeOn.pruneScope_eq (Env.agreeOn_pruneScope env fun x hx => ?_)
      (isSorted_pruneScope _ he) he)
    exact mem_free_of_arg ht (by simp) (by decide) (by decide) (by decide) (by decide) hx
  · rfl

theorem startsAlike_builtin {b : Builtin} (ht : tail.toList? = some args)
    (he : Keyed.IsSorted env) : StartsAlike (cons (sym b.name) tail) head args env stack := by
  have other : ∀ {name}, name ∈ specialForms → b.name ≠ name :=
    fun hn h => name_not_mem_specialForms b (h ▸ hn)
  cases args with
  | nil => cases b <;> rfl
  | cons first rest =>
    have free : ∀ {a}, a ∈ first :: rest →
        ∀ x ∈ a.freeVariables, x ∈ (cons (sym b.name) tail).freeVariables :=
      fun ha x hx => mem_free_of_arg ht ha (other (by decide)) (other (by decide))
        (other (by decide)) (other (by decide)) hx
    have hhead : (cons (sym b.name) tail).headName? = some b.name := rfl
    rw [StartsAlike, List.map_cons, evalForm_builtin hhead,
      evalForm_builtin ((headName?_prune _).trans hhead), List.length_cons, List.length_map,
      List.length_cons]
    by_cases arity : rest.length + 1 = b.arity
    · have he' := isSorted_pruneScope (cons (sym b.name) tail).freeVariables he
      rw [if_pos arity, if_pos arity]
      refine congrArg Except.ok (prune_eval
        (Env.agreeOn_pruneScope env (free List.mem_cons_self)) he' he
        (map_prune_push (prune_operands (Env.agreeOn_pruneScope env fun x hx => ?_) he' he rfl)
          stack))
      obtain ⟨a, ha, hx⟩ := List.mem_flatMap.1 hx
      exact free (List.mem_cons_of_mem _ ha) x hx
    · rw [if_neg arity, if_neg arity]

theorem startsAlike_apply (ht : tail.toList? = some args) (he : Keyed.IsSorted env)
    (call : ∀ name, head = sym name → isKeyword name = false) :
    StartsAlike (cons head tail) head args env stack := by
  have he' := isSorted_pruneScope (cons head tail).freeVariables he
  have hfree : (cons head tail).freeVariables
      = head.freeVariables ++ args.flatMap freeVariables := by
    rw [eq_ofList_of_toList? ht, freeVariables_apply args call]
  have call' : ∀ name, head.prune = sym name → isKeyword name = false := by
    cases head with
    | sym => exact call
    | _ => simp [Value.prune]
  rw [StartsAlike, evalForm_apply call, Value.prune, evalForm_apply call']
  refine congrArg Except.ok (prune_eval (Env.agreeOn_pruneScope env fun x hx => ?_) he' he
    (map_prune_push (prune_operands (Env.agreeOn_pruneScope env fun x hx => ?_) he' he rfl) stack))
  · rw [hfree]
    exact List.mem_append_left _ hx
  · rw [hfree]
    exact List.mem_append_right _ hx

theorem startsAlike (ht : tail.toList? = some args) (he : Keyed.IsSorted env) :
    StartsAlike (cons head tail) head args env stack := by
  by_cases call : ∀ name, head = sym name → isKeyword name = false
  · exact startsAlike_apply ht he call
  · obtain ⟨name, rfl, hkey⟩ : ∃ name, head = sym name ∧ isKeyword name = true := by
      simpa using call
    rw [isKeyword, Bool.or_eq_true, Option.isSome_iff_exists] at hkey
    rcases hkey with hspecial | ⟨b, hb⟩
    · have hmem : name ∈ specialForms := List.contains_iff_mem.1 hspecial
      simp only [specialForms, List.mem_cons, List.not_mem_nil, or_false] at hmem
      rcases hmem with rfl | rfl | rfl | rfl | rfl | rfl | rfl
      · exact startsAlike_quote
      · exact startsAlike_lambda ht he
      · exact startsAlike_let ht he
      · exact startsAlike_letrec ht he
      · exact startsAlike_if ht he
      · exact startsAlike_begin ht he
      · exact startsAlike_delay ht he
    · obtain rfl := ofName?_eq_some.1 hb
      exact startsAlike_builtin ht he

end

theorem evalExpr_prune {expr : Value} {env : Env} {stack : Stack} (he : env.Regular)
    (hn : expr ≠ sym "nil") :
    pruneOutcome (evalExpr expr.prune (pruneScope expr.freeVariables env)
        (stack.map Pending.prune))
      = pruneOutcome (evalExpr expr env stack) := by
  cases expr with
  | sym name =>
    simp only [evalExpr, Value.prune]
    split
    next => exact congrArg (fun k => Except.ok (State.ret .t k)) (map_pending_prune_prune stack)
    next ht =>
      have hself : ¬selfEvaluating.contains name := by
        simpa [selfEvaluating, ht] using fun h => hn (congrArg sym h)
      have hfree : (sym name).freeVariables = [name] := by rw [freeVariables, if_neg hself]
      rw [hfree, Env.lookup, find?_pruneScope, if_pos (by simp), Env.lookup]
      cases hv : Keyed.find? name env with
      | none => rfl
      | some v =>
        simp only [Option.map_some, pruneOutcome, State.prune, close_prune (he.lookup hv),
          map_pending_prune_prune]
  | cons head tail =>
    simp only [evalExpr, Value.prune, toList?_prune]
    cases ht : tail.toList? with
    | none =>
      exact congrArg (fun v => Except.error (Fault.improperForm v))
        (Value.prune_prune (cons head tail))
    | some args => exact startsAlike ht he.1
  | num n =>
    exact congrArg (fun k => Except.ok (State.ret (num n) k)) (map_pending_prune_prune stack)
  | str s =>
    exact congrArg (fun k => Except.ok (State.ret (str s) k)) (map_pending_prune_prune stack)
  | nil => exact congrArg (fun k => Except.ok (State.ret nil k)) (map_pending_prune_prune stack)
  | closure params body env' =>
    exact congrArg (fun v => Except.error (Fault.notAnExpression v))
      (Value.prune_prune (closure params body env'))
  | fix name params body env' =>
    exact congrArg (fun v => Except.error (Fault.notAnExpression v))
      (Value.prune_prune (fix name params body env'))
  | thunk x env' =>
    exact congrArg (fun v => Except.error (Fault.notAnExpression v))
      (Value.prune_prune (thunk x env'))

theorem pruneNext_map {r r' : Except Fault State} (family : Family)
    (h : pruneOutcome r = pruneOutcome r') :
    pruneNext (r.map fun s => (s, family)) = pruneNext (r'.map fun s => (s, family)) := by
  cases r <;> cases r' <;> simp_all [pruneOutcome, pruneNext, Except.map]

theorem pruneNext_value {r r' : Except Fault Value} {stack stack' : Stack} (family : Family)
    (h : pruneValue r = pruneValue r') (hk : stack.map Pending.prune = stack'.map Pending.prune) :
    pruneNext (r.map fun v => (State.ret v stack, family))
      = pruneNext (r'.map fun v => (State.ret v stack', family)) := by
  cases r <;> cases r' <;> simp_all [pruneValue, pruneNext, Except.map, State.prune]

theorem operate_builtin {b : Builtin} {done : List Value}
    (h : b = .force → ∀ v, done ≠ [v]) (stack : Stack) :
    operate (some b) done stack = (applyBuiltin b done).map fun v => (.ret v stack, b.family) := by
  unfold operate
  split
  case h_1 h1 => exact absurd h1 (by simp)
  case h_2 h1 => exact absurd h1 (by simp)
  case h_3 h1 => exact absurd rfl (h (Option.some.inj h1) _)
  case h_4 h1 => exact absurd rfl (h (Option.some.inj h1) _)
  case h_5 h1 _ _ => rw [Option.some.inj h1]

theorem operate_prune {target : Option Builtin} {done : List Value} {stack : Stack}
    (hd : ∀ v ∈ done, v.Regular) (ht : target = some .same → ∀ u v, done ≠ [u, v]) :
    pruneNext (operate target (done.map Value.prune) (stack.map Pending.prune))
      = pruneNext (operate target done stack) := by
  have hk := map_pending_prune_prune stack
  cases target with
  | none =>
    cases done with
    | nil => rfl
    | cons fn args =>
      exact pruneNext_map _ (applyFunction_prune (hd fn List.mem_cons_self) args stack)
  | some b =>
    by_cases hforce : b = .force ∧ ∃ v, done = [v]
    · obtain ⟨rfl, v, rfl⟩ := hforce
      cases v with
      | thunk expr env =>
        have he := (regular_thunk.1 (hd _ List.mem_cons_self)).2.1
        exact congrArg (fun s => Except.ok (s, Family.core)) (prune_eval (x := expr)
          (Env.agreeOn_pruneScope env fun _ hn => hn) (isSorted_pruneScope _ he) he hk)
      | _ => exact congrArg (fun s => Except.ok (s, Family.core)) (State.prune_prune (.ret _ stack))
    · have h1 : b = .force → ∀ v, done ≠ [v] := fun hb v hv => hforce ⟨hb, v, hv⟩
      have h2 : b = .force → ∀ v, done.map Value.prune ≠ [v] := by
        intro hb v hv
        obtain ⟨w, rest, rfl, _, hr⟩ := List.map_eq_cons_iff.1 hv
        exact h1 hb w (by rw [List.map_eq_nil_iff.1 hr])
      rw [operate_builtin h1, operate_builtin h2]
      exact pruneNext_value _ (applyBuiltin_prune fun hb => ht (congrArg some hb)) hk

theorem resume_prune {value : Value} {stack : Stack} (hv : value.Regular)
    (hs : ∀ p ∈ stack, p.Regular)
    (hc : ∀ u env rest, stack ≠ .operands (some .same) [] [u] env :: rest) :
    pruneNext (resume value.prune (stack.map Pending.prune)) = pruneNext (resume value stack) := by
  cases stack with
  | nil => exact congrArg (fun s => Except.ok (s, Family.core)) (State.prune_prune (.halt value))
  | cons p rest =>
    obtain ⟨hp, hr⟩ := List.forall_mem_cons.1 hs
    have hk := map_pending_prune_prune rest
    have core : ∀ {s s' : State}, s.prune = s'.prune →
        pruneNext (.ok (s, .core)) = pruneNext (.ok (s', .core)) :=
      fun h => congrArg (fun s => Except.ok (s, Family.core)) h
    have push : ∀ {p' p : Pending}, p'.prune = p.prune →
        (p' :: rest.map Pending.prune).map Pending.prune = (p :: rest).map Pending.prune :=
      fun h => map_prune_push h rest
    cases p with
    | operands target waiting done env =>
      obtain ⟨_, hd, he⟩ := hp
      have hdone : done.map Value.prune ++ [value.prune] = (done ++ [value]).map Value.prune := by
        rw [List.map_append, List.map_cons, List.map_nil]
      cases waiting with
      | nil =>
        rw [List.map_cons, Pending.prune, List.map_nil, resume, resume, hdone]
        refine operate_prune (List.forall_mem_append.2 ⟨hd, by simpa using hv⟩) fun ht u v he => ?_
        have h1 := List.append_inj_left' (show done ++ [value] = [u] ++ [v] from he) rfl
        exact hc u env rest (by rw [ht, h1])
      | cons expr waiting =>
        have he' := isSorted_pruneScope ((expr :: waiting).flatMap freeVariables) he.1
        have agree : ∀ {v}, v ∈ expr :: waiting → Env.AgreeOn v.freeVariables
            (pruneScope ((expr :: waiting).flatMap freeVariables) env) env :=
          fun hm => Env.agreeOn_pruneScope env fun x hx => List.mem_flatMap.2 ⟨_, hm, hx⟩
        refine core (prune_eval (agree List.mem_cons_self) he' he.1 (push (prune_operands
          (Env.agreeOn_pruneScope env fun x hx => ?_) he' he.1 ?_)))
        · obtain ⟨v, hm, hx⟩ := List.mem_flatMap.1 hx
          exact List.mem_flatMap.2 ⟨v, List.mem_cons_of_mem _ hm, hx⟩
        · rw [hdone, map_prune_prune]
    | branch thenExpr elseExpr env =>
      obtain ⟨_, _, he⟩ := hp
      rw [List.map_cons, Pending.prune, resume, resume, truthy_prune, ← apply_ite Value.prune]
      refine core (prune_eval (Env.agreeOn_pruneScope env fun x hx => ?_)
        (isSorted_pruneScope _ he.1) he.1 hk)
      split at hx
      · exact List.mem_append_left _ hx
      · exact List.mem_append_right _ hx
    | bind name waiting body env =>
      obtain ⟨_, _, _, he⟩ := hp
      have hb : Env.AgreeOn (freeInRow body.freeVariables waiting) (Env.bind _ name value.prune)
          (env.bind name value) :=
        Env.AgreeOn.bind (Env.agreeOn_pruneScope env fun x hx => hx) (Value.prune_prune value)
      have hsort' := Keyed.isSorted_insert name value.prune (isSorted_pruneScope
        ((freeInRow body.freeVariables waiting).filter (· ≠ name)) he.1)
      have hsort := Keyed.isSorted_insert name value he.1
      cases waiting with
      | nil => exact core (prune_eval hb hsort' hsort hk)
      | cons q waiting =>
        obtain ⟨next, expr⟩ := q
        refine core (prune_eval (hb.mono fun x hx => ?_) hsort' hsort
          (push (prune_bind (hb.mono fun x hx => ?_) hsort' hsort)))
        · exact List.mem_append_right _ hx
        · exact List.mem_append_left _ hx
    | sequence waiting env =>
      obtain ⟨_, he⟩ := hp
      have agree : ∀ {v}, v ∈ waiting → Env.AgreeOn v.freeVariables
          (pruneScope (waiting.flatMap freeVariables) env) env :=
        fun hm => Env.agreeOn_pruneScope env fun x hx => List.mem_flatMap.2 ⟨_, hm, hx⟩
      have he' := isSorted_pruneScope (waiting.flatMap freeVariables) he.1
      rcases waiting with _ | ⟨expr, _ | ⟨next, waiting⟩⟩
      · rfl
      · exact core (prune_eval (agree List.mem_cons_self) he' he.1 hk)
      · refine core (prune_eval (agree List.mem_cons_self) he' he.1 (push (prune_sequence
          (next :: waiting) (Env.agreeOn_pruneScope env fun x hx => ?_) he' he.1)))
        obtain ⟨v, hm, hx⟩ := List.mem_flatMap.1 hx
        exact List.mem_flatMap.2 ⟨v, List.mem_cons_of_mem _ hm, hx⟩

/-- A state that neither compares two values nor looks up `nil` goes on like its pruned form. -/
theorem State.step_prune {s : State} (hs : s.Regular)
    (hc : ∀ v u env rest, s ≠ .ret v (.operands (some .same) [] [u] env :: rest))
    (hn : ∀ env stack, s ≠ .eval (sym "nil") env stack) :
    pruneNext s.prune.step = pruneNext s.step := by
  cases s with
  | eval expr env stack =>
    exact pruneNext_map _ (evalExpr_prune hs.2.1 fun h => hn env stack (congrArg (eval · _ _) h))
  | ret value stack =>
    exact resume_prune hs.1 hs.2 fun u env rest h => hc value u env rest (h ▸ rfl)
  | call fn args ref => exact pruneNext_map _ (applyFunction_prune hs.1 args [])
  | halt value => rfl

end CommitChain.Machine
