import CommitChain.Proofs.Language.FreeVariables
import CommitChain.Proofs.Machine.Regular
import CommitChain.Proofs.Value.Pruned

/-!
# The pruned form of a state

`State.prune` keeps of each environment what the code beside it can read, at every depth.  Two
states with one pruned form have the same encoding (`State.encode_eq_of_prune_eq`), and the lemmas
of the last section say when states that are put together from parts have one pruned form.
-/

namespace CommitChain.Machine

open CommitChain.Value

def Pending.prune : Pending → Pending
  | operands target waiting done env =>
    operands target (waiting.map Value.prune) (done.map Value.prune)
      (pruneScope (waiting.flatMap freeVariables) env)
  | branch thenExpr elseExpr env =>
    branch thenExpr.prune elseExpr.prune
      (pruneScope (thenExpr.freeVariables ++ elseExpr.freeVariables) env)
  | bind name waiting body env =>
    bind name (waiting.map fun p => (p.1, p.2.prune)) body.prune
      (pruneScope ((freeInRow body.freeVariables waiting).filter (· ≠ name)) env)
  | sequence waiting env =>
    sequence (waiting.map Value.prune) (pruneScope (waiting.flatMap freeVariables) env)

def State.prune : State → State
  | eval expr env stack =>
    eval expr.prune (pruneScope expr.freeVariables env) (stack.map Pending.prune)
  | ret value stack => ret value.prune (stack.map Pending.prune)
  | call fn args ref => call fn.prune (args.map Value.prune) ref
  | halt value => halt value.prune

def Fault.prune : Fault → Fault
  | notAnExpression v => notAnExpression v.prune
  | improperForm v => improperForm v.prune
  | malformed form v => malformed form v.prune
  | notNumber b v => notNumber b v.prune
  | notPair b v => notPair b v.prune
  | notFunction v => notFunction v.prune
  | fault => fault

/-- The outcome of entering a form or a function, in pruned form. -/
def pruneOutcome : Except Fault State → Except Fault State
  | .ok s => .ok s.prune
  | .error e => .error e.prune

/-- The outcome of a builtin, in pruned form. -/
def pruneValue : Except Fault Value → Except Fault Value
  | .ok v => .ok v.prune
  | .error e => .error e.prune

/-- The outcome of a reduction, in pruned form. -/
def pruneNext : Except Fault (State × Family) → Except Fault (State × Family)
  | .ok (s, family) => .ok (s.prune, family)
  | .error e => .error e.prune

/-! ## Pruning twice -/

theorem freeInRow_prune (inner : List String) (waiting : List (String × Value)) :
    freeInRow inner (waiting.map fun p => (p.1, p.2.prune)) = freeInRow inner waiting := by
  induction waiting with
  | nil => rfl
  | cons p rest ih => rw [List.map_cons, freeInRow, ih, freeVariables_prune, freeInRow]

theorem flatMap_freeVariables_prune (vs : List Value) :
    (vs.map Value.prune).flatMap freeVariables = vs.flatMap freeVariables := by
  rw [List.flatMap_map]
  exact List.flatMap_congr fun v _ => freeVariables_prune v

theorem map_prune_prune (vs : List Value) :
    (vs.map Value.prune).map Value.prune = vs.map Value.prune := by
  rw [List.map_map]
  exact List.map_congr_left fun v _ => Value.prune_prune v

theorem map_row_prune_prune (waiting : List (String × Value)) :
    (waiting.map fun p => (p.1, p.2.prune)).map (fun p => (p.1, p.2.prune))
      = waiting.map fun p => (p.1, p.2.prune) := by
  rw [List.map_map]
  exact List.map_congr_left fun p _ => Prod.ext rfl (Value.prune_prune p.2)

theorem Fault.prune_prune (e : Fault) : e.prune.prune = e.prune := by
  cases e <;> simp [Fault.prune, Value.prune_prune]

theorem Pending.prune_prune (p : Pending) : p.prune.prune = p.prune := by
  cases p with
  | operands target waiting done env =>
    simp only [Pending.prune, map_prune_prune, flatMap_freeVariables_prune, pruneScope_pruneScope]
  | branch thenExpr elseExpr env =>
    simp only [Pending.prune, Value.prune_prune, freeVariables_prune, pruneScope_pruneScope]
  | bind name waiting body env =>
    simp only [Pending.prune, Value.prune_prune, map_row_prune_prune, freeInRow_prune,
      freeVariables_prune, pruneScope_pruneScope]
  | sequence waiting env =>
    simp only [Pending.prune, map_prune_prune, flatMap_freeVariables_prune, pruneScope_pruneScope]

theorem map_pending_prune_prune (stack : Stack) :
    (stack.map Pending.prune).map Pending.prune = stack.map Pending.prune := by
  rw [List.map_map]
  exact List.map_congr_left fun p _ => p.prune_prune

theorem State.prune_prune (s : State) : s.prune.prune = s.prune := by
  cases s with
  | eval expr env stack =>
    simp only [State.prune, Value.prune_prune, freeVariables_prune, pruneScope_pruneScope,
      map_pending_prune_prune]
  | ret value stack => simp only [State.prune, Value.prune_prune, map_pending_prune_prune]
  | call fn args ref => simp only [State.prune, Value.prune_prune, map_prune_prune]
  | halt value => simp only [State.prune, Value.prune_prune]

/-! ## Encodings -/

theorem encodeAll_prune (vs : List Value) : encodeAll (vs.map Value.prune) = encodeAll vs := by
  rw [encodeAll, List.map_map, encodeAll]
  exact congrArg Json.arr (List.map_congr_left fun v _ => encode_prune v)

theorem encodeScope_prune (keep : List String) (env : Env) :
    encodeScope keep (pruneScope keep env) = encodeScope keep env :=
  congrArg Json.obj (scopeParts_pruneScope keep env)

theorem Pending.encode_prune (p : Pending) : p.prune.encode = p.encode := by
  cases p with
  | operands target waiting done env =>
    simp only [Pending.prune, Pending.encode, encodeAll_prune, flatMap_freeVariables_prune,
      encodeScope_prune]
  | branch thenExpr elseExpr env =>
    simp only [Pending.prune, Pending.encode, Value.encode_prune, freeVariables_prune,
      encodeScope_prune]
  | bind name waiting body env =>
    have hw : (waiting.map fun p => (p.1, p.2.prune)).map (fun p => Json.arr [.str p.1, p.2.encode])
        = waiting.map fun p => Json.arr [.str p.1, p.2.encode] := by
      rw [List.map_map]
      exact List.map_congr_left fun p _ => by rw [Function.comp, Value.encode_prune]
    simp only [Pending.prune, Pending.encode, hw, Value.encode_prune, freeVariables_prune,
      freeInRow_prune, encodeScope_prune]
  | sequence waiting env =>
    simp only [Pending.prune, Pending.encode, encodeAll_prune, flatMap_freeVariables_prune,
      encodeScope_prune]

theorem State.encode_prune (s : State) : s.prune.encode = s.encode := by
  have stack : ∀ k : Stack, (k.map Pending.prune).map Pending.encode = k.map Pending.encode := by
    intro k
    rw [List.map_map]
    exact List.map_congr_left fun p _ => p.encode_prune
  cases s with
  | eval expr env k =>
    simp only [State.prune, State.encode, stack, Value.encode_prune, freeVariables_prune,
      encodeScope_prune]
  | ret value k => simp only [State.prune, State.encode, stack, Value.encode_prune]
  | call fn args ref =>
    rw [State.prune, State.encode, List.map_map, State.encode]
    exact congrArg (callState ref) (List.map_congr_left fun v _ => Value.encode_prune v)
  | halt value => rw [State.prune, State.encode, Value.encode_prune, State.encode]

theorem State.encode_eq_of_prune_eq {s s' : State} (h : s.prune = s'.prune) :
    s.encode = s'.encode := by
  rw [← s.encode_prune, h, s'.encode_prune]

/-! ## States of one pruned form

Each lemma is about code that is pruned and code that is not, in environments that agree. -/

section

variable {env env' : Env} {stack stack' : Stack}

theorem prune_eval {x : Value} (h : Env.AgreeOn x.freeVariables env' env)
    (hs' : Keyed.IsSorted env') (hs : Keyed.IsSorted env)
    (hk : stack'.map Pending.prune = stack.map Pending.prune) :
    (State.eval x.prune env' stack').prune = (State.eval x env stack).prune := by
  rw [State.prune, Value.prune_prune, freeVariables_prune, h.pruneScope_eq hs' hs, hk, State.prune]

theorem prune_operands {target : Option Builtin} {waiting done done' : List Value}
    (h : Env.AgreeOn (waiting.flatMap freeVariables) env' env)
    (hs' : Keyed.IsSorted env') (hs : Keyed.IsSorted env)
    (hd : done'.map Value.prune = done.map Value.prune) :
    (Pending.operands target (waiting.map Value.prune) done' env').prune
      = (Pending.operands target waiting done env).prune := by
  rw [Pending.prune, map_prune_prune, flatMap_freeVariables_prune, h.pruneScope_eq hs' hs, hd,
    Pending.prune]

theorem prune_branch (thenExpr elseExpr : Value)
    (h : Env.AgreeOn (thenExpr.freeVariables ++ elseExpr.freeVariables) env' env)
    (hs' : Keyed.IsSorted env') (hs : Keyed.IsSorted env) :
    (Pending.branch thenExpr.prune elseExpr.prune env').prune
      = (Pending.branch thenExpr elseExpr env).prune := by
  rw [Pending.prune, Value.prune_prune, Value.prune_prune, freeVariables_prune,
    freeVariables_prune, h.pruneScope_eq hs' hs, Pending.prune]

theorem prune_bind {name : String} {waiting : List (String × Value)} {body : Value}
    (h : Env.AgreeOn ((freeInRow body.freeVariables waiting).filter (· ≠ name)) env' env)
    (hs' : Keyed.IsSorted env') (hs : Keyed.IsSorted env) :
    (Pending.bind name (waiting.map fun p => (p.1, p.2.prune)) body.prune env').prune
      = (Pending.bind name waiting body env).prune := by
  rw [Pending.prune, map_row_prune_prune, Value.prune_prune, freeVariables_prune, freeInRow_prune,
    h.pruneScope_eq hs' hs, Pending.prune]

theorem prune_sequence (waiting : List Value)
    (h : Env.AgreeOn (waiting.flatMap freeVariables) env' env)
    (hs' : Keyed.IsSorted env') (hs : Keyed.IsSorted env) :
    (Pending.sequence (waiting.map Value.prune) env').prune
      = (Pending.sequence waiting env).prune := by
  rw [Pending.prune, map_prune_prune, flatMap_freeVariables_prune, h.pruneScope_eq hs' hs,
    Pending.prune]

end

end CommitChain.Machine
