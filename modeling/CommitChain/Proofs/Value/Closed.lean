import CommitChain.Proofs.Language.Source
import CommitChain.Proofs.Value.Decoding

/-!
# Closed values

A function or a suspended computation is *closed* if its code is source and its environment binds
every free variable of the code to a closed value; a value is closed if all functions and suspended
computations in it are.  An environment *scopes* some names if it binds them and all its values are
closed.

Pruning leaves a value closed (`Closed.prune`): a function is pruned of what its code does not refer
to.  So a closed function is closed after it was written and read back.
-/

namespace CommitChain

namespace Value

mutual

/-- All code in the value finds its free variables bound. -/
def Closed : Value → Prop
  | num _ | sym _ | str _ | nil => True
  | cons a b => Closed a ∧ Closed b
  | closure params body env =>
    body.IsSource ∧ (∀ x ∈ freeInFunction params body, (Keyed.find? x env).isSome)
      ∧ ClosedBindings env
  | fix name params body env =>
    body.IsSource ∧ (∀ x ∈ freeInFix name params body, (Keyed.find? x env).isSome)
      ∧ ClosedBindings env
  | thunk expr env =>
    expr.IsSource ∧ (∀ x ∈ freeVariables expr, (Keyed.find? x env).isSome) ∧ ClosedBindings env

/-- Bindings to closed values. -/
def ClosedBindings : List (String × Value) → Prop
  | [] => True
  | (_, v) :: env => Closed v ∧ ClosedBindings env

end

theorem closedBindings_iff {env : List (String × Value)} :
    ClosedBindings env ↔ ∀ p ∈ env, p.2.Closed := by
  induction env with
  | nil => simp [ClosedBindings]
  | cons p r ih => rw [ClosedBindings, ih, List.forall_mem_cons]

theorem IsSource.closed : ∀ {v : Value}, v.IsSource → v.Closed
  | num _, _ | sym _, _ | str _, _ | nil, _ => trivial
  | cons _ _, h => ⟨h.1.closed, h.2.closed⟩

theorem closed_ofBool (b : Bool) : (ofBool b).Closed := by
  cases b <;> trivial

end Value

/-! ## Environments -/

namespace Env

/-- The environment binds the names, and all it binds is closed. -/
def Scopes (env : Env) (names : List String) : Prop :=
  (∀ x ∈ names, (env.lookup x).isSome) ∧ ∀ p ∈ env, p.2.Closed

variable {env : Env} {names : List String}

theorem Scopes.mono {names' : List String} (h : env.Scopes names) (hn : ∀ x ∈ names', x ∈ names) :
    env.Scopes names' :=
  ⟨fun x hx => h.1 x (hn x hx), h.2⟩

theorem Scopes.lookup (h : env.Scopes names) {name : String} {v : Value}
    (hv : env.lookup name = some v) : v.Closed :=
  h.2 _ (Keyed.mem_of_find? hv)

/-- A name that is bound need not have been bound before. -/
theorem Scopes.bind {name : String} {v : Value} (h : env.Scopes (names.filter (· ≠ name)))
    (hv : v.Closed) : (env.bind name v).Scopes names := by
  constructor
  · intro x hx
    rw [Env.lookup, Env.bind, Keyed.find?_insert]
    by_cases he : name = x
    · rw [if_pos he]
      rfl
    · rw [if_neg he]
      exact h.1 x (List.mem_filter.2 ⟨hx, by simpa using Ne.symm he⟩)
  · intro p hp
    rcases Keyed.mem_insert hp with rfl | hp
    · exact hv
    · exact h.2 p hp

theorem Scopes.bindAll {params : List String} {args : List Value}
    (hl : args.length = params.length) (ha : ∀ v ∈ args, v.Closed) :
    ∀ {names : List String} {env : Env}, env.Scopes (names.filter fun x => !params.contains x) →
      (env.bindAll (params.zip args)).Scopes names := by
  induction params generalizing args with
  | nil =>
    intro names env h
    exact h.mono fun x hx => List.mem_filter.2 ⟨hx, rfl⟩
  | cons p params ih =>
    intro names env h
    cases args with
    | nil => exact absurd hl (by simp)
    | cons a args =>
      obtain ⟨hfirst, hrest⟩ := List.forall_mem_cons.1 ha
      refine ih (Nat.succ.inj hl) hrest (Scopes.bind (h.mono fun x hx => ?_) hfirst)
      simp only [List.mem_filter, List.contains_eq_mem, List.mem_cons] at hx ⊢
      simp_all

end Env

namespace Value

theorem closed_closure {params : List String} {body : Value} {env : Env} :
    (closure params body env).Closed
      ↔ body.IsSource ∧ env.Scopes (freeInFunction params body) := by
  rw [Closed, closedBindings_iff]
  rfl

theorem closed_fix {name : String} {params : List String} {body : Value} {env : Env} :
    (fix name params body env).Closed
      ↔ body.IsSource ∧ env.Scopes (freeInFix name params body) := by
  rw [Closed, closedBindings_iff]
  rfl

theorem closed_thunk {expr : Value} {env : Env} :
    (thunk expr env).Closed ↔ expr.IsSource ∧ env.Scopes expr.freeVariables := by
  rw [Closed, closedBindings_iff]
  rfl

/-- A function that knows itself captures its own name besides. -/
theorem Closed.close {v : Value} (h : v.Closed) : v.close.Closed := by
  cases v with
  | fix name params body env =>
    obtain ⟨hbody, henv⟩ := closed_fix.1 h
    exact closed_closure.2 ⟨hbody, henv.bind h⟩
  | _ => exact h

/-! ## Pruning -/

theorem scopes_pruneScope {env : Env} {names : List String} (h : env.Scopes names)
    (hp : ∀ p ∈ env, p.2.Closed → p.2.prune.Closed) :
    Env.Scopes (pruneScope names env) names := by
  constructor
  · intro x hx
    rw [Env.lookup, find?_pruneScope, if_pos (List.contains_iff_mem.2 hx), Option.isSome_map]
    exact h.1 x hx
  · intro q hq
    obtain ⟨p, hm, _, hvalue⟩ := mem_pruneScope hq
    exact hvalue ▸ hp p hm (h.2 p hm)

theorem Closed.prune {v : Value} (h : v.Closed) : v.prune.Closed := by
  induction v using value_induction with
  | cons a b iha ihb => exact ⟨iha h.1, ihb h.2⟩
  | closure params body env ihb ihe =>
    obtain ⟨hbody, henv⟩ := closed_closure.1 h
    rw [Value.prune, hbody.prune_eq]
    exact closed_closure.2 ⟨hbody, scopes_pruneScope henv ihe⟩
  | fix name params body env ihb ihe =>
    obtain ⟨hbody, henv⟩ := closed_fix.1 h
    rw [Value.prune, hbody.prune_eq]
    exact closed_fix.2 ⟨hbody, scopes_pruneScope henv ihe⟩
  | thunk expr env ihb ihe =>
    obtain ⟨hexpr, henv⟩ := closed_thunk.1 h
    rw [Value.prune, hexpr.prune_eq]
    exact closed_thunk.2 ⟨hexpr, scopes_pruneScope henv ihe⟩
  | _ => exact h

end Value

end CommitChain
