import CommitChain.Proofs.Machine.Returns
import Mathlib.Data.List.Forall2

/-!
# The machine evaluates

The machine comes to the values of the natural semantics and to no others.  One way is by induction
on the derivation that an expression has a value: `Yields` is what the machine then does, whatever
it has to do after that.  The other is by induction on the number of reductions: each part of an
expression takes fewer of them than the whole (`Returns.cut`), so that it has its value already.
-/

namespace CommitChain.Machine

open Value

/-! ## From the semantics to the machine -/

/-- The machine brings an expression to a value, above any stack by as many reductions. -/
def Yields (env : Env) (e v : Value) : Prop :=
  ∃ n, ∀ k, Returns k n (.eval e env k) v

section

variable {env scope : Env} {e v w : Value} {es vs : List Value}

theorem returns_of_enters {k : Stack} {n : Nat} {t : State} (enters : Enters env k e t)
    (h : Returns k n t v) : Returns k (n + 1) (.eval e env k) v := by
  have first : (State.eval e env k).step = .ok (t, .core) :=
    map_eq_ok.2 ⟨t, evalExpr_eq_ok.2 enters, rfl⟩
  exact .step nofun first h

theorem returns_of_resume {p : Pending} {k : Stack} {n : Nat} {t : State} {family : Family}
    (first : resume w (p :: k) = .ok (t, family)) (h : Returns k n t v) :
    Returns k (n + 1) (.ret w (p :: k)) v := by
  have habove : (State.ret w (p :: k)).Above (p :: k) := List.suffix_refl (p :: k)
  exact .step habove.ne_ret first h

/-- An expression that leads to another one. -/
theorem yields_of_eval {inner : Value} (enters : ∀ k, Enters env k e (.eval inner scope k))
    (h : Yields scope inner v) : Yields env e v := by
  obtain ⟨n, hn⟩ := h
  exact ⟨n + 1, fun k => returns_of_enters (enters k) (hn k)⟩

/-- A part whose value something waits for. -/
theorem yields_part {p : Pending} (h : Yields env e w)
    (hp : ∃ n, ∀ k, Returns k n (.ret w (p :: k)) v) :
    ∃ n, ∀ k, Returns k n (.eval e env (p :: k)) v := by
  obtain ⟨m, hm⟩ := h
  obtain ⟨n, hn⟩ := hp
  refine ⟨m + n, fun k => ?_⟩
  have habove : (State.eval e env (p :: k)).Above (p :: k) := List.suffix_refl (p :: k)
  exact (hm (p :: k)).through habove (hn k)

theorem yields_operands {target : Option Builtin} {waiting ws done : List Value}
    (h : List.Forall₂ (Yields env) waiting ws)
    (operation : ∃ n, ∀ k, ∃ t, Operates k target (done ++ w :: ws) t ∧ Returns k n t v) :
    ∃ n, ∀ k, Returns k n (.ret w (.operands target waiting done env :: k)) v := by
  induction h generalizing done w with
  | nil =>
    obtain ⟨n, hn⟩ := operation
    refine ⟨n + 1, fun k => ?_⟩
    obtain ⟨t, ht, hreturns⟩ := hn k
    obtain ⟨family, first⟩ := operate_eq_ok.2 ht
    exact returns_of_resume first hreturns
  | @cons e u waiting us he _ ih =>
    have hdone : done ++ w :: u :: us = (done ++ [w]) ++ u :: us := by simp
    rw [hdone] at operation
    obtain ⟨n, hn⟩ := yields_part he (ih operation)
    exact ⟨n + 1, fun k => returns_of_resume (resume_operands w k ..) (hn k)⟩

theorem yields_sequence (h : List.Forall₂ (Yields env) (e :: es) (vs ++ [v])) :
    ∃ n, ∀ k, Returns k n (sequenceState env k e es) v := by
  induction es generalizing e vs with
  | nil =>
    cases vs with
    | nil =>
      cases h with
      | cons he _ => exact he
    | cons w vs =>
      cases h with
      | cons _ h =>
        exact absurd h.length_eq (by simp)
  | cons next rest ih =>
    cases vs with
    | nil =>
      cases h with
      | cons _ h => cases h
    | cons w vs =>
      cases h with
      | cons he h =>
        refine yields_part he ?_
        obtain ⟨n, hn⟩ := ih h
        exact ⟨n + 1, fun k => returns_of_resume (resume_sequence w k ..) (hn k)⟩

theorem yields_bind {name : String} {rest : List (String × Value)} {body : Value}
    (h : Yields env e w)
    (others : ∃ n, ∀ k, Returns k n (bindState (env.bind name w) body k rest) v) :
    ∃ n, ∀ k, Returns k n (bindState env body k ((name, e) :: rest)) v := by
  refine yields_part h ?_
  obtain ⟨n, hn⟩ := others
  exact ⟨n + 1, fun k => returns_of_resume (resume_bind w k ..) (hn k)⟩

theorem yields_branch {test yes : Value} {no : Option Value} (h : Yields env test w)
    (result : Yields env (if w.truthy then yes else no.getD .nil) v) :
    Yields env (form "if" (test :: yes :: no.toList)) v := by
  have hp : ∃ n, ∀ k, Returns k n (.ret w (.branch yes (no.getD .nil) env :: k)) v := by
    obtain ⟨n, hn⟩ := result
    exact ⟨n + 1, fun k => returns_of_resume rfl (hn k)⟩
  obtain ⟨n, hn⟩ := yields_part h hp
  exact ⟨n + 1, fun k => returns_of_enters (.branch test yes no) (hn k)⟩

theorem yields_builtin {b : Builtin} (arity : es.length = b.arity)
    (operands : List.Forall₂ (Yields env) es vs)
    (operation : ∃ n, ∀ k, ∃ t, Operates k (some b) vs t ∧ Returns k n t v) :
    Yields env (form b.name es) v := by
  cases operands with
  | nil => cases b <;> cases arity
  | @cons e u es us he h =>
    have hrest : ∃ n, ∀ k, Returns k n (.ret u (.operands (some b) es [] env :: k)) v :=
      yields_operands h operation
    obtain ⟨n, hn⟩ := yields_part he hrest
    exact ⟨n + 1, fun k => returns_of_enters (.builtin arity) (hn k)⟩

theorem yields_apply {f fn body : Value} {params : List String}
    (call : ∀ name, f = .sym name → isKeyword name = false) (function : Yields env f fn)
    (operands : List.Forall₂ (Yields env) es vs) (closes : fn.close = .closure params body scope)
    (count : vs.length = params.length)
    (result : Yields (scope.bindAll (params.zip vs)) body v) :
    Yields env (.cons f (ofList es)) v := by
  have operation : ∃ n, ∀ k, ∃ t, Operates k none ([] ++ fn :: vs) t ∧ Returns k n t v := by
    obtain ⟨n, hn⟩ := result
    exact ⟨n, fun k => ⟨_, .apply closes count, hn k⟩⟩
  obtain ⟨n, hn⟩ := yields_part function (yields_operands operands operation)
  exact ⟨n + 1, fun k => returns_of_enters (.apply es call) (hn k)⟩

end

mutual

theorem yields_of_evaluates {env : Env} {e v : Value} (h : Evaluates env e v) :
    Yields env e v := by
  match h with
  | .num _ n => exact ⟨1, fun k => returns_of_enters (.num n) (.done _)⟩
  | .str _ s => exact ⟨1, fun k => returns_of_enters (.str s) (.done _)⟩
  | .nil _ => exact ⟨1, fun k => returns_of_enters .nil (.done _)⟩
  | .t _ => exact ⟨1, fun k => returns_of_enters .t (.done _)⟩
  | .symbol free bound => exact ⟨1, fun k => returns_of_enters (.symbol free bound) (.done _)⟩
  | .quote _ v => exact ⟨1, fun k => returns_of_enters (.quote v) (.done _)⟩
  | .lambda _ body distinct =>
    exact ⟨1, fun k => returns_of_enters (.lambda body distinct) (.done _)⟩
  | .letIn bindings result =>
    obtain ⟨n, hn⟩ := returns_of_binds bindings (yields_of_evaluates result)
    exact ⟨n + 1, fun k => returns_of_enters (.letIn _ _) (hn k)⟩
  | .letrecIn functions result =>
    exact yields_of_eval (fun k => .letrecIn _ functions) (yields_of_evaluates result)
  | @Evaluates.ifTrue _ _ w _ _ _ decided truth result =>
    refine yields_branch (yields_of_evaluates decided) ?_
    have htruthy : w.truthy = true := by
      cases w with
      | nil => exact absurd rfl truth
      | _ => rfl
    rw [htruthy]
    exact yields_of_evaluates result
  | .ifNil decided result =>
    exact yields_branch (yields_of_evaluates decided) (yields_of_evaluates result)
  | .beginNone _ => exact ⟨1, fun k => returns_of_enters .beginNone (.done _)⟩
  | @Evaluates.begin _ es _ _ all =>
    have hall := yields_of_evaluatesAll all
    cases es with
    | nil => exact absurd hall.length_eq (by simp)
    | cons e es =>
      obtain ⟨n, hn⟩ := yields_sequence hall
      exact ⟨n + 1, fun k => returns_of_enters (.begin e es) (hn k)⟩
  | .delay _ e => exact ⟨1, fun k => returns_of_enters (.delay e) (.done _)⟩
  | .force operand result =>
    refine yields_builtin (b := .force) rfl (.cons (yields_of_evaluates operand) .nil) ?_
    obtain ⟨n, hn⟩ := yields_of_evaluates result
    exact ⟨n, fun k => ⟨_, .force _ _, hn k⟩⟩
  | .forceValue operand value =>
    refine yields_builtin (b := .force) rfl (.cons (yields_of_evaluates operand) .nil) ?_
    exact ⟨0, fun k => ⟨_, .forceValue value, .done _⟩⟩
  | .builtin operands gives =>
    have hall := yields_of_evaluatesAll operands
    refine yields_builtin (hall.length_eq.trans (length_of_gives gives)) hall ?_
    exact ⟨0, fun k => ⟨_, .builtin gives, .done _⟩⟩
  | .apply call function operands closes count result =>
    exact yields_apply call (yields_of_evaluates function) (yields_of_evaluatesAll operands) closes
      count (yields_of_evaluates result)

theorem yields_of_evaluatesAll {env : Env} {es vs : List Value} (h : EvaluatesAll env es vs) :
    List.Forall₂ (Yields env) es vs := by
  match h with
  | .nil _ => exact .nil
  | .cons first others =>
    exact .cons (yields_of_evaluates first) (yields_of_evaluatesAll others)

theorem returns_of_binds {env scope : Env} {pairs : List (String × Value)} {body v : Value}
    (h : Binds env pairs scope) (result : Yields scope body v) :
    ∃ n, ∀ k, Returns k n (bindState env body k pairs) v := by
  match h with
  | .nil _ => exact result
  | .cons value others =>
    exact yields_bind (yields_of_evaluates value) (returns_of_binds others result)

end

/-! ## From the machine to the semantics -/

/-- What returns in fewer than `bound` reductions is evaluated. -/
def MeansBelow (bound : Nat) : Prop :=
  ∀ {n : Nat} {k : Stack} {env : Env} {e v : Value}, n < bound →
    Returns k n (.eval e env k) v → Evaluates env e v

section

variable {bound n : Nat} {k : Stack} {env : Env} {e v w : Value}

theorem value_of_returns (h : Returns k n (.ret w k) v) : w = v :=
  ((Returns.done w).unique h).2

/-- The first reduction of an expression. -/
theorem enters_of_returns (h : Returns k n (.eval e env k) v) :
    ∃ m t, n = m + 1 ∧ Enters env k e t ∧ Returns k m t v := by
  cases h with
  | @step m _ t family _ _ first rest =>
    obtain ⟨u, hu, hut⟩ := map_eq_ok.1 first
    cases hut
    exact ⟨m, t, rfl, evalExpr_eq_ok.1 hu, rest⟩

/-- What is done with a value that something waits for. -/
theorem resume_of_returns {p : Pending} (h : Returns k n (.ret w (p :: k)) v) :
    ∃ m t family, n = m + 1 ∧ resume w (p :: k) = .ok (t, family) ∧ Returns k m t v := by
  cases h with
  | @step m _ t family _ _ first rest => exact ⟨m, t, family, rfl, first, rest⟩

/-- The value of a part that something waits for. -/
theorem MeansBelow.part {p : Pending} (means : MeansBelow bound) (hn : n ≤ bound)
    (h : Returns k n (.eval e env (p :: k)) v) :
    ∃ l w, l ≤ n ∧ Evaluates env e w ∧ Returns k l (.ret w (p :: k)) v := by
  have habove : (State.eval e env (p :: k)).Above (p :: k) := List.suffix_refl (p :: k)
  obtain ⟨m, l, w, rfl, hl, hpart, hrest⟩ := h.cut habove
  exact ⟨l, w, by omega, means (by omega) hpart, hrest⟩

theorem MeansBelow.operands {target : Option Builtin} {waiting done : List Value}
    (means : MeansBelow bound) (hn : n ≤ bound)
    (h : Returns k n (.ret w (.operands target waiting done env :: k)) v) :
    ∃ ws l t, EvaluatesAll env waiting ws ∧ Operates k target (done ++ w :: ws) t ∧ l < n ∧
      Returns k l t v := by
  induction waiting generalizing done w n with
  | nil =>
    obtain ⟨m, t, family, rfl, first, rest⟩ := resume_of_returns h
    exact ⟨[], m, t, .nil env, operate_eq_ok.1 ⟨family, first⟩, by omega, rest⟩
  | cons e waiting ih =>
    obtain ⟨m, t, family, rfl, first, rest⟩ := resume_of_returns h
    cases first
    obtain ⟨l, u, hl, he, hrest⟩ := means.part (by omega) rest
    obtain ⟨us, i, t, hall, ht, hi, hreturns⟩ := ih (by omega) hrest
    rw [List.append_assoc] at ht
    exact ⟨u :: us, i, t, .cons he hall, ht, by omega, hreturns⟩

theorem MeansBelow.sequence {es : List Value} (means : MeansBelow bound) (hn : n < bound)
    (h : Returns k n (sequenceState env k e es) v) :
    ∃ ws, EvaluatesAll env (e :: es) (ws ++ [v]) := by
  induction es generalizing e n with
  | nil => exact ⟨[], .cons (means hn h) (.nil env)⟩
  | cons next rest ih =>
    obtain ⟨l, w, hl, he, hrest⟩ := means.part (by omega) h
    obtain ⟨m, t, family, rfl, first, hrest⟩ := resume_of_returns hrest
    rw [resume_sequence] at first
    cases first
    obtain ⟨ws, hall⟩ := ih (by omega) hrest
    exact ⟨w :: ws, .cons he hall⟩

theorem MeansBelow.bind {body : Value} {pairs : List (String × Value)} (means : MeansBelow bound)
    (hn : n < bound) (h : Returns k n (bindState env body k pairs) v) :
    ∃ scope, Binds env pairs scope ∧ Evaluates scope body v := by
  induction pairs generalizing env n with
  | nil => exact ⟨env, .nil env, means hn h⟩
  | cons p rest ih =>
    obtain ⟨l, w, hl, he, hrest⟩ := means.part (by omega) h
    obtain ⟨m, t, family, rfl, first, hrest⟩ := resume_of_returns hrest
    rw [resume_bind] at first
    cases first
    obtain ⟨scope, hbinds, hbody⟩ := ih (by omega) hrest
    exact ⟨scope, .cons he hbinds, hbody⟩

theorem MeansBelow.branch {yes : Value} {no : Option Value} {test : Value}
    (means : MeansBelow bound) (hn : n < bound)
    (h : Returns k n (.eval test env (.branch yes (no.getD .nil) env :: k)) v) :
    Evaluates env (form "if" (test :: yes :: no.toList)) v := by
  obtain ⟨l, w, hl, htest, hrest⟩ := means.part (by omega) h
  obtain ⟨m, t, family, rfl, first, hrest⟩ := resume_of_returns hrest
  cases first
  cases w with
  | nil => exact .ifNil htest (means (by omega) hrest)
  | _ => exact .ifTrue htest nofun (means (by omega) hrest)

theorem MeansBelow.builtin {b : Builtin} {es : List Value} (means : MeansBelow bound)
    (hn : n < bound) (h : Returns k n (.eval e env (.operands (some b) es [] env :: k)) v) :
    Evaluates env (form b.name (e :: es)) v := by
  obtain ⟨l, w, hl, he, hrest⟩ := means.part (by omega) h
  obtain ⟨ws, i, t, hall, ht, hi, hreturns⟩ := means.operands (by omega) hrest
  rw [List.nil_append] at ht
  cases ht with
  | builtin gives =>
    cases value_of_returns hreturns
    exact .builtin (.cons he hall) gives
  | force inner scope =>
    cases hall
    exact .force he (means (by omega) hreturns)
  | forceValue value =>
    cases hall
    cases value_of_returns hreturns
    exact .forceValue he value

theorem MeansBelow.apply {es : List Value} (means : MeansBelow bound)
    (call : ∀ name, e = .sym name → isKeyword name = false) (hn : n < bound)
    (h : Returns k n (.eval e env (.operands none es [] env :: k)) v) :
    Evaluates env (.cons e (ofList es)) v := by
  obtain ⟨l, w, hl, he, hrest⟩ := means.part (by omega) h
  obtain ⟨ws, i, t, hall, ht, hi, hreturns⟩ := means.operands (by omega) hrest
  rw [List.nil_append] at ht
  cases ht with
  | apply closes count => exact .apply call he hall closes count (means (by omega) hreturns)

/-- One more reduction. -/
theorem MeansBelow.succ (means : MeansBelow bound) : MeansBelow (bound + 1) := by
  intro n k env e v hn h
  obtain ⟨m, t, rfl, enters, hrest⟩ := enters_of_returns h
  cases enters with
  | num n =>
    cases value_of_returns hrest
    exact .num env n
  | str s =>
    cases value_of_returns hrest
    exact .str env s
  | nil =>
    cases value_of_returns hrest
    exact .nil env
  | t =>
    cases value_of_returns hrest
    exact .t env
  | symbol free bound =>
    cases value_of_returns hrest
    exact .symbol free bound
  | quote v =>
    cases value_of_returns hrest
    exact .quote env v
  | lambda body distinct =>
    cases value_of_returns hrest
    exact .lambda env body distinct
  | letIn pairs body =>
    obtain ⟨scope, hbinds, hbody⟩ := means.bind (by omega) hrest
    exact .letIn hbinds hbody
  | letrecIn body functions => exact .letrecIn functions (means (by omega) hrest)
  | branch test yes no => exact means.branch (by omega) hrest
  | beginNone =>
    cases value_of_returns hrest
    exact .beginNone env
  | begin e es =>
    obtain ⟨ws, hall⟩ := means.sequence (by omega) hrest
    exact .begin hall
  | delay e =>
    cases value_of_returns hrest
    exact .delay env e
  | builtin => exact means.builtin (by omega) hrest
  | apply es call => exact means.apply call (by omega) hrest

end

theorem meansBelow (bound : Nat) : MeansBelow bound := by
  induction bound with
  | zero => exact fun hn => absurd hn (Nat.not_lt_zero _)
  | succ bound ih => exact ih.succ

theorem evaluates_iff_yields {env : Env} {e v : Value} : Evaluates env e v ↔ Yields env e v := by
  constructor
  · exact yields_of_evaluates
  · rintro ⟨n, hn⟩
    exact meansBelow (n + 1) (Nat.lt_succ_self n) (hn [])

/-- An expression has at most one value. -/
theorem evaluates_unique {env : Env} {e v w : Value} (hv : Evaluates env e v)
    (hw : Evaluates env e w) : v = w := by
  obtain ⟨m, hm⟩ := yields_of_evaluates hv
  obtain ⟨n, hn⟩ := yields_of_evaluates hw
  exact ((hm []).unique (hn [])).2

/-- The machine does the same above every stack. -/
theorem returns_above_iff {k : Stack} {n : Nat} {env : Env} {e v : Value} :
    Returns k n (.eval e env k) v ↔ Returns [] n (.eval e env []) v := by
  have alike : ∀ {k l : Stack}, Returns k n (.eval e env k) v → Returns l n (.eval e env l) v := by
    intro k l h
    obtain ⟨m, hm⟩ := yields_of_evaluates (meansBelow (n + 1) (Nat.lt_succ_self n) h)
    obtain ⟨rfl, _⟩ := h.unique (hm k)
    exact hm l
  exact ⟨alike, alike⟩

/-- Evaluation is that of the natural semantics: an expression has a value exactly if it is
brought to it within some limit, and the machine reaches the value on any stack after as many
reductions as on the empty one. -/
theorem evaluates_iff_evaluate (env : Env) (e v : Value) :
    (Evaluates env e v ↔ ∃ limit r, evaluate limit e env = .ok r ∧ r.value = v) ∧
      (Evaluates env e v ↔ ∃ n, ∀ k, Returns k n (.eval e env k) v) ∧
      ∀ n k, Returns k n (.eval e env k) v ↔ Returns [] n (.eval e env []) v := by
  refine ⟨?_, evaluates_iff_yields, fun n k => returns_above_iff⟩
  constructor
  · intro h
    obtain ⟨n, hn⟩ := yields_of_evaluates h
    exact ⟨(n + 1 : Nat), ⟨v, n + 1⟩, evaluate_eq_ok_iff.2 ⟨n, hn [], Nat.le_refl _, rfl⟩, rfl⟩
  · rintro ⟨limit, r, h, rfl⟩
    obtain ⟨n, hn, _, _⟩ := evaluate_eq_ok_iff.1 h
    exact meansBelow (n + 1) (Nat.lt_succ_self n) hn

end CommitChain.Machine
