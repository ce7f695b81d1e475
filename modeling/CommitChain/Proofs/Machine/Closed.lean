import CommitChain.Proofs.Machine.Endings
import CommitChain.Proofs.Machine.Failing
import CommitChain.Proofs.Machine.Faults
import CommitChain.Proofs.Machine.PrunedStep
import CommitChain.Proofs.Value.Closed

/-!
# The machine stays closed

In a *closed* state the code that is still to be run is source and its environments bind all that it
refers to.  A reduction of a closed state gives one again (`State.Closed.step`) and does not look up
a name that is not bound (`State.Closed.step_ne_unbound`): what the scan for free variables takes to
be bound in a form is what the machine has bound when it gets there.
-/

namespace CommitChain.Machine

open CommitChain.Value

/-- The code that is waiting is source, in an environment that scopes it. -/
def Pending.Closed : Pending → Prop
  | operands _ waiting done env =>
    (∀ e ∈ waiting, e.IsSource) ∧ (∀ v ∈ done, v.Closed)
      ∧ env.Scopes (waiting.flatMap freeVariables)
  | branch yes no env =>
    yes.IsSource ∧ no.IsSource ∧ env.Scopes (yes.freeVariables ++ no.freeVariables)
  | bind name waiting body env =>
    (∀ p ∈ waiting, p.2.IsSource) ∧ body.IsSource
      ∧ env.Scopes ((freeInRow body.freeVariables waiting).filter (· ≠ name))
  | sequence waiting env =>
    (∀ e ∈ waiting, e.IsSource) ∧ env.Scopes (waiting.flatMap freeVariables)

/-- All code in the state is source, in environments that scope it, and all its values are
closed. -/
def State.Closed : State → Prop
  | eval expr env stack =>
    expr.IsSource ∧ env.Scopes expr.freeVariables ∧ ∀ p ∈ stack, p.Closed
  | ret value stack => value.Closed ∧ ∀ p ∈ stack, p.Closed
  | call fn args _ => fn.Closed ∧ ∀ v ∈ args, v.Closed
  | halt value => value.Closed

/-! ## Rows -/

section

variable {env : Env} {stack : Stack} {body : Value}

theorem closed_bindState {pairs : List (String × Value)} (hb : body.IsSource)
    (hp : ∀ p ∈ pairs, p.2.IsSource) (he : env.Scopes (freeInRow body.freeVariables pairs))
    (hs : ∀ p ∈ stack, p.Closed) : (bindState env body stack pairs).Closed := by
  cases pairs with
  | nil => exact ⟨hb, he, hs⟩
  | cons p rest =>
    obtain ⟨hvalue, hrest⟩ := List.forall_mem_cons.1 hp
    refine ⟨hvalue, he.mono fun x hx => List.mem_append_right _ hx, ?_⟩
    exact List.forall_mem_cons.2
      ⟨⟨hrest, hb, he.mono fun x hx => List.mem_append_left _ hx⟩, hs⟩

theorem closed_sequenceState {e : Value} {es : List Value} (hes : ∀ v ∈ e :: es, v.IsSource)
    (he : env.Scopes ((e :: es).flatMap freeVariables)) (hs : ∀ p ∈ stack, p.Closed) :
    (sequenceState env stack e es).Closed := by
  obtain ⟨hfirst, hrest⟩ := List.forall_mem_cons.1 hes
  have hhead := he.mono fun x hx => List.mem_append_left _ hx
  have htail := he.mono fun x hx => List.mem_append_right _ hx
  cases es with
  | nil => exact ⟨hfirst, hhead, hs⟩
  | cons => exact ⟨hfirst, hhead, List.forall_mem_cons.2 ⟨⟨hrest, htail⟩, hs⟩⟩

end

/-- What a `letrec` makes of an environment scopes its body. -/
theorem scopes_of_bindsFunctions {env scope : Env} {pairs : List (String × Value)}
    {inner : List String} (h : BindsFunctions env pairs scope) (hp : ∀ p ∈ pairs, p.2.IsSource)
    (he : env.Scopes (freeInRecRow inner pairs)) : scope.Scopes inner := by
  induction h with
  | nil => exact he
  | @cons env scope name params body rest distinct others ih =>
    obtain ⟨hlambda, hrest⟩ := List.forall_mem_cons.1 hp
    have hbody : body.IsSource := isSource_ofList.1 hlambda.2 body (by simp)
    have hfree : (form "lambda" [nameList params, body]).freeVariables
        = freeInFunction params body :=
      freeVariables_lambda (toList?_ofList _) (paramNames?_eq_some.2 ⟨rfl, distinct⟩)
    have hfix : (fix name params body env).Closed := by
      refine closed_fix.2 ⟨hbody, he.mono fun x hx => List.mem_append_right _ ?_⟩
      rwa [hfree]
    exact ih hrest ((he.mono fun x hx => List.mem_append_left _ hx).bind hfix)

/-! ## Reductions -/

theorem Enters.closed {env : Env} {stack : Stack} {e : Value} {s : State}
    (h : Enters env stack e s) (hx : e.IsSource) (he : env.Scopes e.freeVariables)
    (hs : ∀ p ∈ stack, p.Closed) : s.Closed := by
  have push : ∀ {q : Pending}, q.Closed → ∀ p ∈ q :: stack, p.Closed :=
    fun hq => List.forall_mem_cons.2 ⟨hq, hs⟩
  have none_done : ∀ v ∈ ([] : List Value), v.Closed := fun v hv => absurd hv List.not_mem_nil
  -- the arguments of a form that is scanned as a whole are scoped by what scopes the form
  have args : ∀ {name : String} {xs : List Value}, e = form name xs → name ≠ "quote" →
      name ≠ "lambda" → name ≠ "let" → name ≠ "letrec" →
        (∀ x ∈ xs, x.IsSource) ∧ env.Scopes (xs.flatMap freeVariables) := by
    rintro name xs rfl hq hl hlet hrec
    refine ⟨isSource_ofList.1 hx.2, he.mono fun x hm => ?_⟩
    obtain ⟨a, ha, hm⟩ := List.mem_flatMap.1 hm
    exact mem_free_of_arg (toList?_ofList xs) ha hq hl hlet hrec hm
  cases h with
  | num | str | nil | t => exact ⟨trivial, hs⟩
  | symbol free bound => exact ⟨(he.lookup bound).close, hs⟩
  | quote => exact ⟨hx.2.1.closed, hs⟩
  | @lambda params body distinct =>
    have hfree : (form "lambda" [nameList params, body]).freeVariables
        = freeInFunction params body :=
      freeVariables_lambda (toList?_ofList _) (paramNames?_eq_some.2 ⟨rfl, distinct⟩)
    exact ⟨closed_closure.2 ⟨isSource_ofList.1 hx.2 body (by simp), hfree ▸ he⟩, hs⟩
  | letIn pairs body =>
    have hpairs := bindingPairs?_eq_some.2 (rfl : bindingList pairs = _)
    have hfree := (freeVariables_let (toList?_ofList [bindingList pairs, body]) hpairs).trans
      (freeInBindings_false hpairs)
    obtain ⟨_, hbindings, hbody, _⟩ := hx
    exact closed_bindState hbody (isSource_bindingList hbindings) (hfree ▸ he) hs
  | @letrecIn scope pairs body functions =>
    have hpairs := bindingPairs?_eq_some.2 (rfl : bindingList pairs = _)
    have hfree := (freeVariables_letrec (toList?_ofList [bindingList pairs, body]) hpairs).trans
      (freeInBindings_true hpairs)
    obtain ⟨_, hbindings, hbody, _⟩ := hx
    refine ⟨hbody, ?_, hs⟩
    exact scopes_of_bindsFunctions functions (isSource_bindingList hbindings) (hfree ▸ he)
  | branch test yes no =>
    obtain ⟨hparts, hscope⟩ := args rfl (by decide) (by decide) (by decide) (by decide)
    obtain ⟨htest, hyes, hno⟩ : test.IsSource ∧ yes.IsSource ∧ ∀ v ∈ no.toList, v.IsSource := by
      simpa using hparts
    refine ⟨htest, hscope.mono fun x hm => by simp [hm], push ⟨hyes, ?_, ?_⟩⟩
    · cases no with
      | none => trivial
      | some no => exact hno no (by simp)
    · refine hscope.mono fun x hm => List.mem_append_right _ ?_
      cases no with
      | none => simpa [freeVariables] using hm
      | some no => simpa using hm
  | beginNone => exact ⟨trivial, hs⟩
  | begin =>
    obtain ⟨hparts, hscope⟩ := args rfl (by decide) (by decide) (by decide) (by decide)
    exact closed_sequenceState hparts hscope hs
  | delay =>
    obtain ⟨hparts, hscope⟩ := args rfl (by decide) (by decide) (by decide) (by decide)
    refine ⟨closed_thunk.2 ⟨hparts _ List.mem_cons_self, ?_⟩, hs⟩
    exact hscope.mono fun x hm => List.mem_append_left _ hm
  | @builtin b =>
    have hname : ∀ {name}, name ∈ specialForms → b.name ≠ name :=
      fun hspecial h => name_not_mem_specialForms b (h ▸ hspecial)
    obtain ⟨hparts, hscope⟩ := args rfl (hname (by decide)) (hname (by decide))
      (hname (by decide)) (hname (by decide))
    obtain ⟨hfirst, hrest⟩ := List.forall_mem_cons.1 hparts
    refine ⟨hfirst, hscope.mono fun x hm => List.mem_append_left _ hm, push ⟨hrest, none_done, ?_⟩⟩
    exact hscope.mono fun x hm => List.mem_append_right _ hm
  | apply es call =>
    rw [freeVariables_apply es call] at he
    refine ⟨hx.1, he.mono fun x hm => List.mem_append_left _ hm, ?_⟩
    exact push ⟨isSource_ofList.1 hx.2, none_done, he.mono fun x hm => List.mem_append_right _ hm⟩

theorem closed_of_gives {b : Builtin} {vs : List Value} {v : Value} (h : b.Gives vs v)
    (hvs : ∀ w ∈ vs, w.Closed) : v.Closed := by
  cases h with
  | add | sub | mul | div | mod | carNil | cdrNil => trivial
  | cons v w => exact ⟨hvs v (by simp), hvs w (by simp)⟩
  | car => exact (hvs _ List.mem_cons_self).1
  | cdr => exact (hvs _ List.mem_cons_self).2
  | _ => exact closed_ofBool _

theorem Operates.closed {target : Option Builtin} {vs : List Value} {stack : Stack} {s : State}
    (h : Operates stack target vs s) (hvs : ∀ v ∈ vs, v.Closed)
    (hs : ∀ p ∈ stack, p.Closed) : s.Closed := by
  cases h with
  | builtin gives => exact ⟨closed_of_gives gives hvs, hs⟩
  | force =>
    obtain ⟨hinner, hscope⟩ := closed_thunk.1 (hvs _ List.mem_cons_self)
    exact ⟨hinner, hscope, hs⟩
  | forceValue => exact ⟨hvs _ List.mem_cons_self, hs⟩
  | apply closes count =>
    obtain ⟨hfn, hargs⟩ := List.forall_mem_cons.1 hvs
    obtain ⟨hbody, hscope⟩ := closed_closure.1 (closes ▸ hfn.close)
    exact ⟨hbody, hscope.bindAll count hargs, hs⟩

theorem closed_of_resume {v : Value} {stack : Stack} {r : State × Family} (hv : v.Closed)
    (hs : ∀ p ∈ stack, p.Closed) (h : resume v stack = .ok r) : r.1.Closed := by
  cases stack with
  | nil =>
    cases h
    exact hv
  | cons p stack =>
    obtain ⟨hp, hstack⟩ := List.forall_mem_cons.1 hs
    cases p with
    | operands target waiting done env =>
      obtain ⟨hwaiting, hdone, he⟩ := hp
      have hdone' : ∀ w ∈ done ++ [v], w.Closed :=
        List.forall_mem_append.2 ⟨hdone, List.forall_mem_singleton.2 hv⟩
      cases waiting with
      | nil => exact (operate_eq_ok.1 ⟨r.2, h⟩).closed hdone' hstack
      | cons e waiting =>
        cases h
        obtain ⟨hx, hwaiting⟩ := List.forall_mem_cons.1 hwaiting
        have hfirst := he.mono fun x hm => List.mem_append_left _ hm
        have hrest := he.mono fun x hm => List.mem_append_right _ hm
        exact ⟨hx, hfirst, List.forall_mem_cons.2 ⟨⟨hwaiting, hdone', hrest⟩, hstack⟩⟩
    | branch yes no env =>
      obtain ⟨hyes, hno, he⟩ := hp
      cases h
      cases v.truthy with
      | true => exact ⟨hyes, he.mono fun x hm => List.mem_append_left _ hm, hstack⟩
      | false => exact ⟨hno, he.mono fun x hm => List.mem_append_right _ hm, hstack⟩
    | bind name waiting body env =>
      obtain ⟨hwaiting, hbody, he⟩ := hp
      rw [resume_bind] at h
      cases h
      exact closed_bindState hbody hwaiting (he.bind hv) hstack
    | sequence waiting env =>
      cases waiting with
      | nil => cases h
      | cons e waiting =>
        rw [resume_sequence] at h
        cases h
        exact closed_sequenceState hp.1 hp.2 hstack

/-- A reduction of a closed state gives a closed state. -/
theorem State.Closed.step {s : State} {r : State × Family} (hs : s.Closed)
    (h : s.step = .ok r) : r.1.Closed := by
  cases s with
  | eval e env stack =>
    obtain ⟨hx, he, hstack⟩ := hs
    obtain ⟨t, ht, rfl⟩ := map_eq_ok.1 h
    exact (evalExpr_eq_ok.1 ht).closed hx he hstack
  | ret v stack => exact closed_of_resume hs.1 hs.2 h
  | call fn args ref =>
    have hoperate : operate none (fn :: args) [] = .ok (r.1, r.2) := h
    exact (operate_eq_ok.1 ⟨r.2, hoperate⟩).closed (List.forall_mem_cons.2 hs)
      fun _ hp => absurd hp List.not_mem_nil
  | halt v => exact absurd h step_halt_ne_ok

/-! ## Names that are not bound -/

/-- Only looking up a symbol fails for a name that is not bound. -/
theorem unbound_of_step {s : State} {name : String} (h : s.step = .error (.unbound name)) :
    ∃ env stack, s = .eval (.sym name) env stack ∧ name ≠ "t" ∧ env.lookup name = none := by
  cases faulty_of_step h with
  | eval rejects =>
    cases rejects with
    | unbound free absent => exact ⟨_, _, rfl, free, absent⟩
  | operate refuses => exact absurd refuses not_refuses_unbound
  | call refuses => exact absurd refuses not_refuses_unbound

theorem State.Closed.step_ne_unbound {s : State} (hs : s.Closed) (name : String) :
    s.step ≠ .error (.unbound name) := by
  intro h
  obtain ⟨env, stack, rfl, ht, hnone⟩ := unbound_of_step h
  obtain ⟨hsource, hscope, _⟩ := hs
  have hfree : (sym name).freeVariables = [name] := by
    have hself : selfEvaluating.contains name = false := by
      simpa [selfEvaluating] using ⟨ht, hsource⟩
    rw [freeVariables, hself]
    rfl
  have hbound := hscope.1 name (hfree ▸ List.mem_singleton_self name)
  exact absurd hbound (by simp [hnone])

/-! ## Runs -/

theorem Steps.closed {n : Nat} {s t : State} (h : Steps n s t) (hs : s.Closed) : t.Closed := by
  induction h with
  | zero => exact hs
  | succ first _ ih => exact ih (hs.step first)

/-- An evaluation looks up no name in vain, and what it comes to is closed. -/
structure StaysClosed (r : Except Fault Evaluation) : Prop where
  bound : ∀ name, r ≠ .error (.unbound name)
  value : ∀ {evaluation : Evaluation}, r = .ok evaluation → evaluation.value.Closed

theorem State.Closed.run {s : State} (hs : s.Closed) (limit : Int) (fuel steps : Nat) :
    StaysClosed (run limit fuel steps s) where
  bound := by
    intro name h
    rcases fault_of_run h with he | ⟨n, -, t, hn, fails⟩
    · cases he
    · exact (hn.closed hs).step_ne_unbound name fails.fault
  value := by
    intro evaluation h
    obtain ⟨n, -, -, hn⟩ := steps_of_run h
    exact hn.closed hs

theorem State.Closed.traced {s : State} (hs : s.Closed) (limit : Int) :
    StaysClosed ((traced limit s).map TracedEvaluation.toEvaluation) where
  bound := by
    intro name h
    rcases fault_of_traced (map_eq_error.1 h) with he | ⟨_, he⟩ | ⟨n, t, hn, fails⟩
    · cases he
    · cases he
    · exact (hn.closed hs).step_ne_unbound name fails.fault
  value := by
    intro evaluation h
    obtain ⟨r, hr, rfl⟩ := map_eq_ok.1 h
    obtain ⟨_, _, hruns, _⟩ := traced_eq_ok hr
    exact hruns.steps.closed hs

theorem isFunction_prune (v : Value) : v.prune.isFunction = v.isFunction := by
  cases v <;> simp only [Value.prune, isFunction]

/-- An expression that was read, in an environment of closed values that binds its free variables,
and a closed function at closed arguments are evaluated without looking for a name in vain, and what
they come to is closed.  A closed value is closed after it was written and read back. -/
theorem evaluation_stays_closed :
    (∀ {text : String} {expr : Value} {env : Env} (limit : Int), Value.read text = .ok expr →
      env.Scopes expr.freeVariables →
        StaysClosed (evaluate limit expr env) ∧
        StaysClosed ((evaluateTraced limit expr env).map TracedEvaluation.toEvaluation)) ∧
    (∀ {fn : Value} {args : List Value} (limit : Int) (ref : Json), fn.Closed →
      (∀ v ∈ args, v.Closed) →
        StaysClosed ((apply limit fn args ref).map TracedEvaluation.toEvaluation)) ∧
    ∀ {fn : Value} {x : Json}, fn.Regular → fn.Closed → fn.encodeStrict = .ok x →
      ∃ fn', decode x = .ok fn' ∧ fn'.isFunction = fn.isFunction ∧ fn'.Closed := by
  refine ⟨fun limit hread henv => ?_, fun limit ref hfn hargs => ?_, fun hregular hfn hx => ?_⟩
  · have hs : (State.eval _ _ []).Closed :=
      ⟨isSource_of_read hread, henv, fun _ hp => absurd hp List.not_mem_nil⟩
    exact ⟨hs.run _ _ _, hs.traced limit⟩
  · have hs : (State.call _ _ ref).Closed := ⟨hfn, hargs⟩
    exact hs.traced limit
  · exact ⟨_, decode_encode hregular hx, isFunction_prune _, hfn.prune⟩

/-- A function that gives a number and, suspended, itself at the next one. -/
def counting : Value :=
  fix "count" ["n"] (ofList [sym "cons", sym "n", ofList [sym "delay",
    ofList [sym "count", ofList [sym "+", sym "n", sym "k"]]]]) [("k", num 1)]

theorem read_counting : Value.read "(cons n (delay (count (+ n k))))"
    = .ok (ofList [sym "cons", sym "n", ofList [sym "delay",
      ofList [sym "count", ofList [sym "+", sym "n", sym "k"]]]]) :=
  rfl

theorem closed_counting : counting.Closed := by
  refine closed_fix.2 ⟨isSource_of_read read_counting, fun x hx => ?_,
    List.forall_mem_singleton.2 trivial⟩
  have hfree : freeInFix "count" ["n"] (ofList [sym "cons", sym "n", ofList [sym "delay",
      ofList [sym "count", ofList [sym "+", sym "n", sym "k"]]]]) = ["k"] := by decide +kernel
  rw [hfree, List.mem_singleton] at hx
  rw [hx]
  rfl

theorem regular_counting : counting.Regular :=
  regular_fix.2 ⟨by decide, List.forall_mem_singleton.2 (by decide), regular_of_read read_counting,
    List.pairwise_singleton _ _, List.forall_mem_singleton.2 ⟨by decide, trivial⟩⟩

theorem counting_stays_closed :
    ∃ expr x, Value.read "(count 0)" = .ok expr ∧
      Env.Scopes [("count", counting)] expr.freeVariables ∧ counting.Regular ∧
      counting.encodeStrict = .ok x ∧
      StaysClosed (evaluate 30 expr [("count", counting)]) ∧
      StaysClosed ((evaluateTraced 30 expr [("count", counting)]).map
        TracedEvaluation.toEvaluation) ∧
      StaysClosed ((apply 30 counting [num 0] x).map TracedEvaluation.toEvaluation) ∧
      ∃ fn, decode x = .ok fn ∧ fn.isFunction = true ∧ fn.Closed := by
  have hread : Value.read "(count 0)" = .ok (ofList [sym "count", num 0]) := rfl
  have hscope : Env.Scopes [("count", counting)] (ofList [sym "count", num 0]).freeVariables := by
    refine ⟨fun x hx => ?_, List.forall_mem_singleton.2 closed_counting⟩
    have hfree : (ofList [sym "count", num 0]).freeVariables = ["count"] := by decide +kernel
    rw [hfree, List.mem_singleton] at hx
    rw [hx]
    rfl
  have hx : counting.encodeStrict = .ok counting.encode := rfl
  obtain ⟨hevaluate, htraced⟩ := evaluation_stays_closed.1 30 hread hscope
  have hzero : ∀ v ∈ [num 0], v.Closed := List.forall_mem_singleton.2 trivial
  have happly := evaluation_stays_closed.2.1 30 counting.encode closed_counting hzero
  exact ⟨_, _, hread, hscope, regular_counting, hx, hevaluate, htraced, happly,
    evaluation_stays_closed.2.2 regular_counting closed_counting hx⟩

end CommitChain.Machine
