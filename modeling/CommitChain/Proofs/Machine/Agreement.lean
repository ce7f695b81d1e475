import CommitChain.Chain
import CommitChain.Proofs.Machine.Faults
import CommitChain.Proofs.Machine.PrunedStep

/-!
# Functions with one encoding

Two functions with one encoding, called with arguments of one encoding, run in lockstep: their
states have one pruned form, hence one digest, after every reduction.  They part only where `eq`
compares two values that hold environments, since it looks at whole environments, and where a symbol
`nil` is looked up, since the environment of a function is pruned of it.
-/

namespace CommitChain.Machine

open CommitChain.Value

/-! ## Parting -/

/-- Whether the next reductions of two states give values of different encodings: either both
compare two values by `eq` with different outcomes, or both look up the symbol `nil` and find
different values. -/
def State.PartsFrom : State → State → Prop
  | ret v (.operands (some .same) [] [u] _ :: _), ret v' (.operands (some .same) [] [u'] _ :: _) =>
    ¬(u = v ↔ u' = v')
  | eval (.sym "nil") env _, eval (.sym "nil") env' _ =>
    (env.lookup "nil").map (fun v => v.close.encode)
      ≠ (env'.lookup "nil").map fun v => v.close.encode
  | _, _ => False

/-- Whether two states part after fewer than `fuel` reductions. -/
def PartWithin (fuel : Nat) (s s' : State) : Prop :=
  ∃ n t t', n < fuel ∧ Steps n s t ∧ Steps n s' t' ∧ t.PartsFrom t'

theorem exists_comparison_of_prune {s : State} {u v : Value} {env : Env} {stack : Stack}
    (h : s.prune = (State.ret v (.operands (some .same) [] [u] env :: stack)).prune) :
    ∃ v' u' env' stack', s = .ret v' (.operands (some .same) [] [u'] env' :: stack') := by
  cases s with
  | ret v' stack' =>
    obtain ⟨_, hk⟩ := State.ret.inj h
    obtain ⟨p, rest, rfl, hp, _⟩ := List.map_eq_cons_iff.1 hk
    cases p with
    | operands target waiting done env' =>
      obtain ⟨rfl, hw, hd, _⟩ := Pending.operands.inj hp
      obtain rfl := List.map_eq_nil_iff.1 hw
      obtain ⟨u', rest', rfl, _, hr⟩ := List.map_eq_cons_iff.1 hd
      obtain rfl := List.map_eq_nil_iff.1 hr
      exact ⟨v', u', env', rest, rfl⟩
    | _ => exact absurd hp (by simp [Pending.prune])
  | _ => exact absurd h (by simp [State.prune])

theorem exists_nil_of_prune {s : State} {env : Env} {stack : Stack}
    (h : s.prune = (State.eval (sym "nil") env stack).prune) :
    ∃ env' stack', s = .eval (sym "nil") env' stack' := by
  cases s with
  | eval expr env' stack' =>
    obtain ⟨hx, _, _⟩ := State.eval.inj h
    cases expr with
    | sym name =>
      cases hx
      exact ⟨env', stack', rfl⟩
    | _ => exact absurd hx (by simp [Value.prune])
  | _ => exact absurd h (by simp [State.prune])

theorem step_comparison (u v : Value) (env : Env) (stack : Stack) :
    (State.ret v (.operands (some .same) [] [u] env :: stack)).step
      = .ok (.ret (ofBool (u = v)) stack, Builtin.same.family) := by
  rw [State.step, resume, operate_builtin (fun h => Builtin.noConfusion h)]
  rfl

theorem step_nil (env : Env) (stack : Stack) :
    (State.eval (sym "nil") env stack).step
      = match env.lookup "nil" with
        | some v => .ok (.ret v.close stack, .core)
        | none => .error (.unbound "nil") := by
  rw [State.step, evalExpr, if_neg (by decide)]
  cases env.lookup "nil" <;> rfl

/-- States of one pruned form part, or their next states have one pruned form. -/
theorem State.partsFrom_or_step {s s' : State} (hs : s.Regular) (hs' : s'.Regular)
    (h : s.prune = s'.prune) : s.PartsFrom s' ∨ pruneNext s.step = pruneNext s'.step := by
  by_cases hc : ∃ v u env rest, s = .ret v (.operands (some .same) [] [u] env :: rest)
  · obtain ⟨v, u, env, stack, rfl⟩ := hc
    obtain ⟨v', u', env', stack', rfl⟩ := exists_comparison_of_prune h.symm
    obtain ⟨_, hk⟩ := State.ret.inj h
    obtain ⟨_, hk⟩ := List.cons.inj hk
    by_cases huv : u = v ↔ u' = v'
    · right
      rw [step_comparison, step_comparison, decide_eq_decide.2 huv, pruneNext, State.prune, hk,
        pruneNext, State.prune]
    · exact .inl huv
  · by_cases hn : ∃ env stack, s = .eval (sym "nil") env stack
    · obtain ⟨env, stack, rfl⟩ := hn
      obtain ⟨env', stack', rfl⟩ := exists_nil_of_prune h.symm
      obtain ⟨_, _, hk⟩ := State.eval.inj h
      by_cases hl : (env.lookup "nil").map (fun v => v.close.encode)
          = (env'.lookup "nil").map fun v => v.close.encode
      · right
        rw [step_nil, step_nil]
        cases hv : env.lookup "nil" <;> cases hv' : env'.lookup "nil" <;> simp only [hv, hv'] at hl
        · rfl
        · exact absurd hl (by simp)
        · exact absurd hl (by simp)
        · simp only [pruneNext, State.prune, hk, prune_eq_iff.2 (Option.some.inj hl)]
      · exact .inl hl
    · right
      rw [← State.step_prune hs (fun v u env rest he => hc ⟨v, u, env, rest, he⟩)
          fun env stack he => hn ⟨env, stack, he⟩, h,
        State.step_prune hs' (fun v u env rest he => hc ?_) fun env stack he => hn ?_]
      · exact exists_comparison_of_prune (he ▸ h)
      · exact exists_nil_of_prune (he ▸ h)

/-- After states that part the encodings differ. -/
theorem State.PartsFrom.encode_ne {s s' t t' : State} {family family' : Family}
    (h : s.PartsFrom s') (hs : s.step = .ok (t, family)) (hs' : s'.step = .ok (t', family')) :
    t.encode ≠ t'.encode := by
  have control : ∀ {v v' : Value} {stack stack' : Stack},
      (State.ret v stack).encode = (State.ret v' stack').encode → v.encode = v'.encode := by
    intro v v' stack stack' he
    simp only [State.encode, stateJson, Json.obj.injEq, List.cons.injEq, Prod.mk.injEq,
      Json.arr.injEq, true_and, and_true] at he
    exact he.1
  unfold State.PartsFrom at h
  split at h
  next v u env stack v' u' env' stack' =>
    rw [step_comparison] at hs hs'
    cases hs
    cases hs'
    intro he
    have hb := control he
    by_cases h1 : u = v <;> by_cases h2 : u' = v' <;>
      simp_all [ofBool, Value.t, Value.encode, parts, pack]
  next env stack env' stack' =>
    rw [step_nil] at hs hs'
    cases hv : env.lookup "nil" <;> cases hv' : env'.lookup "nil" <;>
      simp only [hv, hv'] at hs hs' h
    · exact absurd hs (by simp)
    · exact absurd hs (by simp)
    · exact absurd hs' (by simp)
    · cases hs
      cases hs'
      exact fun he => h (congrArg some (control he))
  next => exact h.elim

/-! ## Runs -/

/-- The outcome of a run with the value in pruned form. -/
def pruneRun : Except Fault TracedEvaluation → Except Fault TracedEvaluation
  | .ok r => .ok ⟨⟨r.value.prune, r.steps⟩, r.frames⟩
  | .error e => .error e.prune

theorem PartWithin.succ {fuel : Nat} {s s' t t' : State} {family family' : Family}
    (hs : s.step = .ok (t, family)) (hs' : s'.step = .ok (t', family'))
    (h : PartWithin fuel t t') : PartWithin (fuel + 1) s s' := by
  obtain ⟨n, u, u', hn, hu, hu', hp⟩ := h
  exact ⟨n + 1, u, u', Nat.succ_lt_succ hn, .succ hs hu, .succ hs' hu', hp⟩

theorem exists_halt_of_prune {s : State} {v : Value} (h : s.prune = (State.halt v).prune) :
    ∃ v', s = .halt v' := by
  cases s with
  | halt v' => exact ⟨v', rfl⟩
  | _ => exact absurd h (by simp [State.prune])

theorem State.digest_eq_of_prune_eq {s s' : State} (h : s.prune = s'.prune) :
    s.digest = s'.digest := by
  rw [State.digest, State.encode_eq_of_prune_eq h, State.digest]

/-- Runs from states of one pruned form part, or they come to the same. -/
theorem runTraced_agree {limit : Int} {fuel steps : Nat} {before : Hash.Digest}
    {frames : List Frame} {s s' : State} (hs : s.Regular) (hs' : s'.Regular)
    (h : s.prune = s'.prune) :
    PartWithin fuel s s' ∨ pruneRun (runTraced limit fuel steps before frames s)
      = pruneRun (runTraced limit fuel steps before frames s') := by
  by_cases hhalt : ∃ v, s = .halt v
  · obtain ⟨v, rfl⟩ := hhalt
    obtain ⟨v', rfl⟩ := exists_halt_of_prune h.symm
    right
    rw [runTraced_halt, runTraced_halt, pruneRun, State.halt.inj h, pruneRun]
  have hn : ∀ v, s ≠ .halt v := fun v hv => hhalt ⟨v, hv⟩
  have hn' : ∀ v, s' ≠ .halt v := fun v hv => hhalt (exists_halt_of_prune (hv ▸ h))
  induction fuel generalizing steps before frames s s' with
  | zero =>
    right
    rw [runTraced_zero hn, runTraced_zero hn']
  | succ fuel ih =>
    rcases State.partsFrom_or_step hs hs' h with hp | hstep
    · exact .inl ⟨0, s, s', Nat.succ_pos fuel, .zero s, .zero s', hp⟩
    rw [runTraced_succ hn, runTraced_succ hn']
    cases h1 : s.step with
    | error e =>
      cases h2 : s'.step with
      | error e' =>
        rw [h1, h2] at hstep
        exact .inr (congrArg Except.error (Except.error.inj hstep))
      | ok r => exact absurd hstep (by simp [h1, h2, pruneNext])
    | ok r =>
      cases h2 : s'.step with
      | error e => exact absurd hstep (by simp [h1, h2, pruneNext])
      | ok r' =>
        obtain ⟨t, family⟩ := r
        obtain ⟨t', family'⟩ := r'
        have hr : t.prune = t'.prune ∧ family = family' := by
          simpa [h1, h2, pruneNext] using hstep
        obtain ⟨ht, rfl⟩ := hr
        simp only [State.digest_eq_of_prune_eq ht]
        cases t'.digest with
        | error e => exact .inr rfl
        | ok after =>
          by_cases hend : ∃ v, t = .halt v
          · obtain ⟨v, rfl⟩ := hend
            obtain ⟨v', rfl⟩ := exists_halt_of_prune ht.symm
            right
            simp only [runTraced_halt, pruneRun, State.halt.inj ht]
          · have ht' : ∀ v, t' ≠ .halt v := by
              rintro v rfl
              exact hend (exists_halt_of_prune ht)
            exact (ih (hs.step h1) (hs'.step h2) ht hend (fun v hv => hend ⟨v, hv⟩) ht').imp_left
              fun hp => hp.succ h1 h2

/-! ## Functions -/

/-- Whether two evaluations agree: both fail as evaluations do, or both return with the same frames
and with results of one encoding. -/
def Agree : Except Failure TracedEvaluation → Except Failure TracedEvaluation → Prop
  | .ok r, .ok r' => r.frames = r'.frames ∧ r.value.encode = r'.value.encode
  | .error e, .error e' => e.kind = .engine .evaluation ∧ e'.kind = .engine .evaluation
  | _, _ => False

/-- Whether both of two evaluations fail. -/
def BothFail (r r' : Except Failure TracedEvaluation) : Prop :=
  (∃ e, r = .error e) ∧ ∃ e, r' = .error e

/-- Whether two states of different encodings that are `n` reductions away, for some `n` up to
`fuel`, have one digest. -/
def CollideWithin (fuel : Nat) (s s' : State) : Prop :=
  ∃ n t t' d, n ≤ fuel ∧ Steps n s t ∧ Steps n s' t' ∧ t.encode ≠ t'.encode
    ∧ t.digest = .ok d ∧ t'.digest = .ok d

theorem encode_eq_of_encodeStrict {v : Value} {c : Json} (h : v.encodeStrict = .ok c) :
    v.encode = c := by
  unfold encodeStrict at h
  split at h
  · exact absurd h (by simp)
  · split at h
    · exact absurd h (by simp)
    · exact Except.ok.inj h

/-- Two traced runs with the same frames do not part, but for states that collide. -/
theorem collide_of_runs {n k k' : Nat} {before before' : Hash.Digest} {s s' t t' : State}
    {frames frames' : List Frame} {v v' : Value} (h : Runs k before s frames v)
    (h' : Runs k' before' s' frames' v') (hf : frames = frames') (hn : Steps n s t)
    (hn' : Steps n s' t') (hp : t.PartsFrom t') :
    ∃ u u' d, Steps (n + 1) s u ∧ Steps (n + 1) s' u' ∧ u.encode ≠ u'.encode
      ∧ u.digest = .ok d ∧ u'.digest = .ok d := by
  induction n generalizing k k' before before' s s' frames frames' with
  | zero =>
    cases hn
    cases hn'
    cases h with
    | halt => exact hp.elim
    | step first digest rest =>
      cases h' with
      | halt => exact absurd hf (by simp)
      | step first' digest' rest' =>
        have ho := congrArg Frame.output (List.cons.inj hf).1
        exact ⟨_, _, _, .succ first (.zero _), .succ first' (.zero _), hp.encode_ne first first',
          digest, digest'.trans (congrArg Except.ok ho.symm)⟩
  | succ n ih =>
    cases hn with
    | succ first rest =>
      cases hn' with
      | succ first' rest' =>
        cases h with
        | halt => exact absurd first step_halt_ne_ok
        | step hfirst _ hrest =>
          cases h' with
          | halt => exact absurd hf (by simp)
          | step hfirst' _ hrest' =>
            cases first.symm.trans hfirst
            cases first'.symm.trans hfirst'
            obtain ⟨u, u', d, hu, hu', he⟩ := ih hrest hrest' (List.cons.inj hf).2 rest rest'
            exact ⟨u, u', d, .succ first hu, .succ first' hu', he⟩

theorem kind_of_evaluator {limit : Int} {fn : Value} {args : List Value} {ref : Json} {e : Failure}
    (hf : fn.isFunction) (h : evaluator limit fn args ref = .error e) :
    e.kind = .engine .evaluation := by
  rw [evaluator] at h
  cases ha : apply limit fn args ref with
  | ok r => exact absurd h (by simp [ha, orFail])
  | error fault =>
    obtain rfl : Failure.evaluation fault = e := by simpa [ha, orFail] using h
    simp [Failure.kind, Failure.statedKind, Failure.message?, message_of_apply hf ha]

theorem agree_of_pruneRun_eq {r r' : Except Fault TracedEvaluation}
    (he : ∀ e, orFail .evaluation r = .error e → e.kind = .engine .evaluation)
    (he' : ∀ e, orFail .evaluation r' = .error e → e.kind = .engine .evaluation)
    (h : pruneRun r = pruneRun r') : Agree (orFail .evaluation r) (orFail .evaluation r') := by
  cases r with
  | error e =>
    cases r' with
    | error e' => exact ⟨he _ rfl, he' _ rfl⟩
    | ok => exact absurd h (by simp [pruneRun])
  | ok a =>
    cases r' with
    | error => exact absurd h (by simp [pruneRun])
    | ok a' =>
      have hr := Except.ok.inj h
      have hv : a.value.prune = a'.value.prune :=
        congrArg (fun r : TracedEvaluation => r.value) hr
      have hf := congrArg (fun r : TracedEvaluation => r.frames) hr
      exact ⟨hf, prune_eq_iff.1 hv⟩

/-- Runs that agree and return do not part, but for states that collide. -/
theorem fail_or_collide_of_agree {limit : Int} {s s' : State}
    (h : Agree (orFail .evaluation (traced limit s)) (orFail .evaluation (traced limit s')))
    (hpart : PartWithin limit.toNat s s') :
    BothFail (orFail .evaluation (traced limit s)) (orFail .evaluation (traced limit s')) ∨
      CollideWithin limit.toNat s s' := by
  cases h1 : traced limit s with
  | error e =>
    cases h2 : traced limit s' with
    | error e' => exact .inl ⟨⟨_, rfl⟩, ⟨_, rfl⟩⟩
    | ok a' => exact absurd h (by simp [h1, h2, orFail, Agree])
  | ok a =>
    cases h2 : traced limit s' with
    | error e' => exact absurd h (by simp [h1, h2, orFail, Agree])
    | ok a' =>
      rw [h1, h2] at h
      obtain ⟨_, _, hr, _⟩ := traced_eq_ok h1
      obtain ⟨_, _, hr', _⟩ := traced_eq_ok h2
      obtain ⟨n, t, t', hn, ht, ht', hp⟩ := hpart
      obtain ⟨u, u', d, hu⟩ := collide_of_runs hr hr' h.1 ht ht' hp
      exact .inr ⟨n + 1, u, u', d, hn, hu⟩

/-- Functions of one strict encoding, called under one reference with arguments of one strict
encoding, agree if both runs fail or if they do not part before the limit, and only then, but for
states whose digests collide. -/
theorem functions_agree_unless_parting {p q x y : Value} {c d : Json} (hp : p.Regular)
    (hq : q.Regular) (hx : x.Regular) (hy : y.Regular) (fp : p.isFunction) (fq : q.isFunction)
    (cp : p.encodeStrict = .ok c) (cq : q.encodeStrict = .ok c) (dx : x.encodeStrict = .ok d)
    (dy : y.encodeStrict = .ok d) (limit : Int) (ref : Option String) :
    let s := State.call p [x] (ref.elim p.encode .str)
    let s' := State.call q [y] (ref.elim q.encode .str)
    let r := evaluator limit p [x] (ref.elim p.encode .str)
    let r' := evaluator limit q [y] (ref.elim q.encode .str)
    (BothFail r r' ∨ ¬PartWithin limit.toNat s s' → Agree r r') ∧
      (Agree r r' → BothFail r r' ∨ ¬PartWithin limit.toNat s s' ∨
        CollideWithin limit.toNat s s') := by
  intro s s' r r'
  have hpq : p.encode = q.encode := by
    rw [encode_eq_of_encodeStrict cp, encode_eq_of_encodeStrict cq]
  have hxy : x.encode = y.encode := by
    rw [encode_eq_of_encodeStrict dx, encode_eq_of_encodeStrict dy]
  have hs : s.Regular := ⟨hp, List.forall_mem_singleton.2 hx⟩
  have hs' : s'.Regular := ⟨hq, List.forall_mem_singleton.2 hy⟩
  have hprune : s.prune = s'.prune := by
    simp only [s, s', State.prune, List.map_cons, List.map_nil, prune_eq_iff.2 hpq,
      prune_eq_iff.2 hxy, hpq]
  constructor
  · rintro (⟨⟨e, he⟩, e', he'⟩ | hpart)
    · rw [he, he']
      exact ⟨kind_of_evaluator fp he, kind_of_evaluator fq he'⟩
    · have hrun : pruneRun (traced limit s) = pruneRun (traced limit s') := by
        rw [traced, State.digest_eq_of_prune_eq hprune, traced]
        cases s'.digest with
        | error e => rfl
        | ok before => exact (runTraced_agree hs hs' hprune).resolve_left hpart
      exact agree_of_pruneRun_eq (fun _ => kind_of_evaluator fp) (fun _ => kind_of_evaluator fq)
        hrun
  · intro hagree
    by_cases hpart : PartWithin limit.toNat s s'
    · exact (fail_or_collide_of_agree hagree hpart).imp_right .inr
    · exact .inr (.inl hpart)

/-- A function that compares two functions it has captured; the second was made where `bindings`
hold, of which its code reads none. -/
def comparing (bindings : Env) : Value :=
  closure ["x"] (ofList [sym "eq", sym "f", sym "g"])
    [("f", closure ["y"] (sym "y") []), ("g", closure ["y"] (sym "y") bindings)]

theorem regular_comparing {bindings : Env} (h : bindings.Regular) :
    (comparing bindings).Regular := by
  have hx : Text.IsNormal "x" := by decide
  have hy : Text.IsNormal "y" := by decide
  have hf : Text.IsNormal "f" := by decide
  have hg : Text.IsNormal "g" := by decide
  have heq : Text.IsNormal "eq" := by decide
  have hlt : "f" < "g" := by decide
  have hid : ∀ {env : Env}, env.Regular → (closure ["y"] (sym "y") env).Regular :=
    fun he => regular_closure.2 ⟨by simpa using hy, hy, he⟩
  refine regular_closure.2 ⟨by simpa using hx, ⟨heq, hf, hg, trivial⟩, ?_, ?_⟩
  · exact List.pairwise_pair.2 hlt
  · exact List.forall_mem_cons.2 ⟨⟨hf, hid Env.regular_empty⟩,
      List.forall_mem_singleton.2 ⟨hg, hid h⟩⟩

/-- One binding, which no code of `comparing` reads. -/
def padding : Env :=
  [("a", num 1)]

theorem regular_padding : padding.Regular :=
  ⟨List.pairwise_singleton _ _, List.forall_mem_singleton.2 ⟨by decide, trivial⟩⟩

theorem comparing_agree_unless_parting :
    let p := comparing padding
    let q := comparing []
    let s := State.call p [nil] p.encode
    let s' := State.call q [nil] q.encode
    let r := evaluator defaultLimit p [nil] p.encode
    let r' := evaluator defaultLimit q [nil] q.encode
    p ≠ q ∧ p.Regular ∧ q.Regular ∧ p.encodeStrict = .ok q.encode ∧ q.encodeStrict = .ok q.encode ∧
      (BothFail r r' ∨ ¬PartWithin defaultLimit.toNat s s' → Agree r r') ∧
      (Agree r r' → BothFail r r' ∨ ¬PartWithin defaultLimit.toNat s s' ∨
        CollideWithin defaultLimit.toNat s s') :=
  have hp := regular_comparing regular_padding
  have hq := regular_comparing Env.regular_empty
  ⟨by decide, hp, hq, rfl, rfl, functions_agree_unless_parting (x := nil) (y := nil) hp hq trivial
    trivial rfl rfl rfl rfl rfl rfl defaultLimit none⟩

theorem evaluator_eq_ok_of_run (limit : Int) (fn : Value) (args : List Value) (ref : Json)
    (v : Value) (hs : (State.call fn args ref).hashable)
    (ht : (trail limit.toNat (.call fn args ref)).all State.hashable)
    (hv : (run limit limit.toNat 0 (.call fn args ref)).toOption.map Evaluation.value = some v) :
    ∃ r, evaluator limit fn args ref = .ok r ∧ r.value = v := by
  have h := traced_eq_evaluation hs (List.all_eq_true.1 ht)
  rw [← h] at hv
  rw [evaluator, apply]
  cases hr : traced limit (.call fn args ref) with
  | error e => exact absurd hv (by simp [hr, Except.map, Except.toOption])
  | ok r => exact ⟨r, rfl, by simpa [hr, Except.map, Except.toOption] using hv⟩

/-- Two functions of one encoding give different truth values. -/
theorem equal_encodings_disagree :
    let p := comparing padding
    let q := comparing []
    p.Regular ∧ q.Regular ∧ p.isFunction ∧ q.isFunction ∧ p.encodeStrict = .ok q.encode ∧
      q.encodeStrict = .ok q.encode ∧
      ¬Agree (evaluator defaultLimit p [nil] p.encode)
        (evaluator defaultLimit q [nil] q.encode) := by
  refine ⟨regular_comparing regular_padding, regular_comparing Env.regular_empty, rfl, rfl, rfl,
    rfl, fun hagree => ?_⟩
  obtain ⟨r, hr, hv⟩ := evaluator_eq_ok_of_run defaultLimit (comparing padding) [nil]
    (comparing padding).encode nil (by decide +kernel) (by decide +kernel) (by decide +kernel)
  obtain ⟨r', hr', hv'⟩ := evaluator_eq_ok_of_run defaultLimit (comparing []) [nil]
    (comparing []).encode t (by decide +kernel) (by decide +kernel) (by decide +kernel)
  rw [hr, hr'] at hagree
  have he := hagree.2
  rw [hv, hv'] at he
  exact absurd he (by simp [Value.t, Value.encode, parts, pack])

end CommitChain.Machine
