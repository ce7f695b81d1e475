import CommitChain.Proofs.Machine.Agreement
import CommitChain.Proofs.Value.Decoding

/-!
# Encodings determine reductions

Two states of one encoding have one pruned form (`State.prune_eq_of_encode_eq`), unless they are
calls, which name their function by a reference.  Since a reduction reads nothing but the pruned
form, they go on in the same way until two values are compared by `eq`: the environments that the
encoding of a state shows hold all that the rest of the run can read.
-/

namespace CommitChain

open CommitChain.Value

/-! ## Printed forms -/

namespace Value

/-- A printed form shows no environment. -/
theorem render_prune (inTail : Bool) (v : Value) : render inTail v.prune = render inTail v := by
  fun_induction render inTail v with
  | case1 | case2 | case3 | case4 => rfl
  | case5 inTail name x ih => simp only [prune, render, ih]
  | case6 inTail a b hshape iha ihb =>
    have hshape' : ∀ name x, a.prune = sym name → b.prune = cons x nil → False := by
      intro name x ha hb
      cases a <;> simp only [prune, reduceCtorEq] at ha
      cases b with
      | cons y rest =>
        cases rest <;> simp only [prune, cons.injEq, reduceCtorEq, and_false] at hb
        exact hshape _ _ rfl rfl
      | _ => simp only [prune, reduceCtorEq] at hb
    rw [prune, render, iha, ihb]
    · exact hshape'
  | case7 inTail params body env ih => simp only [prune, render, ih]
  | case8 inTail name params body env ih => simp only [prune, render, ih]
  | case9 inTail expr env ih => simp only [prune, render, ih]

end Value

namespace Machine

theorem Fault.message?_prune (e : Fault) : e.prune.message? = e.message? := by
  cases e <;> simp only [Fault.prune, Fault.message?, print?, render_prune]

/-! ## From encodings to pruned forms -/

/-- If one image determines another, then it does so for lists. -/
theorem map_eq_of_map_eq {α β γ : Type} {f : α → β} {g : α → γ}
    (h : ∀ {a b}, f a = f b → g a = g b) {l l' : List α} (hl : l.map f = l'.map f) :
    l.map g = l'.map g := by
  induction l generalizing l' with
  | nil => rw [List.map_eq_nil_iff.1 hl.symm]
  | cons a l ih =>
    obtain ⟨b, rest, rfl, hb, hrest⟩ := List.map_eq_cons_iff.1 hl.symm
    rw [List.map_cons, List.map_cons, h hb.symm, ih hrest.symm]

theorem free_eq {v w : Value} (h : v.prune = w.prune) : v.freeVariables = w.freeVariables := by
  rw [← freeVariables_prune, h, freeVariables_prune]

theorem flatMap_free_eq {vs ws : List Value} (h : vs.map prune = ws.map prune) :
    vs.flatMap freeVariables = ws.flatMap freeVariables := by
  rw [← flatMap_freeVariables_prune, h, flatMap_freeVariables_prune]

theorem map_prune_eq {vs ws : List Value} (h : encodeAll vs = encodeAll ws) :
    vs.map prune = ws.map prune :=
  map_eq_of_map_eq prune_eq_iff.2 (Json.arr.inj h)

theorem map_row_prune_eq {waiting waiting' : List (String × Value)}
    (h : (waiting.map fun p => Json.arr [.str p.1, p.2.encode])
      = waiting'.map fun p => Json.arr [.str p.1, p.2.encode]) :
    (waiting.map fun p => (p.1, p.2.prune)) = waiting'.map fun p => (p.1, p.2.prune) := by
  refine map_eq_of_map_eq (fun {p q} hp => ?_) h
  simp only [Json.arr.injEq, List.cons.injEq, Json.str.injEq, and_true] at hp
  rw [hp.1, prune_eq_iff.2 hp.2]

theorem scope_eq {keep keep' : List String} {env env' : Env} (hk : keep = keep')
    (h : encodeScope keep env = encodeScope keep' env') :
    pruneScope keep env = pruneScope keep' env' := by
  subst hk
  exact pruneScope_eq_of_scopeParts_eq (Json.obj.inj h)

/-- No builtin goes by the name of an application. -/
theorem target_inj {b c : Option Builtin}
    (h : b.elim "apply" Builtin.name = c.elim "apply" Builtin.name) : b = c := by
  have apply : ∀ b : Builtin, b.name ≠ "apply" := fun b => by cases b <;> decide
  cases b with
  | none =>
    cases c with
    | none => rfl
    | some c => exact absurd h.symm (apply c)
  | some b =>
    cases c with
    | none => exact absurd h (apply b)
    | some c => exact b.ofName?_name.symm.trans ((congrArg _ h).trans c.ofName?_name)

theorem Pending.prune_eq_of_encode_eq {p q : Pending} (h : p.encode = q.encode) :
    p.prune = q.prune := by
  -- what remains of different kinds has different tags
  cases p <;> cases q <;> simp only [Pending.encode, Json.arr.injEq, List.cons.injEq,
    Json.str.injEq, String.reduceEq, false_and, true_and, and_true] at h
  case operands.operands =>
    obtain ⟨ht, hw, hd, hs⟩ := h
    have hw := map_prune_eq hw
    simp only [Pending.prune, target_inj ht, hw, map_prune_eq hd, scope_eq (flatMap_free_eq hw) hs]
  case branch.branch =>
    obtain ⟨hy, hn, hs⟩ := h
    have hy := prune_eq_iff.2 hy
    have hn := prune_eq_iff.2 hn
    have hfree := congrArg₂ (· ++ ·) (free_eq hy) (free_eq hn)
    simp only [Pending.prune, hy, hn, scope_eq hfree hs]
  case bind.bind name waiting body env name' waiting' body' env' =>
    obtain ⟨rfl, hw, hb, hs⟩ := h
    have hw := map_row_prune_eq hw
    have hb := prune_eq_iff.2 hb
    have hfree : freeInRow body.freeVariables waiting = freeInRow body'.freeVariables waiting' := by
      rw [← freeInRow_prune, hw, freeInRow_prune, free_eq hb]
    simp only [Pending.prune, hw, hb, scope_eq (congrArg _ hfree) hs]
  case sequence.sequence =>
    obtain ⟨hw, hs⟩ := h
    have hw := map_prune_eq hw
    simp only [Pending.prune, hw, scope_eq (flatMap_free_eq hw) hs]

/-- States of one encoding have one pruned form, unless they are calls. -/
theorem State.prune_eq_of_encode_eq {s s' : State} (hs : s.isCall = false)
    (h : s.encode = s'.encode) : s.prune = s'.prune := by
  cases s <;> cases s' <;> simp only [State.encode, callState, haltState, stateJson, Json.obj.injEq,
    List.cons.injEq, Prod.mk.injEq, Json.arr.injEq, Json.str.injEq, String.reduceEq, isCall,
    Bool.true_eq_false, false_and, true_and, and_true] at h hs
  case eval.eval =>
    obtain ⟨⟨hx, he⟩, hk⟩ := h
    have hx := prune_eq_iff.2 hx
    simp only [State.prune, hx, scope_eq (free_eq hx) he,
      map_eq_of_map_eq Pending.prune_eq_of_encode_eq hk]
  case ret.ret =>
    obtain ⟨hv, hk⟩ := h
    simp only [State.prune, prune_eq_iff.2 hv, map_eq_of_map_eq Pending.prune_eq_of_encode_eq hk]
  case halt.halt => simp only [State.prune, prune_eq_iff.2 h]

/-! ## Pruned states are regular -/

theorem regular_pruneScope {env : Env} (h : env.Regular) (keep : List String) :
    Env.Regular (pruneScope keep env) := by
  refine ⟨isSorted_pruneScope keep h.1, fun q hq => ?_⟩
  obtain ⟨p, hp, hname, hvalue⟩ := mem_pruneScope hq
  exact ⟨hname ▸ (h.2 p hp).1, hvalue ▸ regular_prune (h.2 p hp).2⟩

theorem Pending.Regular.prune {p : Pending} (h : p.Regular) : p.prune.Regular := by
  have all : ∀ {vs : List Value}, (∀ v ∈ vs, v.Regular) → ∀ v ∈ vs.map Value.prune, v.Regular :=
    fun hvs => List.forall_mem_map.2 fun v hv => regular_prune (hvs v hv)
  cases p with
  | operands target waiting done env =>
    obtain ⟨hw, hd, he⟩ := h
    exact ⟨all hw, all hd, regular_pruneScope he _⟩
  | branch yes no env =>
    obtain ⟨hy, hn, he⟩ := h
    exact ⟨regular_prune hy, regular_prune hn, regular_pruneScope he _⟩
  | bind name waiting body env =>
    obtain ⟨hname, hw, hb, he⟩ := h
    have hw' := fun p hp => And.intro (hw p hp).1 (regular_prune (hw p hp).2)
    exact ⟨hname, List.forall_mem_map.2 hw', regular_prune hb, regular_pruneScope he _⟩
  | sequence waiting env => exact ⟨all h.1, regular_pruneScope h.2 _⟩

theorem State.Regular.prune {s : State} (h : s.Regular) : s.prune.Regular := by
  have all : ∀ {k : Stack}, (∀ p ∈ k, p.Regular) → ∀ p ∈ k.map Pending.prune, p.Regular :=
    fun hk => List.forall_mem_map.2 fun p hp => (hk p hp).prune
  cases s with
  | eval e env stack =>
    obtain ⟨hx, he, hk⟩ := h
    exact ⟨regular_prune hx, regular_pruneScope he _, all hk⟩
  | ret v stack => exact ⟨regular_prune h.1, all h.2⟩
  | call fn args ref =>
    exact ⟨regular_prune h.1, List.forall_mem_map.2 fun v hv => regular_prune (h.2 v hv)⟩
  | halt v => exact regular_prune h

theorem Steps.regular {n : Nat} {s t : State} (h : Steps n s t) (hs : s.Regular) : t.Regular := by
  induction h with
  | zero => exact hs
  | succ first _ ih => exact ih (hs.step first)

/-! ## Reductions -/

/-- Whether the next reduction neither compares two values by `eq` nor looks up a symbol `nil`. -/
def State.Plain : State → Prop
  | ret _ (.operands (some .same) [] _ _ :: _) => False
  | eval (.sym "nil") _ _ => False
  | _ => True

/-- Whether two reductions come to the same as far as it shows: both fail in one way and with one
wording, or they are of one family and their states have one encoding. -/
def Alike : Except Fault (State × Family) → Except Fault (State × Family) → Prop
  | .ok (t, family), .ok (t', family') => family = family' ∧ t.encode = t'.encode
  | .error e, .error e' =>
    (Failure.evaluation e).kind = (Failure.evaluation e').kind ∧ e.message? = e'.message?
  | _, _ => False

theorem alike_of_pruneNext_eq {r r' : Except Fault (State × Family)}
    (h : pruneNext r = pruneNext r') : Alike r r' := by
  cases r with
  | error e =>
    cases r' with
    | error e' =>
      have hm : e.message? = e'.message? := by
        rw [← e.message?_prune, Except.error.inj h, e'.message?_prune]
      refine ⟨?_, hm⟩
      rw [Failure.kind, Failure.kind, Failure.message?, Failure.message?, hm]
      rfl
    | ok r' => exact absurd h (by simp [pruneNext])
  | ok r =>
    cases r' with
    | error e' => exact absurd h (by simp [pruneNext])
    | ok r' =>
      obtain ⟨hp, hfamily⟩ := Prod.mk.inj (Except.ok.inj h)
      exact ⟨hfamily, State.encode_eq_of_prune_eq hp⟩

/-- Plain states do not part. -/
theorem State.Plain.step {s s' : State} (hplain : s.Plain) (hs : s.Regular) (hs' : s'.Regular)
    (h : s.prune = s'.prune) : pruneNext s.step = pruneNext s'.step := by
  refine (State.partsFrom_or_step hs hs' h).resolve_left fun hparts => ?_
  unfold State.PartsFrom at hparts
  split at hparts
  · exact hplain
  · exact hplain
  · exact hparts

/-- A row of plain states is followed from every state of the same pruned form. -/
theorem Steps.follow {n : Nat} {s t : State} (h : Steps n s t) {s' : State} (hs : s.Regular)
    (hs' : s'.Regular) (hp : s.prune = s'.prune)
    (hplain : ∀ m < n, ∀ u, Steps m s u → u.Plain) :
    ∃ t', Steps n s' t' ∧ t.prune = t'.prune := by
  induction h generalizing s' with
  | zero s => exact ⟨s', .zero s', hp⟩
  | @succ n s u t family first rest ih =>
    have hnext := (hplain 0 (Nat.succ_pos n) s (.zero s)).step hs hs' hp
    cases hstep : s'.step with
    | error e => exact absurd hnext (by simp [first, hstep, pruneNext])
    | ok r =>
      obtain ⟨u', family'⟩ := r
      have hu : u.prune = u'.prune ∧ family = family' := by
        simpa [first, hstep, pruneNext] using hnext
      obtain ⟨t', hrest, ht⟩ := ih (hs.step first) (hs'.step hstep) hu.1 fun m hm w hw =>
        hplain (m + 1) (Nat.succ_lt_succ hm) w (.succ first hw)
      exact ⟨t', .succ hstep hrest, ht⟩

/-- States of one encoding go on alike, but for calls and where the next reduction is not plain.  So
what the encoding keeps of the environments suffices: as long as its reductions are plain, the run
of a state is that of its pruned form. -/
theorem states_of_one_encoding_go_on_alike {s s' : State} (hs : s.Regular) (hs' : s'.Regular)
    (hcall : s.isCall = false) (h : s.encode = s'.encode) (hplain : s.Plain) :
    Alike s.step s'.step ∧
      ∀ n t, Steps n s t → (∀ m < n, ∀ u, Steps m s u → u.Plain) →
        ∃ t', Steps n s.prune t' ∧ t.encode = t'.encode ∧ (t.Plain → Alike t.step t'.step) := by
  refine ⟨alike_of_pruneNext_eq (hplain.step hs hs' (State.prune_eq_of_encode_eq hcall h)), ?_⟩
  intro n t hrun hrow
  obtain ⟨t', hrun', ht⟩ := hrun.follow hs hs.prune s.prune_prune.symm hrow
  refine ⟨t', hrun', State.encode_eq_of_prune_eq ht, fun hend => ?_⟩
  exact alike_of_pruneNext_eq (hend.step (hrun.regular hs) (hrun'.regular hs.prune) ht)

/-- The body of a `let` in an environment with some bindings in front, of which it reads none. -/
def bodyOfLet (unread : Env) : State :=
  .ret (num 1) [.bind "x" [("y", sym "x")] (ofList [sym "+", sym "y", sym "z"])
    (unread ++ [("z", num 2)])]

theorem bodyOfLet_goes_on_alike :
    let s := bodyOfLet padding
    let s' := bodyOfLet []
    s ≠ s' ∧ s.Regular ∧ s'.Regular ∧ s.isCall = false ∧ s.encode = s'.encode ∧ s.Plain ∧
      Alike s.step s'.step ∧
        ∀ n t, Steps n s t → (∀ m < n, ∀ u, Steps m s u → u.Plain) →
          ∃ t', Steps n s.prune t' ∧ t.encode = t'.encode ∧ (t.Plain → Alike t.step t'.step) := by
  have hx : Text.IsNormal "x" := by decide
  have hy : Text.IsNormal "y" := by decide
  have hz : Text.IsNormal "z" := by decide
  have hplus : Text.IsNormal "+" := by decide
  have hregular : ∀ {unread : Env}, Env.Regular (unread ++ [("z", num 2)]) →
      (bodyOfLet unread).Regular :=
    fun he => ⟨trivial, List.forall_mem_singleton.2 ⟨hx, List.forall_mem_singleton.2 ⟨hy, hx⟩,
      ⟨hplus, hy, hz, trivial⟩, he⟩⟩
  have hend : ∀ p ∈ [("z", num 2)], Text.IsNormal p.1 ∧ p.2.Regular :=
    List.forall_mem_singleton.2 ⟨hz, trivial⟩
  have hs : (bodyOfLet padding).Regular := hregular ⟨List.pairwise_pair.2 (by decide),
    List.forall_mem_cons.2 ⟨⟨by decide, trivial⟩, hend⟩⟩
  have hs' : (bodyOfLet []).Regular := hregular ⟨List.pairwise_singleton _ _, hend⟩
  exact ⟨by simp [bodyOfLet, padding], hs, hs', rfl, rfl, trivial,
    states_of_one_encoding_go_on_alike hs hs' rfl rfl trivial⟩

end Machine

end CommitChain
