import CommitChain.Failure
import CommitChain.Proofs.Json.Canonical
import CommitChain.Proofs.Machine.Endings
import CommitChain.Proofs.Machine.Failing
import CommitChain.Proofs.Machine.Returns

/-!
# The wording of faults

A fault may show a value, and then it has no wording unless the value can be printed.  A reduction
shows only values that stand in the encoding of its state, so after a digest of the state has been
made its fault has a wording.
-/

namespace CommitChain

open CommitChain.Json

/-! ## Printed values -/

namespace Value

theorem writable_pack {items : List Json} {last : Json} :
    (pack (items, last)).Writable ↔ (∀ x ∈ items, x.Writable) ∧ last.Writable := by
  cases items with
  | nil => simp [pack]
  | cons x xs =>
    have hs : (Json.str "cons").Writable := rfl
    simp only [pack, writable_arr, List.forall_mem_cons, List.not_mem_nil, false_implies,
      implies_true, and_true, hs, true_and]

theorem writable_cons {a b : Value} :
    (cons a b).encode.Writable ↔ a.encode.Writable ∧ b.encode.Writable := by
  have hb : b.encode.Writable ↔ (∀ x ∈ b.parts.1, x.Writable) ∧ b.parts.2.Writable := writable_pack
  rw [encode, parts, writable_pack, List.forall_mem_cons, hb, and_assoc]
  rfl

/-- A value prints if the integers in its tree can be written. -/
theorem render_isSome (inTail : Bool) (v : Value) (h : v.encode.Writable) :
    (render inTail v).isSome := by
  fun_induction render inTail v with
  | case1 inTail n =>
    have hn : n.natAbs < Text.integerBound := by
      simpa [Writable, canonicalForm, integersFit] using writable_arr.1 h (.int n) (by simp)
    simp [Text.integerText?, hn]
  | case2 | case3 | case4 => rfl
  | case5 inTail name x ih =>
    have hx := ih (writable_cons.1 (writable_cons.1 h).2).1
    obtain ⟨text, ht⟩ := Option.isSome_iff_exists.1 hx
    simp [ht]
  | case6 inTail a b _ ha hb =>
    obtain ⟨first, hf⟩ := Option.isSome_iff_exists.1 (ha (writable_cons.1 h).1)
    obtain ⟨rest, hr⟩ := Option.isSome_iff_exists.1 (hb (writable_cons.1 h).2)
    simp [hf, hr]
  | case7 inTail params body env ih =>
    obtain ⟨text, ht⟩ := Option.isSome_iff_exists.1 (ih (writable_arr.1 h _ (by simp [encode])))
    simp [ht]
  | case8 inTail name params body env ih =>
    obtain ⟨text, ht⟩ := Option.isSome_iff_exists.1 (ih (writable_arr.1 h _ (by simp [encode])))
    simp [ht]
  | case9 inTail expr env ih =>
    obtain ⟨text, ht⟩ := Option.isSome_iff_exists.1 (ih (writable_arr.1 h _ (by simp [encode])))
    simp [ht]

end Value

namespace Machine

/-! ## What a fault shows -/

/-- The value in the wording of a fault. -/
def Fault.shown? : Fault → Option Value
  | notAnExpression v | improperForm v | malformed _ v | notNumber _ v | notPair _ v
  | notFunction v => some v
  | _ => none

theorem Fault.message?_isSome_iff {e : Fault} :
    e.message?.isSome ↔ ∀ v, e.shown? = some v → v.print?.isSome := by
  cases e <;> simp [Fault.message?, Fault.shown?]

/-- The values that the next reduction works on. -/
def State.used : State → List Value
  | eval expr _ _ => [expr]
  | ret value (.operands _ _ done _ :: _) => done ++ [value]
  | ret value _ => [value]
  | call fn _ _ => [fn]
  | halt value => [value]

theorem Rejects.shown {env : Env} {e w : Value} {f : Fault} (h : Rejects env e f)
    (hw : f.shown? = some w) : w = e := by
  cases h <;> cases hw <;> rfl

theorem Refuses.shown {target : Option Builtin} {vs : List Value} {f : Fault} {w : Value}
    (h : Refuses target vs f) (hw : f.shown? = some w) : w ∈ vs := by
  cases h with
  | notNumber operand =>
    cases hw
    exact operand
  | notPair operand =>
    cases hw
    exact operand
  | notFunction args value =>
    cases hw
    exact List.mem_cons_self
  | _ => cases hw

/-- A fault shows a value that the reduction was to work on. -/
theorem State.shown_of_step {s : State} {e : Fault} {w : Value} (h : s.step = .error e)
    (hw : e.shown? = some w) :
    w ∈ s.used ∧ ∀ fn args ref, s = .call fn args ref → fn.isFunction = false := by
  cases faulty_of_step h with
  | eval rejects => exact ⟨rejects.shown hw ▸ List.mem_cons_self, nofun⟩
  | operate refuses => exact ⟨refuses.shown hw, nofun⟩
  | call refuses =>
    cases refuses with
    | notFunction args value =>
      cases hw
      refine ⟨List.mem_cons_self, fun fn' args' ref' he => ?_⟩
      cases he
      exact value
    | argumentCount => cases hw
  | sequence => cases hw
  | halt => cases hw

/-! ## Calls -/

/-- Whether the state is the call that a run starts from. -/
def State.isCall : State → Bool
  | call .. => true
  | _ => false

theorem State.Above.isCall {s : State} {k : Stack} (h : s.Above k) : s.isCall = false := by
  cases s with
  | call => exact h.elim
  | _ => rfl

/-- No reduction gives a call. -/
theorem State.isCall_of_step {s t : State} {family : Family} (h : s.step = .ok (t, family)) :
    t.isCall = false := by
  cases s with
  | eval expr env stack =>
    obtain ⟨u, hu, he⟩ := map_eq_ok.1 h
    cases he
    exact (evalExpr_eq_ok.1 hu).above.isCall
  | ret value stack =>
    cases stack with
    | nil =>
      cases h
      rfl
    | cons p k => exact (above_of_resume h).isCall
  | call fn args ref =>
    have hoperate : operate none (fn :: args) [] = .ok (t, family) := h
    exact (operate_eq_ok.1 ⟨family, hoperate⟩).above.isCall
  | halt value => exact absurd h step_halt_ne_ok

/-! ## Encoded states -/

theorem canonicalForm_stateJson (control stack : List Json) :
    (stateJson control stack).canonicalForm
      = stateJson (control.map canonicalForm) (stack.map canonicalForm) := by
  have hc : Text.normalize "control" = "control" := by decide
  have hk : Text.normalize "kont" = "kont" := by decide
  have hne : ¬"kont" = "control" := by decide
  have hlt : ¬"kont" < "control" := by decide
  simp [stateJson, canonicalForm, canonicalMembers, canonicalItems_eq_map, sortMembers,
    Keyed.sorted, Keyed.insert, hc, hk, hne, hlt]

theorem writable_stateJson {control stack : List Json} :
    (stateJson control stack).Writable
      ↔ (∀ x ∈ control, x.Writable) ∧ ∀ x ∈ stack, x.Writable := by
  rw [Writable, canonicalForm_stateJson]
  simp only [stateJson, integersFit, integersFitMembers, Bool.and_eq_true, integersFitItems_iff,
    List.forall_mem_map, and_true]
  rfl

/-- The values that a reduction works on stand in the encoding of the state. -/
theorem State.writable_of_used {s : State} (h : s.encode.Writable) (hc : s.isCall = false) :
    ∀ v ∈ s.used, v.encode.Writable := by
  cases s with
  | eval expr env stack =>
    exact List.forall_mem_singleton.2 ((writable_stateJson.1 h).1 _ (by simp))
  | ret value stack =>
    obtain ⟨hcontrol, hstack⟩ := writable_stateJson.1 h
    have hv := hcontrol value.encode (by simp)
    unfold used
    split
    case h_2 value' target waiting done env rest he =>
      obtain ⟨rfl, rfl⟩ := State.ret.inj he
      have hp := writable_arr.1 (hstack (Pending.operands target waiting done env).encode (by simp))
        (encodeAll done) (by simp)
      have hd := List.forall_mem_map.1 (writable_arr.1 hp)
      exact List.forall_mem_append.2 ⟨hd, List.forall_mem_singleton.2 hv⟩
    case h_3 he =>
      obtain ⟨rfl, rfl⟩ := State.ret.inj he
      exact List.forall_mem_singleton.2 hv
    all_goals exact absurd ‹_› (by simp)
  | call fn args ref => exact absurd hc (by simp [isCall])
  | halt value => exact List.forall_mem_singleton.2 ((writable_stateJson.1 h).1 _ (by simp))

/-- The fault of a state that has a digest has a wording. -/
theorem State.message_of_step {s : State} {e : Fault} {d : Hash.Digest} (hd : s.digest = .ok d)
    (hc : ∀ fn args ref, s = .call fn args ref → fn.isFunction) (h : s.step = .error e) :
    e.message?.isSome := by
  refine Fault.message?_isSome_iff.2 fun w hw => ?_
  obtain ⟨hu, hcall⟩ := State.shown_of_step h hw
  refine Value.render_isSome false w (State.writable_of_used ?_ ?_ w hu)
  · rw [State.digest] at hd
    split at hd
    next hs => exact (digest_eq_ok.1 hs).2.1
    next => exact absurd hd (by simp)
  · cases s with
    | call fn args ref => exact absurd (hc fn args ref rfl) (by simp [hcall fn args ref rfl])
    | _ => rfl

theorem State.message_of_digest {s : State} {e : Fault} (h : s.digest = .error e) :
    e.message?.isSome := by
  rw [State.digest] at h
  split at h
  · exact absurd h (by simp)
  · cases h
    rfl

/-! ## Runs -/

/-- The fault of a traced run that stops has a wording. -/
theorem Stops.message {n : Nat} {s : State} {e : Fault} {d : Hash.Digest} (h : Stops n s e)
    (hd : s.digest = .ok d) (hc : ∀ fn args ref, s = .call fn args ref → fn.isFunction) :
    e.message?.isSome := by
  induction h generalizing d with
  | reduction fails => exact State.message_of_step hd hc fails.fault
  | digest _ digest => exact State.message_of_digest digest
  | later first digest _ ih =>
    refine ih digest fun fn args ref hn => ?_
    exact absurd (State.isCall_of_step first) (by simp [hn, State.isCall])

/-- The fault of the traced call of a function has a wording. -/
theorem message_of_apply {limit : Int} {fn : Value} {args : List Value} {ref : Json} {e : Fault}
    (hf : fn.isFunction) (h : apply limit fn args ref = .error e) : e.message?.isSome := by
  rcases stops_of_traced h with hd | ⟨before, hd, rfl | ⟨n, -, stops⟩⟩
  · exact State.message_of_digest hd
  · rfl
  · refine stops.message hd fun fn' args' ref' he => ?_
    cases he
    exact hf

end Machine

end CommitChain
