import CommitChain.Proofs.Machine.Rules
import CommitChain.Proofs.Value.Hereditary

/-!
# The machine keeps hereditary properties

A state *has* a hereditary property if all its values have it.  The machine makes its values from
those that it has, and numbers are the only ones that it computes: a reduction of a state with the
property gives such a state again, if the number that it returns has the property (`State.Has.step`).
-/

namespace CommitChain

variable {H : Hereditary}

namespace Machine

variable (H) in
/-- All values in what remains to be done have the property. -/
def Pending.Has : Pending → Prop
  | operands _ waiting done env =>
    (∀ v ∈ waiting, H.value v) ∧ (∀ v ∈ done, H.value v) ∧ H.scope env
  | branch thenExpr elseExpr env => H.value thenExpr ∧ H.value elseExpr ∧ H.scope env
  | bind name waiting body env =>
    H.name name ∧ (∀ p ∈ waiting, H.name p.1 ∧ H.value p.2) ∧ H.value body ∧ H.scope env
  | sequence waiting env => (∀ v ∈ waiting, H.value v) ∧ H.scope env

variable (H) in
/-- All values in a state have the property. -/
def State.Has : State → Prop
  | eval expr env stack => H.value expr ∧ H.scope env ∧ ∀ p ∈ stack, p.Has H
  | ret value stack => H.value value ∧ ∀ p ∈ stack, p.Has H
  | call fn args _ => H.value fn ∧ ∀ v ∈ args, H.value v
  | halt value => H.value value

/-- The number that a state returns, if it returns one. -/
def State.returned? : State → Option Int
  | ret (.num n) _ => some n
  | _ => none

variable {env : Env} {stack : Stack} {s : State}

/-! ## Rows -/

theorem has_bindState {body : Value} {pairs : List (String × Value)} (he : H.scope env)
    (hb : H.value body) (hp : ∀ p ∈ pairs, H.name p.1 ∧ H.value p.2)
    (hs : ∀ p ∈ stack, p.Has H) : (bindState env body stack pairs).Has H := by
  cases pairs with
  | nil => exact ⟨hb, he, hs⟩
  | cons p rest =>
    obtain ⟨⟨hname, hvalue⟩, hrest⟩ := List.forall_mem_cons.1 hp
    exact ⟨hvalue, he, List.forall_mem_cons.2 ⟨⟨hname, hrest, hb, he⟩, hs⟩⟩

theorem has_sequenceState {e : Value} {es : List Value} (he : H.scope env)
    (hes : ∀ v ∈ e :: es, H.value v) (hs : ∀ p ∈ stack, p.Has H) :
    (sequenceState env stack e es).Has H := by
  obtain ⟨hfirst, hrest⟩ := List.forall_mem_cons.1 hes
  cases es with
  | nil => exact ⟨hfirst, he, hs⟩
  | cons => exact ⟨hfirst, he, List.forall_mem_cons.2 ⟨⟨hrest, he⟩, hs⟩⟩

theorem scope_of_bindsFunctions {scope : Env} {pairs : List (String × Value)}
    (h : BindsFunctions env pairs scope) (he : H.scope env)
    (hp : ∀ p ∈ pairs, H.name p.1 ∧ H.value p.2) : H.scope scope := by
  induction h with
  | nil => exact he
  | cons distinct others ih =>
    obtain ⟨⟨hname, hlambda⟩, hrest⟩ := List.forall_mem_cons.1 hp
    obtain ⟨hparams, hbody⟩ : _ ∧ _ := by simpa using H.args hlambda
    have hfix := H.fix.2 ⟨hname, H.nameList.1 hparams, hbody, he⟩
    exact ih (H.bind he hname hfix) hrest

/-! ## Reductions -/

theorem Enters.has {e : Value} (h : Enters env stack e s) (hx : H.value e) (he : H.scope env)
    (hs : ∀ p ∈ stack, p.Has H) : s.Has H := by
  have push : ∀ {q : Pending}, q.Has H → ∀ p ∈ q :: stack, p.Has H :=
    fun hq => List.forall_mem_cons.2 ⟨hq, hs⟩
  have none_done : ∀ v ∈ ([] : List Value), H.value v := fun v hv => absurd hv List.not_mem_nil
  cases h with
  | num | str | nil => exact ⟨hx, hs⟩
  | t => exact ⟨H.ofBool true, hs⟩
  | symbol free bound => exact ⟨H.close (H.lookup he bound), hs⟩
  | quote => exact ⟨H.args hx _ List.mem_cons_self, hs⟩
  | lambda =>
    obtain ⟨hparams, hbody⟩ : _ ∧ _ := by simpa using H.args hx
    exact ⟨H.closure.2 ⟨H.nameList.1 hparams, hbody, he⟩, hs⟩
  | letIn =>
    obtain ⟨hpairs, hbody⟩ : _ ∧ _ := by simpa using H.args hx
    exact has_bindState he hbody (H.bindingList.1 hpairs) hs
  | letrecIn body functions =>
    obtain ⟨hpairs, hbody⟩ : _ ∧ _ := by simpa using H.args hx
    exact ⟨hbody, scope_of_bindsFunctions functions he (H.bindingList.1 hpairs), hs⟩
  | branch test yes no =>
    obtain ⟨htest, hyes, hno⟩ : H.value test ∧ H.value yes ∧ ∀ v ∈ no.toList, H.value v := by
      simpa using H.args hx
    refine ⟨htest, he, push ⟨hyes, ?_, he⟩⟩
    cases no with
    | none => exact H.nil
    | some no => exact hno no (by simp)
  | beginNone => exact ⟨H.nil, hs⟩
  | begin => exact has_sequenceState he (H.args hx) hs
  | delay => exact ⟨H.thunk.2 ⟨H.args hx _ List.mem_cons_self, he⟩, hs⟩
  | builtin =>
    obtain ⟨hfirst, hrest⟩ := List.forall_mem_cons.1 (H.args hx)
    exact ⟨hfirst, he, push ⟨hrest, none_done, he⟩⟩
  | apply =>
    obtain ⟨hfn, hargs⟩ := H.cons.1 hx
    exact ⟨hfn, he, push ⟨H.ofList.1 hargs, none_done, he⟩⟩

/-- The value of a builtin is a number, or it is made of what the operands are made of. -/
theorem value_of_gives {b : Builtin} {vs : List Value} {v : Value} (h : b.Gives vs v)
    (hvs : ∀ w ∈ vs, H.value w) : (∃ n, v = .num n) ∨ H.value v := by
  cases h with
  | add | sub | mul | div | mod => exact .inl ⟨_, rfl⟩
  | carNil | cdrNil => exact .inr H.nil
  | cons v w => exact .inr (H.cons.2 ⟨hvs v (by simp), hvs w (by simp)⟩)
  | car => exact .inr (H.cons.1 (hvs _ List.mem_cons_self)).1
  | cdr => exact .inr (H.cons.1 (hvs _ List.mem_cons_self)).2
  | _ => exact .inr (H.ofBool _)

theorem Operates.has {target : Option Builtin} {vs : List Value}
    (h : Operates stack target vs s) (hvs : ∀ v ∈ vs, H.value v)
    (hs : ∀ p ∈ stack, p.Has H) (hr : ∀ n ∈ s.returned?, H.value (.num n)) : s.Has H := by
  cases h with
  | builtin gives =>
    obtain ⟨n, rfl⟩ | hv := value_of_gives gives hvs
    · exact ⟨hr n rfl, hs⟩
    · exact ⟨hv, hs⟩
  | force =>
    obtain ⟨hinner, hscope⟩ := H.thunk.1 (hvs _ List.mem_cons_self)
    exact ⟨hinner, hscope, hs⟩
  | forceValue => exact ⟨hvs _ List.mem_cons_self, hs⟩
  | apply closes count =>
    obtain ⟨hfn, hargs⟩ := List.forall_mem_cons.1 hvs
    obtain ⟨hparams, hbody, hscope⟩ := H.closure.1 (closes ▸ H.close hfn)
    refine ⟨hbody, H.bindAll hscope fun p hp => ?_, hs⟩
    obtain ⟨hname, hvalue⟩ := List.of_mem_zip hp
    exact ⟨hparams _ hname, hargs _ hvalue⟩

theorem has_of_resume {v : Value} {r : State × Family} (hv : H.value v)
    (hs : ∀ p ∈ stack, p.Has H) (h : resume v stack = .ok r)
    (hr : ∀ n ∈ r.1.returned?, H.value (.num n)) : r.1.Has H := by
  cases stack with
  | nil =>
    cases h
    exact hv
  | cons p stack =>
    obtain ⟨hp, hstack⟩ := List.forall_mem_cons.1 hs
    cases p with
    | operands target waiting done env =>
      obtain ⟨hwaiting, hdone, he⟩ := hp
      have hdone' : ∀ w ∈ done ++ [v], H.value w :=
        List.forall_mem_append.2 ⟨hdone, List.forall_mem_singleton.2 hv⟩
      cases waiting with
      | nil => exact (operate_eq_ok.1 ⟨r.2, h⟩).has hdone' hstack hr
      | cons e waiting =>
        cases h
        obtain ⟨hx, hwaiting⟩ := List.forall_mem_cons.1 hwaiting
        exact ⟨hx, he, List.forall_mem_cons.2 ⟨⟨hwaiting, hdone', he⟩, hstack⟩⟩
    | branch yes no env =>
      obtain ⟨hyes, hno, he⟩ := hp
      cases h
      refine ⟨?_, he, hstack⟩
      split
      · exact hyes
      · exact hno
    | bind name waiting body env =>
      obtain ⟨hname, hwaiting, hbody, he⟩ := hp
      rw [resume_bind] at h
      cases h
      exact has_bindState (H.bind he hname hv) hbody hwaiting hstack
    | sequence waiting env =>
      cases waiting with
      | nil => cases h
      | cons e waiting =>
        rw [resume_sequence] at h
        cases h
        exact has_sequenceState hp.2 hp.1 hstack

/-- A reduction of a state with the property gives such a state, if the number that it returns has
it. -/
theorem State.Has.step {r : State × Family} (hs : s.Has H) (h : s.step = .ok r)
    (hr : ∀ n ∈ r.1.returned?, H.value (.num n)) : r.1.Has H := by
  cases s with
  | eval e env stack =>
    obtain ⟨hx, he, hstack⟩ := hs
    obtain ⟨t, ht, rfl⟩ := map_eq_ok.1 h
    exact (evalExpr_eq_ok.1 ht).has hx he hstack
  | ret v stack => exact has_of_resume hs.1 hs.2 h hr
  | call fn args ref =>
    -- a call is what an application with all its operands does on the empty stack
    have hoperate : operate none (fn :: args) [] = .ok (r.1, r.2) := h
    exact (operate_eq_ok.1 ⟨r.2, hoperate⟩).has (List.forall_mem_cons.2 hs)
      (fun _ hp => absurd hp List.not_mem_nil) hr
  | halt v => cases h

end Machine

end CommitChain
