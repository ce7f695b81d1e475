import CommitChain.Proofs.Machine.Agreement
import CommitChain.Proofs.Value.Numbers

/-!
# Runs whose numbers can be written

If the numbers of a state fit and so does every number that the run from it returns, the numbers of
all states of the run fit (`numbersFit_of_mem_trail`): a reduction makes no other numbers than the
one it returns.  Such states have digests, so that a traced run comes to what a run without frames
comes to (`evaluator_eq_ok_of_returned`).
-/

namespace CommitChain.Machine

open CommitChain.Text

/-- The numbers that at most `fuel` reductions return. -/
def returned (fuel : Nat) (s : State) : List Int :=
  (trail fuel s).filterMap State.returned?

/-! ## States -/

/-- What a state refers to a function by has a canonical text. -/
def State.RefersPlainly : State → Prop
  | call _ _ ref => ref.Plain
  | _ => True

/-- All numbers in a state fit, and it refers to functions by what can be written. -/
structure State.NumbersFit (s : State) : Prop where
  values : s.Has .numbersFit
  reference : s.RefersPlainly

theorem State.Above.refersPlainly {k : Stack} {s : State} (h : s.Above k) : s.RefersPlainly := by
  cases s with
  | call => exact h.elim
  | _ => trivial

/-- No reduction leads to a call. -/
theorem refersPlainly_of_step {s : State} {r : State × Family} (h : s.step = .ok r) :
    r.1.RefersPlainly := by
  cases s with
  | eval e env stack =>
    obtain ⟨t, ht, rfl⟩ := map_eq_ok.1 h
    exact (evalExpr_eq_ok.1 ht).above.refersPlainly
  | ret v stack =>
    cases stack with
    | nil =>
      cases h
      trivial
    | cons p stack =>
      have habove : r.1.Above stack := above_of_resume h
      exact habove.refersPlainly
  | call fn args ref =>
    have hoperate : operate none (fn :: args) [] = .ok (r.1, r.2) := h
    exact (operate_eq_ok.1 ⟨r.2, hoperate⟩).above.refersPlainly
  | halt v => exact absurd h step_halt_ne_ok

/-- A reduction of a state whose numbers fit gives such a state if the number that it returns
fits. -/
theorem State.NumbersFit.step {s : State} {r : State × Family} (hs : s.NumbersFit)
    (h : s.step = .ok r) (hr : ∀ n ∈ r.1.returned?, n.natAbs < integerBound) : r.1.NumbersFit :=
  ⟨hs.values.step h hr, refersPlainly_of_step h⟩

/-! ## Runs -/

/-- All states of a run have numbers that fit if the first one has and the numbers that are returned
fit. -/
theorem numbersFit_of_mem_trail {fuel : Nat} {s t : State} (hs : s.NumbersFit)
    (hr : ∀ n ∈ returned fuel s, n.natAbs < integerBound) (ht : t ∈ trail fuel s) :
    t.NumbersFit := by
  induction fuel generalizing s with
  | zero => exact absurd ht List.not_mem_nil
  | succ fuel ih =>
    have hreturned : ∀ u ∈ trail (fuel + 1) s, ∀ n ∈ u.returned?, n.natAbs < integerBound :=
      fun u hu n hn => hr n (List.mem_filterMap.2 ⟨u, hu, hn⟩)
    rw [trail] at ht hreturned
    split at ht
    next next family hstep =>
      simp only [hstep] at hreturned
      obtain ⟨hfirst, hrest⟩ := List.forall_mem_cons.1 hreturned
      have hnext : next.NumbersFit := hs.step hstep hfirst
      obtain rfl | ht := List.mem_cons.1 ht
      · exact hnext
      · refine ih hnext (fun n hn => ?_) ht
        obtain ⟨u, hu, hn⟩ := List.mem_filterMap.1 hn
        exact hrest u hu n hn
    · exact absurd ht List.not_mem_nil

/-! ## Digests -/

theorem plain_encodeAll {vs : List Value} (h : ∀ v ∈ vs, v.NumbersFit) : (encodeAll vs).Plain :=
  Json.plain_arr (List.forall_mem_map.2 fun v hv => (h v hv).plain_encode)

theorem plain_scope (keep : List String) {env : Env} (h : env.NumbersFit) :
    (Value.encodeScope keep env).Plain :=
  Value.plain_scopeParts keep fun p hp => (h p hp).plain_encode

theorem Pending.Has.plain_encode {p : Pending} (h : p.Has .numbersFit) : p.encode.Plain := by
  cases p with
  | operands target waiting done env =>
    obtain ⟨hwaiting, hdone, he⟩ := h
    simp [Pending.encode, Json.plain_arr_iff, Json.plain_str, plain_encodeAll hwaiting,
      plain_encodeAll hdone, plain_scope _ he]
  | branch yes no env =>
    obtain ⟨hyes, hno, he⟩ := h
    simp [Pending.encode, Json.plain_arr_iff, Json.plain_str, hyes.plain_encode, hno.plain_encode,
      plain_scope _ he]
  | bind name waiting body env =>
    obtain ⟨_, hwaiting, hbody, he⟩ := h
    have hpairs : ∀ p ∈ waiting, (Json.arr [.str p.1, p.2.encode]).Plain := by
      intro p hp
      simp [Json.plain_arr_iff, Json.plain_str, (hwaiting p hp).2.plain_encode]
    have hrow := Json.plain_arr (List.forall_mem_map.2 hpairs)
    refine Json.plain_arr ?_
    simp [Json.plain_str, hrow, hbody.plain_encode, plain_scope _ he]
  | sequence waiting env =>
    obtain ⟨hwaiting, he⟩ := h
    simp [Pending.encode, Json.plain_arr_iff, Json.plain_str, plain_encodeAll hwaiting,
      plain_scope _ he]

theorem plain_stateJson {control stack : List Json} (hc : ∀ x ∈ control, x.Plain)
    (hs : ∀ x ∈ stack, x.Plain) : (stateJson control stack).Plain :=
  Json.plain_obj (by simpa [Json.plain_arr_iff] using And.intro hc hs)

theorem State.NumbersFit.plain_encode {s : State} (h : s.NumbersFit) : s.encode.Plain := by
  have hstack : ∀ {stack : Stack}, (∀ p ∈ stack, p.Has .numbersFit) →
      ∀ x ∈ stack.map Pending.encode, x.Plain :=
    fun hs => List.forall_mem_map.2 fun p hp => (hs p hp).plain_encode
  have hnone : ∀ x ∈ ([] : List Json), x.Plain := fun x hx => absurd hx List.not_mem_nil
  obtain ⟨h, href⟩ := h
  cases s with
  | eval e env stack =>
    obtain ⟨hx, he, hs⟩ := h
    exact plain_stateJson (by simp [Json.plain_str, hx.plain_encode, plain_scope _ he]) (hstack hs)
  | ret v stack =>
    exact plain_stateJson (by simp [Json.plain_str, h.1.plain_encode]) (hstack h.2)
  | call fn args ref =>
    have href : ref.Plain := href
    have hargs : (Json.arr (args.map Value.encode)).Plain := plain_encodeAll h.2
    exact plain_stateJson (by simp [Json.plain_str, href, hargs]) hnone
  | halt v =>
    have hv := Value.NumbersFit.plain_encode h
    exact plain_stateJson (by simp [Json.plain_str, hv]) hnone

/-- A state whose numbers fit has a digest. -/
theorem State.NumbersFit.hashable {s : State} (h : s.NumbersFit) : s.hashable = true := by
  rw [State.hashable, h.plain_encode.1 "", Json.writable_of_integersFit h.plain_encode.2]
  rfl

/-- A call that returns within the limit returns to the chain as well, if its numbers and those that
are returned on the way fit. -/
theorem evaluator_eq_ok_of_returned {limit : Int} {fn v : Value} {args : List Value} {ref : Json}
    (hs : (State.call fn args ref).NumbersFit)
    (hr : ∀ n ∈ returned limit.toNat (.call fn args ref), n.natAbs < integerBound)
    (hv : (run limit limit.toNat 0 (.call fn args ref)).toOption.map Evaluation.value = some v) :
    ∃ r, evaluator limit fn args ref = .ok r ∧ r.value = v := by
  refine evaluator_eq_ok_of_run limit fn args ref v hs.hashable ?_ hv
  exact List.all_eq_true.2 fun t ht => (numbersFit_of_mem_trail hs hr ht).hashable

end CommitChain.Machine
