import CommitChain.Action

/-!
# Reasoning about actions

An action that is put together from others succeeds if its parts succeed one after the other, and
keeps whatever each of them keeps.
-/

namespace CommitChain.Action

variable {σ τ α β : Type}

/-! ## What an action comes to -/

theorem bind_ok {x : Action σ α} {f : α → Action σ β} {s s' : σ} {a : α} (h : x s = (.ok a, s')) :
    (x >>= f) s = f a s' := by
  show andThen x f s = _
  rw [andThen, h]

theorem bind_congr {x y : Action σ α} {s : σ} (h : x s = y s) (f : α → Action σ β) :
    (x >>= f) s = (y >>= f) s := by
  show andThen x f s = andThen y f s
  rw [andThen, andThen, h]

theorem bind_error {x : Action σ α} {f : α → Action σ β} {s s' : σ} {e : Failure}
    (h : x s = (.error e, s')) : (x >>= f) s = (.error e, s') := by
  show andThen x f s = _
  rw [andThen, h]

theorem of_ok_bind (a : α) (f : α → Action σ β) (s : σ) : (of (.ok a) >>= f) s = f a s :=
  rfl

theorem of_error_bind (e : Failure) (f : α → Action σ β) (s : σ) :
    (of (.error e) >>= f) s = (.error e, s) :=
  rfl

theorem state_bind (f : σ → Action σ β) (s : σ) : (state >>= f) s = f s s :=
  rfl

theorem bind_eq_ok {x : Action σ α} {f : α → Action σ β} {s t : σ} {b : β} :
    (x >>= f) s = (.ok b, t) ↔ ∃ a s', x s = (.ok a, s') ∧ f a s' = (.ok b, t) := by
  show andThen x f s = _ ↔ _
  rw [andThen]
  split
  next a s' h =>
    refine ⟨fun hf => ⟨a, s', h, hf⟩, ?_⟩
    rintro ⟨a', t', hx, hf⟩
    cases h.symm.trans hx
    exact hf
  next e s' h => simp [h]

theorem bind_eq_error {x : Action σ α} {f : α → Action σ β} {s t : σ} {e : Failure} :
    (x >>= f) s = (.error e, t)
      ↔ x s = (.error e, t) ∨ ∃ a s', x s = (.ok a, s') ∧ f a s' = (.error e, t) := by
  show andThen x f s = _ ↔ _
  rw [andThen]
  split
  next a s' h =>
    refine ⟨fun hf => .inr ⟨a, s', h, hf⟩, ?_⟩
    rintro (hx | ⟨a', t', hx, hf⟩)
    · cases h.symm.trans hx
    · cases h.symm.trans hx
      exact hf
  next e s' h => simp [h]

theorem pure_eq_ok {a b : α} {s t : σ} :
    (pure a : Action σ α) s = (.ok b, t) ↔ a = b ∧ s = t := by
  show done a s = _ ↔ _
  simp [done]

theorem pure_ne_error {a : α} {s t : σ} {e : Failure} :
    (pure a : Action σ α) s ≠ (.error e, t) := by
  show done a s ≠ _
  simp [done]

theorem of_eq {r r' : Except Failure α} {s t : σ} : of r s = (r', t) ↔ r = r' ∧ s = t := by
  simp [of]

theorem state_eq_ok {s t u : σ} : state s = (.ok u, t) ↔ s = u ∧ s = t := by
  simp [state]

theorem on_eq {part : σ → τ} {replace : σ → τ → σ} {x : Action τ α} {r : Except Failure α}
    {s u : σ} :
    on part replace x s = (r, u) ↔ ∃ t, x (part s) = (r, t) ∧ replace s t = u := by
  constructor
  · intro h
    obtain ⟨h1, h2⟩ := Prod.ext_iff.1 h
    exact ⟨(x (part s)).2, Prod.ext h1 rfl, h2⟩
  · rintro ⟨t, ht, hu⟩
    rw [on, ht]
    exact congrArg (r, ·) hu

/-! ## What an action keeps -/

/-- Whether a property of the state outlasts an action, however it ends. -/
def Keeps (P : σ → Prop) (x : Action σ α) : Prop :=
  ∀ s, P s → P (x s).2

variable {P : σ → Prop}

theorem Keeps.bind {x : Action σ α} {f : α → Action σ β} (hx : Keeps P x)
    (hf : ∀ a, Keeps P (f a)) : Keeps P (x >>= f) := by
  intro s hs
  have h := hx s hs
  show P (andThen x f s).2
  rw [andThen]
  split
  next a s' he => exact hf a s' (by rwa [he] at h)
  next e s' he => rwa [he] at h

/-- An outcome at hand is known in what follows it. -/
theorem Keeps.of_bind {r : Except Failure α} {f : α → Action σ β}
    (hf : ∀ a, r = .ok a → Keeps P (f a)) : Keeps P (of r >>= f) := by
  intro s hs
  cases r with
  | ok a => exact hf a rfl s hs
  | error e => exact hs

theorem Keeps.after {x : Action σ α} {s s' : σ} {r : Except Failure α} (hx : Keeps P x)
    (h : x s = (r, s')) (hs : P s) : P s' := by
  have hkept := hx s hs
  rwa [h] at hkept

theorem keeps_pure (a : α) : Keeps P (pure a : Action σ α) :=
  fun _ hs => hs

theorem keeps_of (r : Except Failure α) : Keeps P (of r) :=
  fun _ hs => hs

theorem keeps_fail (e : Failure) : Keeps P (fail e : Action σ α) :=
  fun _ hs => hs

theorem keeps_state : Keeps P (state : Action σ σ) :=
  fun _ hs => hs

end CommitChain.Action
