import CommitChain.Failure
import Mathlib.Data.List.Forall2

/-!
# Outcomes

When a computation that is put together from others succeeds, and when it fails.
-/

namespace CommitChain

variable {ε α β : Type}

theorem map_eq_ok {x : Except ε α} {f : α → β} {b : β} :
    x.map f = .ok b ↔ ∃ a, x = .ok a ∧ f a = b := by
  cases x <;> simp [Except.map]

theorem bind_eq_ok {x : Except ε α} {f : α → Except ε β} {b : β} :
    (x >>= f) = .ok b ↔ ∃ a, x = .ok a ∧ f a = .ok b := by
  cases x <;> simp [bind, Except.bind]

theorem ok_bind (a : α) (f : α → Except ε β) : (Except.ok a >>= f) = f a :=
  rfl

theorem map_eq_error {x : Except ε α} {f : α → β} {e : ε} : x.map f = .error e ↔ x = .error e := by
  cases x <;> simp [Except.map]

theorem bind_eq_error {x : Except ε α} {f : α → Except ε β} {e : ε} :
    (x >>= f) = .error e ↔ x = .error e ∨ ∃ a, x = .ok a ∧ f a = .error e := by
  cases x <;> simp [bind, Except.bind]

theorem toOption_eq_some {x : Except ε α} {a : α} : x.toOption = some a ↔ x = .ok a := by
  cases x <;> simp [Except.toOption]

/-- Outcomes that are gathered are those of the members. -/
theorem mapM_eq_ok {f : α → Except ε β} {l : List α} {ys : List β} (h : l.mapM f = .ok ys) :
    (∀ a ∈ l, ∃ b ∈ ys, f a = .ok b) ∧ ∀ b ∈ ys, ∃ a ∈ l, f a = .ok b := by
  induction l generalizing ys with
  | nil =>
    cases h
    exact ⟨fun a ha => absurd ha List.not_mem_nil, fun b hb => absurd hb List.not_mem_nil⟩
  | cons a rest ih =>
    rw [List.mapM_cons] at h
    obtain ⟨b, hb, h⟩ := bind_eq_ok.1 h
    obtain ⟨bs, hbs, h⟩ := bind_eq_ok.1 h
    cases h
    obtain ⟨hleft, hright⟩ := ih hbs
    constructor
    · refine List.forall_mem_cons.2 ⟨⟨b, List.mem_cons_self, hb⟩, fun a' ha' => ?_⟩
      obtain ⟨b', hb', he⟩ := hleft a' ha'
      exact ⟨b', List.mem_cons_of_mem _ hb', he⟩
    · refine List.forall_mem_cons.2 ⟨⟨a, List.mem_cons_self, hb⟩, fun b' hb' => ?_⟩
      obtain ⟨a', ha', he⟩ := hright b' hb'
      exact ⟨a', List.mem_cons_of_mem _ ha', he⟩

/-- Outcomes that are gathered are those of the members one by one. -/
theorem forall₂_of_mapM {f : α → Except ε β} {l : List α} {ys : List β} (h : l.mapM f = .ok ys) :
    List.Forall₂ (fun a b => f a = .ok b) l ys := by
  induction l generalizing ys with
  | nil =>
    cases h
    exact .nil
  | cons a rest ih =>
    rw [List.mapM_cons] at h
    obtain ⟨b, hb, h⟩ := bind_eq_ok.1 h
    obtain ⟨bs, hbs, h⟩ := bind_eq_ok.1 h
    cases h
    exact .cons hb (ih hbs)

/-- Outcomes are gathered if every member has one. -/
theorem exists_mapM {f : α → Except ε β} {l : List α} (h : ∀ a ∈ l, ∃ b, f a = .ok b) :
    ∃ ys, l.mapM f = .ok ys := by
  induction l with
  | nil => exact ⟨[], rfl⟩
  | cons a rest ih =>
    obtain ⟨b, hb⟩ := h a List.mem_cons_self
    obtain ⟨bs, hbs⟩ := ih fun a' ha' => h a' (List.mem_cons_of_mem _ ha')
    exact ⟨b :: bs, by rw [List.mapM_cons, hb, ok_bind, hbs, ok_bind]; rfl⟩

theorem orFail_eq_ok {wrap : ε → Failure} {x : Except ε α} {a : α} :
    orFail wrap x = .ok a ↔ x = .ok a := by
  cases x <;> simp [orFail]

/-! ## Failures of the disk -/

/-- An outcome that is not a failure of the disk. -/
def Unhindered (r : Except Failure α) : Prop :=
  ∀ fault, r ≠ .error (.disk fault)

theorem unhindered_ok (a : α) : Unhindered (.ok a : Except Failure α) :=
  fun _ => by simp

theorem unhindered_map {r : Except Failure α} {f : α → β} :
    Unhindered (r.map f) ↔ Unhindered r := by
  cases r <;> simp [Unhindered, Except.map]

theorem not_unhindered (fault : Disk.Fault) :
    ¬Unhindered (.error (.disk fault) : Except Failure α) :=
  fun h => h fault rfl

end CommitChain
