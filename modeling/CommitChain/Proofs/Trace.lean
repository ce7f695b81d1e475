import CommitChain.Proofs.Machine.Reductions
import CommitChain.Proofs.Machine.Regular

/-!
# Frames of a run

`Leads z fs w` says that frames lead from the digest `z` to the digest `w`, each starting where the
one before it ended.  The frames of a run lead from the digest of its first state to the digest of
the state that halts with its value; they are numbered in a row and belong to known families.
-/

namespace CommitChain

open CommitChain.Hash

/-- The frames lead from `z` to `w`, each starting where the one before it ended. -/
def Leads (z : Digest) : List Frame → Digest → Prop
  | [], w => z = w
  | f :: fs, w => f.input = z ∧ Leads f.output fs w

theorem leads_append {z w : Digest} {fs gs : List Frame} :
    Leads z (fs ++ gs) w ↔ ∃ m, Leads z fs m ∧ Leads m gs w := by
  induction fs generalizing z with
  | nil =>
    constructor
    · exact fun h => ⟨z, rfl, h⟩
    · rintro ⟨m, rfl, h⟩
      exact h
  | cons f fs ih =>
    rw [List.cons_append, Leads, ih]
    constructor
    · rintro ⟨hf, m, hfs, hgs⟩
      exact ⟨m, ⟨hf, hfs⟩, hgs⟩
    · rintro ⟨m, ⟨hf, hfs⟩, hgs⟩
      exact ⟨hf, m, hfs, hgs⟩

/-- The last frame ends where the frames lead. -/
theorem Leads.output_getLast? {z w : Digest} {fs : List Frame} (h : Leads z fs w) :
    ∀ last ∈ fs.getLast?, last.output = w := by
  intro last hl
  obtain ⟨init, rfl⟩ := List.getLast?_eq_some_iff.1 hl
  obtain ⟨m, _, _, hw⟩ := leads_append.1 h
  exact hw

/-- Frames tell where they lead from and to. -/
theorem Leads.ends {z w : Digest} {fs : List Frame} (h : Leads z fs w) (hne : fs ≠ []) :
    fs.head?.map Frame.input = some z ∧ fs.getLast?.map Frame.output = some w := by
  cases fs with
  | nil => exact absurd rfl hne
  | cons f rest =>
    have hlast := h.output_getLast?
    rw [List.getLast?_cons] at hlast ⊢
    exact ⟨congrArg some h.1, congrArg some (hlast _ rfl)⟩

/-- Frames tell where they lead from. -/
theorem Leads.start_unique {z z' w w' : Digest} {fs : List Frame} (h : Leads z fs w)
    (h' : Leads z' fs w') (hne : fs ≠ []) : z = z' := by
  cases fs with
  | nil => exact absurd rfl hne
  | cons f fs => exact h.1.symm.trans h'.1

/-- Linked frames lead from where the first one starts. -/
theorem Linked.leads {f : Frame} {fs : List Frame} (h : Linked (f :: fs)) :
    ∃ w, Leads f.input (f :: fs) w := by
  induction fs generalizing f with
  | nil => exact ⟨f.output, rfl, rfl⟩
  | cons g fs ih =>
    obtain ⟨w, hw⟩ := ih h.2
    exact ⟨w, rfl, by rwa [h.1]⟩

theorem Leads.linked {z w : Digest} {fs : List Frame} (h : Leads z fs w) : Linked fs := by
  induction fs generalizing z with
  | nil => trivial
  | cons f fs ih =>
    cases fs with
    | nil => trivial
    | cons g fs => exact ⟨h.2.1.symm, ih h.2⟩

namespace Machine

variable {k : Nat} {before : Digest} {s : State} {frames : List Frame} {v : Value}

theorem Runs.leads (h : Runs k before s frames v) (hs : s.digest = .ok before) :
    ∃ w, (State.halt v).digest = .ok w ∧ Leads before frames w := by
  induction h with
  | halt k before v => exact ⟨before, hs, rfl⟩
  | step first digest rest ih =>
    obtain ⟨w, hw, hl⟩ := ih digest
    exact ⟨w, hw, rfl, hl⟩

theorem Runs.numbered (h : Runs k before s frames v) :
    frames.map Frame.index = List.range' k frames.length := by
  induction h with
  | halt k before v => rfl
  | step first digest rest ih => rw [List.map_cons, ih, List.length_cons, List.range'_succ]

theorem Runs.family (h : Runs k before s frames v) :
    ∀ f ∈ frames, ∃ family : Family, f.family = family.name := by
  induction h with
  | halt k before v => exact fun _ hf => absurd hf List.not_mem_nil
  | step first digest rest ih => exact List.forall_mem_cons.2 ⟨⟨_, rfl⟩, ih⟩

theorem Runs.ne_nil (h : Runs k before s frames v) (hs : ∀ v, s ≠ .halt v) : frames ≠ [] := by
  cases h with
  | halt => exact absurd rfl (hs v)
  | step first digest rest => exact List.cons_ne_nil _ _

/-- A run from a regular state comes to a regular value. -/
theorem Runs.regular (h : Runs k before s frames v) (hs : s.Regular) : v.Regular := by
  induction h with
  | halt k before v => exact hs
  | step first digest rest ih => exact ih (hs.step first)

end Machine

end CommitChain
