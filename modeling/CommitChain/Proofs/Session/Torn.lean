import CommitChain.Proofs.Session.Clear

/-!
# Torn steps

The line of a step is written before the new head.  If the head then cannot be written, the step
fails and the chain stays where it was, but the line stays too: the directory is torn from the chain
in memory.  It is then opened one step ahead, and once a further step succeeds two lines have one
number and the directory is found faulted (`step_agrees_unless_torn`).
-/

namespace CommitChain

namespace Session

open Archive

variable {dir : Path} {lines : List StepRecord} {saved : Option (Commitment × List Int)}
  {s s' : Session} {config : Config}

/-- Whether the file of steps holds anything but the history. -/
def Torn (dir : Path) (s : Session) : Prop :=
  s.disk.find? (stepsFile dir) ≠ stepsEntry s.ledger.chain.history

/-- A directory holds more lines than there are records, or just those. -/
theorem Backed.torn_iff (h : Backed dir lines saved s) :
    Torn dir s ↔ lines ≠ s.ledger.chain.history := by
  rw [Torn, show s.disk.find? (stepsFile dir) = stepsEntry lines from h.kept.holds.steps]
  refine not_congr ⟨fun he => ?_, fun he => by rw [he]⟩
  have hrecorded := h.kept.matched.recorded
  have hwritten := h.kept.holds.written
  have hbytes := congrArg (fun entry => Text.readLines (Disk.content entry)) he
  simp only [content_stepsEntry] at hbytes
  rw [readLines_stepsText hwritten,
    readLines_stepsText fun r hr => hwritten r (hrecorded.subset hr)] at hbytes
  have hlength := congrArg (fun read : Text.Lines => read.good.length) hbytes
  simp only [List.length_map] at hlength
  exact (hrecorded.eq_of_length hlength.symm).symm

/-- A directory with the file of a chain is that of an active one. -/
theorem Backed.started (h : Backed dir lines saved s)
    (hc : s.disk.contains (chainFile dir) = true) :
    ∃ k proven head, saved = some (k, proven) ∧ s.ledger.chain.standing = .active head := by
  have hsaved : saved.isSome = true := h.kept.holds.contains_chainFile.symm.trans hc
  obtain ⟨⟨k, proven⟩, rfl⟩ := Option.isSome_iff_exists.1 hsaved
  obtain ⟨head, hs, _⟩ := h.kept.matched.head k proven rfl
  exact ⟨k, proven, head, rfl, hs⟩

end Session

end CommitChain
