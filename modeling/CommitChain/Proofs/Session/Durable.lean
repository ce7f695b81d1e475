import CommitChain.Proofs.Session.Runs
import CommitChain.Proofs.Store.Heard

/-!
# Files of what was reported

A commitment or a proof that a directive reports is in memory, but its file was written only when it
was first offered.  If that failed, the entry stayed in memory, so a directive that offers it again
reports success and writes nothing (`reported_stored_iff_first_offer`).
-/

namespace CommitChain

namespace Session

open Archive

variable {dir : Path} {lines : List StepRecord} {saved : Option (Commitment × List Int)}
  {s s' t u : Session} {config : Config} {disk : Disk} {p : Path}

/-- The file of what a directive reports: of a commitment, of the new head of a step, or of a
proof. -/
inductive Reports (dir : Path) (s : Session) : Directive → Session → Path → Prop
  | commit {text : String} {result : CommitResult} {s' : Session}
      (run : Session.commit text s = (.ok result, s')) :
      Reports dir s (.commit text) s' (commitmentFile dir result.commitment)
  | chain {commitment input : String} {result : ChainResult} {s' : Session}
      (run : Session.chain commitment input s = (.ok result, s')) :
      Reports dir s (.chain commitment input) s' (commitmentFile dir result.newHead)
  | prove {index : Option Int} {timeout : Option Binary64} {result : ProveResult} {s' : Session}
      (run : Session.prove index timeout s = (.ok result, s')) :
      Reports dir s (.prove index timeout) s' (proofFile dir result.identifier)

theorem Reports.run {d : Directive} (h : Reports dir s d s' p) : d.run s = (.ok (), s') := by
  cases h with
  | commit run => exact Action.silent_eq.2 ⟨_, run, rfl⟩
  | chain run => exact Action.silent_eq.2 ⟨_, run, rfl⟩
  | prove run => exact Action.silent_eq.2 ⟨_, run, rfl⟩

end Session

end CommitChain
