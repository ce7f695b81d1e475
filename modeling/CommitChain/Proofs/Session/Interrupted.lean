import CommitChain.Proofs.Session.Mirrored
import CommitChain.Proofs.Session.Stopping

/-!
# Interrupted directives

A process may stop between any two changes of a directive.  What it leaves is opened as the session
before the directive or as the one after it; a step of a fresh chain may also leave the chain
started (`interrupted_is_before_or_after`).  The last line of the steps tells the two apart: it goes
on from the head that was saved exactly if the new head was not saved after it.
-/

namespace CommitChain

namespace Archive

variable {dir : Path} {lines : List StepRecord} {saved : Option (Commitment × List Int)}
  {disk left : Disk} {n : Nat}

/-! ## What is left -/

/-- What may be left of a disk: directories may be missing where nothing stands in them. -/
structure Left (disk left : Disk) : Prop where
  found : ∀ p, left.find? p = disk.find? p ∨
    disk.find? p = some .directory ∧ left.find? p = none
  above : ∀ p q, left.contains p = true → q ∈ Disk.ancestors p → disk.contains q = true →
    left.contains q = true

theorem Holds.ne_directory (h : Holds dir lines saved disk) {p : Path} (hp : OwnFile dir p) :
    disk.find? p ≠ some .directory := by
  intro he
  cases hp with
  | steps =>
    rw [h.steps] at he
    cases lines <;> exact absurd he (by simp [stepsEntry])
  | chain =>
    cases saved with
    | none => exact absurd ((h.absent rfl).symm.trans he) (by simp)
    | some pair =>
      obtain ⟨bytes, _, hentry⟩ := h.chain pair.1 pair.2 rfl
      exact absurd (hentry.symm.trans he) (by simp)
  | payload name =>
    obtain ⟨c, v, x, hfile⟩ := h.payloads name _ he
    obtain ⟨bytes, hentry, _⟩ := hfile.bytes
    exact absurd hentry (by simp)
  | proof name =>
    obtain ⟨_, bytes, _, _, hentry⟩ := h.proofs name _ he
    exact absurd hentry (by simp)

/-- The files of a store directory are left as they are. -/
theorem Left.find?_own (hl : Left disk left) (h : Holds dir lines saved disk) {p : Path}
    (hp : OwnFile dir p) : left.find? p = disk.find? p :=
  (hl.found p).resolve_right fun hd => h.ne_directory hp hd.1

theorem Left.contains_commitmentFile (hl : Left disk left) (h : Holds dir lines saved disk)
    {c : Commitment} (hc : disk.contains (commitmentFile dir c) = true) :
    left.contains (commitmentFile dir c) = true :=
  (congrArg Option.isSome (hl.find?_own h (.payload _))).trans hc

theorem Left.holds (hl : Left disk left) (h : Holds dir lines saved disk) :
    Holds dir lines saved left where
  written := h.written
  made p hp hc := by
    have hc' : disk.contains p = true := by rwa [Disk.contains, ← hl.find?_own h hp]
    exact hl.above p dir hc hp.mem_ancestors (h.made p hp hc')
  steps := (hl.find?_own h .steps).trans h.steps
  absent hs := (hl.find?_own h .chain).trans (h.absent hs)
  chain head proven hs := by
    rw [hl.find?_own h .chain]
    exact h.chain head proven hs
  payloads name entry he := h.payloads name entry (by rwa [← hl.find?_own h (.payload name)])
  proofs name entry he := h.proofs name entry (by rwa [← hl.find?_own h (.proof name)])

theorem left_stopAt (disk : Disk) : Left disk (disk.stopAt n) where
  found _ := .inl rfl
  above _ _ _ _ hq := hq

/-- What a ledger has written is on the disk when that is stopped. -/
theorem Kept.stopAt {limit : Int} {l : Ledger Disk} (h : Kept dir limit lines saved l) (n : Nat) :
    Kept dir limit lines saved (l.stopAt n) where
  equipped := { h.equipped with
    sound := ⟨h.equipped.sound.payloads, h.equipped.sound.chain⟩ }
  holds := (left_stopAt _).holds h.holds
  matched := h.matched
  filed := ⟨h.filed.payloads, h.filed.proofs, h.filed.identifiers⟩

end Archive

namespace Session

open Archive

variable {dir : Path} {lines : List StepRecord} {saved : Option (Commitment × List Int)}
  {s s' : Session} {config : Config} {disk left : Disk} {n : Nat}

theorem Mirrored.stopAt (h : Mirrored dir s) (n : Nat) : Mirrored dir (s.stopAt n) :=
  ⟨⟨h.backed.root, h.backed.kept.stopAt n⟩, h.stored.payloads, h.stored.proofs⟩

/-! ## What it is opened as -/

/-- Whether opening a directory gives the standing, the records and the proved steps of a chain,
unless one of the records is nested too deeply to be read. -/
def Gives (config : Config) (dir : Path) (disk : Disk) (c : Chain Disk) : Prop :=
  ((∀ r ∈ c.history, r.Legible) → ∃ t, make config (some dir) disk = .ok t ∧
      t.ledger.chain.standing = c.standing ∧ t.ledger.chain.history = c.history ∧
      t.ledger.chain.proven = c.proven) ∧
    ((¬∀ r ∈ c.history, r.Legible) →
      ∃ n, make config (some dir) disk = .error (.refusal (.stepLine (stepsFile dir) n)))

/-- A directory that holds the records of a chain and a head that leads to where it stands is opened
as that chain. -/
theorem gives_of_restores {c : Chain Disk} {payloads : Payloads Disk}
    (h : Holds dir c.history saved disk) (hr : Restores saved c) (hs : c.Sound payloads)
    (hm : c.Marked)
    (hfile : ∀ head, c.standing = .active head → disk.contains (commitmentFile dir head) = true)
    (config : Config) : Gives config dir disk c := by
  refine ⟨fun hl => ?_, fun hl => make_of_not_legible h hl config⟩
  obtain ⟨c', t, ho, hstanding, hhistory, hproven⟩ := exists_opened h hr hs hm hfile hl config
  obtain ⟨_, _, _, rfl⟩ := ho.ledger
  exact ⟨_, ho.made, hstanding, hhistory, hproven⟩

/-- What is left of a directory that holds what a session does is opened as its chain. -/
theorem Mirrored.gives (h : Mirrored dir s) {l : Ledger Disk} {whole : Prop}
    (hh : Holds dir s.ledger.chain.history
      (s.ledger.chain.head?.map fun head => (head, s.ledger.chain.proven)) l.world)
    (hg : Grown dir whole s.ledger l) (hl : Left l.world left) (config : Config) :
    Gives config dir left s.ledger.chain := by
  have hequipped := h.backed.kept.equipped
  have hchain := hequipped.sound.chain
  refine gives_of_restores (hl.holds hh) (restores_head hchain hh.written) hchain
    hequipped.marked (fun head ha => ?_) config
  obtain ⟨p, hp, _⟩ := hchain.stored head ha
  have hfile := h.stored.payloads head p hp
  exact hl.contains_commitmentFile hh
    ((congrArg Option.isSome (hg.payloads head p hp).2).trans hfile)

end Session

end CommitChain
