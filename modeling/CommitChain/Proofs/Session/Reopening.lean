import CommitChain.Proofs.Session.Directives

/-!
# Opening a store directory again

What a session that is opened on the directory of another finds: the stores that have files, and the
chain up to the last line, if the lines can be read and linked and the payload of the head is there.
After a torn line the next record doubles a number, and from then on the directory is found faulted.
-/

namespace CommitChain

namespace Archive

variable {dir : Path} {lines : List StepRecord} {saved : Option (Commitment × List Int)}
  {disk : Disk} {payloads : Payloads Disk} {proofs : Proofs Disk}

/-- Stores that were filled from a directory have the files that it holds, and no others. -/
theorem Holds.filed (h : Holds dir lines saved disk) (hf : Filled dir disk payloads proofs)
    (c : Chain Disk) : Filed dir ⟨payloads, proofs, c, true, disk⟩ where
  payloads k hk := by
    obtain ⟨entry, hentry⟩ := Option.isSome_iff_exists.1 hk
    obtain ⟨k', v, x, hfile⟩ := h.payloads _ entry hentry
    obtain rfl : k = k' := Hash.Digest.hex_inj.1 (Path.append_json_inj.1 hfile.name_eq)
    obtain ⟨p, hp⟩ := Option.isSome_iff_exists.1 ((hf.stored k).trans hk)
    obtain rfl := (hf.restored.stands _ (Store.mem_of_findEntry? hp)).unique (hfile.stands hentry)
    obtain ⟨bytes, rfl, hbytes⟩ := hfile.bytes
    exact ⟨_, bytes, hp, hentry, hbytes⟩
  proofs i hi := by
    obtain ⟨entry, hentry⟩ := Option.isSome_iff_exists.1 hi
    obtain ⟨i', bytes, hname, hidentifier, rfl⟩ := h.proofs _ entry hentry
    obtain rfl : i = i' := Path.append_json_inj.1 hname
    obtain ⟨b, hb⟩ := Option.isSome_iff_exists.1 ((hf.proved i hidentifier).trans hi)
    have hfile := hf.proofsRestored.files _ (Store.mem_of_findEntry? hb)
    exact ⟨b, hb, hfile⟩
  identifiers := hf.proofsRestored.identifiers

theorem Filled.stored_ledger (hf : Filled dir disk payloads proofs) (c : Chain Disk) :
    Stored dir ⟨payloads, proofs, c, true, disk⟩ where
  payloads k p hp := (hf.stored k).symm.trans (by rw [hp]; rfl)
  proofs i b hb := by
    have hi := hf.proofsRestored.identifiers _ (Store.mem_of_findEntry? hb)
    exact (hf.proved i hi).symm.trans (by rw [hb]; rfl)

/-- A ledger that writes to the directory that it was filled from. -/
theorem Holds.kept (h : Holds dir lines saved disk) (hf : Filled dir disk payloads proofs)
    {limit : Int} {c : Chain Disk} (he : c.evaluator = Machine.evaluator limit)
    (hl : c.listeners = []) (hm : c.Marked) (hc : Matches lines saved c)
    (hs : (attach dir ⟨payloads, proofs, c, true, disk⟩).Sound) :
    Kept dir limit lines saved (attach dir ⟨payloads, proofs, c, true, disk⟩) where
  equipped := {
    evaluator := he
    attached := rfl
    sound := hs
    marked := ⟨hm.ascending, hm.recorded⟩
    regular := by exact (h.regular hf.restored : ∀ e ∈ payloads.entries, e.2.value.Regular)
    hearPayloads := by
      show payloads.listeners ++ [Archive.savePayload dir] = _
      rw [hf.restored.silent, List.nil_append]
    hearProofs := by
      show proofs.listeners ++ [Archive.saveProof dir] = _
      rw [hf.proofsRestored.silent, List.nil_append]
    hearSteps := by
      show c.listeners ++ [Archive.saveStep dir] = _
      rw [hl, List.nil_append] }
  holds := h
  matched := hc.congr rfl rfl
  filed := by
    have hfiled := h.filed hf c
    exact ⟨hfiled.payloads, hfiled.proofs, hfiled.identifiers⟩

/-- Whether a saved head, moved on by the records, leads to where a chain stands. -/
inductive Restores : Option (Commitment × List Int) → Chain Disk → Prop
  | fresh {c : Chain Disk} (standing : c.standing = .fresh) : Restores none c
  | active {c : Chain Disk} {k head : Commitment} (standing : c.standing = .active head)
      (moved : rollForward k c.history = .ok head) : Restores (some (k, c.proven)) c

/-- A head that is moved on by the records of a chain is moved on to its head. -/
theorem rollForward_of_prior {c : Chain Disk} {payloads : Payloads Disk} {k head : Commitment}
    (hs : c.Sound payloads) (ha : c.standing = .active head) (hw : ∀ r ∈ c.history, r.Written)
    (hk : k = head ∨ ∃ r ∈ c.history.getLast?, r.claim.prior = k.text) :
    rollForward k c.history = .ok head := by
  obtain ⟨moved, hmoved, hcases⟩ := rollForward_eq hw k
  rw [hmoved]
  rcases hcases with ⟨rfl, hlast⟩ | ⟨r, hr, _, hnew⟩
  · rcases hk with rfl | ⟨r, hr, hprior⟩
    · rfl
    · exact absurd hprior (hlast r hr)
  · have hread := Commitment.ofText?_text head
    rw [← hs.newHead_eq ha r hr, hnew, Commitment.ofText?_text] at hread
    rw [Option.some.inj hread]

/-- The head of a chain leads to where the chain stands. -/
theorem restores_head {c : Chain Disk} {payloads : Payloads Disk} (hs : c.Sound payloads)
    (hw : ∀ r ∈ c.history, r.Written) : Restores (c.head?.map fun head => (head, c.proven)) c := by
  rw [Chain.head?]
  cases ha : c.standing with
  | fresh => exact .fresh ha
  | active head => exact .active ha (rollForward_of_prior hs ha hw (.inl rfl))
  | faulted head => exact absurd ha (hs.running head)

/-- The head that a directory holds is moved on to the head of the chain if no line was torn. -/
theorem Kept.rollForward_eq {limit : Int} {k head : Commitment} {proven : List Int}
    {l : Ledger Disk} (h : Kept dir limit l.chain.history (some (k, proven)) l)
    (hs : l.chain.standing = .active head) : rollForward k l.chain.history = .ok head := by
  obtain ⟨head', hs', hk⟩ := h.matched.head k proven rfl
  obtain rfl : head = head' := by
    rw [hs] at hs'
    exact Standing.active.inj hs'
  exact rollForward_of_prior h.equipped.sound.chain hs h.holds.written
    (hk.resolve_left fun hne => hne rfl)

end Archive

namespace Session

open Archive

variable {dir : Path} {lines : List StepRecord} {saved : Option (Commitment × List Int)}
  {s t : Session} {config : Config} {disk : Disk}

/-- A line that is nested too deeply stops the opening. -/
theorem make_of_not_legible (h : Holds dir lines saved disk) (hl : ¬∀ r ∈ lines, r.Legible)
    (config : Config) :
    ∃ n, make config (some dir) disk = .error (.refusal (.stepLine (stepsFile dir) n)) := by
  obtain ⟨payloads, proofs, _, hmake⟩ := h.open.make_eq config
  obtain ⟨n, htake⟩ := h.takeUp_of_not_legible hl (Machine.evaluator config.stepLimit) payloads
  exact ⟨n, by rw [hmake, htake]; rfl⟩

theorem legible_of_make (h : Holds dir lines saved disk)
    (hm : make config (some dir) disk = .ok t) : ∀ r ∈ lines, r.Legible := by
  by_contra hl
  obtain ⟨n, he⟩ := make_of_not_legible h hl config
  exact absurd (he.symm.trans hm) (by simp)

/-- The chain that is taken up from a head and lines. -/
def taken (config : Config) (head : Commitment) (lines : List StepRecord) (proven : List Int) :
    Chain Disk :=
  ⟨Machine.evaluator config.stepLimit, .active head, lines,
    Chain.knownNumbers proven lines.length, []⟩

/-- The session that a directory gives, with what the directory fills its stores with. -/
structure Opened (config : Config) (dir : Path) (disk : Disk) (c : Chain Disk) (t : Session) :
    Prop where
  made : make config (some dir) disk = .ok t
  ledger : ∃ payloads proofs, Filled dir disk payloads proofs ∧
    t = ⟨config, some dir, attach dir ⟨payloads, proofs, c, true, disk⟩⟩

/-- A directory with a head gives a session exactly if its lines can be read and are linked up to
the head, moved on, and the payload of that head is there. -/
theorem make_of_saved {k head : Commitment} {proven : List Int}
    (h : Holds dir lines (some (k, proven)) disk)
    (ha : lines.Pairwise fun a b => a.index ≤ b.index) (hmoved : rollForward k lines = .ok head)
    (config : Config) :
    make config (some dir) disk = .ok t ↔
      (∀ r ∈ lines, r.Legible) ∧ Chain.Linked lines ∧
        (∀ r ∈ lines.getLast?, r.claim.newHead = head.text) ∧
        disk.contains (commitmentFile dir head) = true ∧
        Opened config dir disk (taken config head lines proven) t := by
  obtain ⟨payloads, proofs, hf, hmake⟩ := h.open.make_eq config
  constructor
  · intro hm
    have hl := legible_of_make h hm
    obtain ⟨moved, hmoved', htake⟩ :=
      takeUp_of_saved h hl (Machine.evaluator config.stepLimit) payloads
    obtain rfl : moved = head := Except.ok.inj (hmoved'.symm.trans hmoved)
    rw [hmake, htake] at hm
    obtain ⟨c, hc, rfl⟩ := map_eq_ok.1 hm
    obtain ⟨hlinked, hlast, ⟨p, hp⟩, rfl⟩ := Chain.resume_eq_ok.1 hc
    rw [Chain.ordered_eq ha] at hlinked hlast hc hm
    refine ⟨hl, hlinked, hlast, (hf.stored moved).symm.trans (by rw [hp]; rfl), ?_⟩
    rw [Chain.ordered_eq ha]
    exact ⟨by rw [hmake, htake]; exact hm, payloads, proofs, hf, rfl⟩
  · rintro ⟨_, _, _, _, ho⟩
    exact ho.made

theorem exists_make_of_saved {k head : Commitment} {proven : List Int}
    (h : Holds dir lines (some (k, proven)) disk) (hl : ∀ r ∈ lines, r.Legible)
    (hlinked : Chain.Linked lines) (hmoved : rollForward k lines = .ok head)
    (hlast : ∀ r ∈ lines.getLast?, r.claim.newHead = head.text)
    (hfile : disk.contains (commitmentFile dir head) = true) (config : Config) :
    ∃ t, Opened config dir disk (taken config head lines proven) t := by
  obtain ⟨payloads, proofs, hf, hmake⟩ := h.open.make_eq config
  obtain ⟨moved, hmoved', htake⟩ :=
    takeUp_of_saved h hl (Machine.evaluator config.stepLimit) payloads
  obtain rfl : moved = head := Except.ok.inj (hmoved'.symm.trans hmoved)
  obtain ⟨p, hp⟩ := Option.isSome_iff_exists.1 ((hf.stored moved).trans hfile)
  have ha := hlinked.ascending
  have hresume : Chain.resume payloads (Machine.evaluator config.stepLimit) moved lines proven
      = .ok (taken config moved lines proven) := by
    refine Chain.resume_eq_ok.2 ?_
    rw [Chain.ordered_eq ha]
    exact ⟨hlinked, hlast, ⟨p, hp⟩, rfl⟩
  exact ⟨_, by rw [hmake, htake, hresume]; rfl, payloads, proofs, hf, rfl⟩

/-- A directory without a head gives a session with a fresh chain, if no step was written. -/
theorem exists_make_of_unsaved (h : Holds dir [] none disk) (config : Config) :
    ∃ t, Opened config dir disk (.fresh (Machine.evaluator config.stepLimit)) t := by
  obtain ⟨payloads, proofs, hf, hmake⟩ := h.open.make_eq config
  have htake := takeUp_of_unsaved h (fun r hr => absurd hr List.not_mem_nil)
    (Machine.evaluator config.stepLimit) payloads
  exact ⟨_, by rw [hmake, htake]; rfl, payloads, proofs, hf, rfl⟩

/-- A directory that holds the records of a chain and a head that leads to where it stands gives
that chain, if the records can be read and the payload of the head is there. -/
theorem exists_opened {c : Chain Disk} {payloads : Payloads Disk}
    (h : Holds dir c.history saved disk) (hr : Restores saved c) (hs : c.Sound payloads)
    (hm : c.Marked)
    (hfile : ∀ head, c.standing = .active head → disk.contains (commitmentFile dir head) = true)
    (hl : ∀ r ∈ c.history, r.Legible) (config : Config) :
    ∃ c' t, Opened config dir disk c' t ∧ c'.standing = c.standing ∧ c'.history = c.history ∧
      c'.proven = c.proven := by
  cases hr with
  | fresh ha =>
    have hempty := hs.history_of_fresh ha
    rw [hempty] at h
    obtain ⟨t, ho⟩ := exists_make_of_unsaved h config
    exact ⟨_, t, ho, ha.symm, hempty.symm, (hm.proven_eq_nil hempty).symm⟩
  | active ha hmoved =>
    obtain ⟨t, ho⟩ := exists_make_of_saved h hl hs.linked hmoved (hs.newHead_eq ha) (hfile _ ha)
      config
    exact ⟨_, t, ho, ha.symm, rfl, Chain.knownNumbers_eq hm.ascending hm.recorded⟩

theorem make_of_unsaved (h : Holds dir lines none disk)
    (hm : make config (some dir) disk = .ok t) :
    lines = [] ∧ Opened config dir disk (.fresh (Machine.evaluator config.stepLimit)) t := by
  obtain ⟨payloads, proofs, hf, hmake⟩ := h.open.make_eq config
  have htake := takeUp_of_unsaved h (legible_of_make h hm)
    (Machine.evaluator config.stepLimit) payloads
  have hm' := hm
  rw [hmake, htake] at hm'
  cases lines with
  | nil =>
    cases hm'
    exact ⟨rfl, hm, payloads, proofs, hf, rfl⟩
  | cons r rest => exact absurd hm' (by simp [Except.map])

/-- A directory whose lines are those of an active chain gives that chain, if the lines can be read
and the payload of the head is there. -/
theorem Backed.make_eq_ok {k head : Commitment} {proven : List Int}
    (h : Backed dir s.ledger.chain.history (some (k, proven)) s)
    (hs : s.ledger.chain.standing = .active head) (config : Config) :
    make config (some dir) s.disk = .ok t ↔
      (∀ r ∈ s.ledger.chain.history, r.Legible) ∧
        s.disk.contains (commitmentFile dir head) = true ∧
        Opened config dir s.disk (taken config head s.ledger.chain.history proven) t := by
  have hmake := make_of_saved (t := t) h.kept.holds h.kept.matched.ascending
    (h.kept.rollForward_eq hs) config
  have hchain := h.kept.equipped.sound.chain
  exact hmake.trans ⟨fun ⟨hl, _, _, hfile, ho⟩ => ⟨hl, hfile, ho⟩, fun ⟨hl, hfile, ho⟩ =>
    ⟨hl, hchain.linked, hchain.newHead_eq hs, hfile, ho⟩⟩

/-- A session that is opened on a directory is backed by it, its history are the lines, and all that
it has stored has its file. -/
theorem backed_of_make (h : Holds dir lines saved disk)
    (ha : lines.Pairwise fun a b => a.index ≤ b.index)
    (hm : make config (some dir) disk = .ok t) :
    t.config = config ∧ t.ledger.world = disk ∧ t.ledger.chain.history = lines ∧
      Backed dir lines saved t ∧ Stored dir t.ledger := by
  have hsound := sound_make hm
  cases saved with
  | none =>
    obtain ⟨rfl, _, payloads, proofs, hf, rfl⟩ := make_of_unsaved h hm
    have hmatches : Matches [] none (Chain.fresh (Machine.evaluator config.stepLimit)) :=
      ⟨ha, fun r hr => absurd hr List.not_mem_nil, List.Sublist.refl _, fun hne => absurd rfl hne,
        by simp⟩
    have hstored := hf.stored_ledger (Chain.fresh (Machine.evaluator config.stepLimit))
    exact ⟨rfl, rfl, rfl, ⟨rfl, h.kept hf rfl rfl (Chain.marked_fresh _) hmatches hsound⟩,
      hstored.payloads, hstored.proofs⟩
  | some pair =>
    obtain ⟨k, proven⟩ := pair
    obtain ⟨moved, hmoved, hcases⟩ := Archive.rollForward_eq h.written k
    obtain ⟨hl, hlinked, _, _, _, payloads, proofs, hf, rfl⟩ :=
      (make_of_saved h ha hmoved config).1 hm
    have hmatches : Matches lines (some (k, proven)) (taken config moved lines proven) := by
      refine ⟨ha, fun r hr => Nat.le_succ_of_le (hlinked.index_le hr), List.Sublist.refl _,
        fun hne => absurd rfl hne, fun k' proven' hk => ?_⟩
      cases hk
      refine ⟨moved, rfl, .inr ?_⟩
      rcases hcases with ⟨rfl, _⟩ | ⟨r, hr, hprior, _⟩
      · exact .inl rfl
      · exact .inr ⟨r, hr, hprior⟩
    have hmarked : (taken config moved lines proven).Marked :=
      ⟨Chain.ascending_knownNumbers _ _, fun i hi => (Chain.mem_knownNumbers.1 hi).2⟩
    have hstored := hf.stored_ledger (taken config moved lines proven)
    exact ⟨rfl, rfl, rfl, ⟨rfl, h.kept hf rfl rfl hmarked hmatches hsound⟩, hstored.payloads,
      hstored.proofs⟩

end Session

end CommitChain
