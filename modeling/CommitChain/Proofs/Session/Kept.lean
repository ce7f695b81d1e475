import CommitChain.Proofs.Chain.Proven
import CommitChain.Proofs.Hash.Address
import CommitChain.Proofs.Session.Loading

/-!
# Ledgers that are kept in a store directory

`Kept` relates a ledger that writes to a store directory to what the directory holds.  The lines are
those of the history as long as no line was torn, that is written for a step that then failed; after
that there are more lines than records, and with the next record two lines have one number.

Entries of the stores stay, and so do their files; a new entry has its file unless the disk refused
it (`Grown`).  Committing, starting and proving leave the lines alone.  A step writes one line or
none, and it succeeds only if it does.
-/

namespace CommitChain.Archive

variable {dir : Path} {limit : Int} {lines : List StepRecord}
  {saved : Option (Commitment × List Int)}

/-! ## Lines and records -/

/-- How the lines and the head of a directory stand to a chain. -/
structure Matches (lines : List StepRecord) (saved : Option (Commitment × List Int))
    (c : Chain Disk) : Prop where
  ascending : lines.Pairwise fun a b => a.index ≤ b.index
  bounded : ∀ r ∈ lines, r.index ≤ c.history.length + 1
  recorded : c.history.Sublist lines
  doubled : lines ≠ c.history → ¬(lines.map StepRecord.index ++ [c.history.length + 1]).Nodup
  head : ∀ k proven, saved = some (k, proven) → ∃ head, c.standing = .active head ∧
    (lines ≠ c.history ∨ k = head ∨ ∃ r ∈ c.history.getLast?, r.claim.prior = k.text)

section

variable {c c' : Chain Disk} {r : StepRecord}

theorem Matches.ascending_append (h : Matches lines saved c)
    (hi : r.index = c.history.length + 1) :
    (lines ++ [r]).Pairwise fun a b => a.index ≤ b.index := by
  refine List.pairwise_append.2 ⟨h.ascending, List.pairwise_singleton _ _, fun a ha b hb => ?_⟩
  rw [List.mem_singleton.1 hb, hi]
  exact h.bounded a ha

/-- More lines than records. -/
theorem Matches.torn (h : Matches lines saved c) (r : StepRecord) : lines ++ [r] ≠ c.history := by
  intro he
  have hlength := h.recorded.length_le
  rw [← he, List.length_append, List.length_singleton] at hlength
  omega

/-- A line that was written for a step that then failed. -/
theorem Matches.tear (h : Matches lines saved c) (hi : r.index = c.history.length + 1) :
    Matches (lines ++ [r]) saved c where
  ascending := h.ascending_append hi
  bounded := List.forall_mem_append.2 ⟨h.bounded, List.forall_mem_singleton.2 (Nat.le_of_eq hi)⟩
  recorded := h.recorded.trans (List.sublist_append_left _ _)
  doubled _ hn := by
    rw [List.map_append, List.map_singleton, hi, List.append_assoc, List.nodup_append] at hn
    simp at hn
  head k proven hk := by
    obtain ⟨head, hs, _⟩ := h.head k proven hk
    exact ⟨head, hs, .inl (h.torn r)⟩

/-- A line of a step that succeeded. -/
theorem Matches.extend (h : Matches lines saved c) (hi : r.index = c.history.length + 1)
    (newHead : Commitment) (proven : List Int) :
    Matches (lines ++ [r]) (some (newHead, proven)) (c.extend r newHead) where
  ascending := h.ascending_append hi
  bounded := by
    have hlength : (c.extend r newHead).history.length = c.history.length + 1 :=
      List.length_append
    rw [hlength]
    exact List.forall_mem_append.2 ⟨fun s hs => Nat.le_succ_of_le (h.bounded s hs),
      List.forall_mem_singleton.2 (by omega)⟩
  recorded := List.Sublist.append h.recorded (List.Sublist.refl [r])
  doubled hne hn := by
    have hdoubled := h.doubled fun he => hne (by rw [he]; rfl)
    rw [List.map_append, List.map_singleton, hi] at hn
    exact hdoubled (List.nodup_append.1 hn).1
  head k proven' hk := by
    cases hk
    exact ⟨newHead, rfl, .inr (.inl rfl)⟩

/-- What depends on the history and the head alone. -/
theorem Matches.congr (h : Matches lines saved c) (hh : c'.history = c.history)
    (hs : c'.standing = c.standing) : Matches lines saved c' where
  ascending := h.ascending
  bounded := hh ▸ h.bounded
  recorded := hh ▸ h.recorded
  doubled := hh ▸ h.doubled
  head k proven hk := by
    rw [hh, hs]
    exact h.head k proven hk

end

/-! ## Ledgers -/

/-- A ledger that runs the machine on regular values and writes to a directory. -/
structure Equipped (dir : Path) (limit : Int) (l : Ledger Disk) : Prop where
  evaluator : l.chain.evaluator = Machine.evaluator limit
  attached : l.attached = true
  sound : l.Sound
  marked : l.chain.Marked
  regular : ∀ e ∈ l.payloads.entries, e.2.value.Regular
  hearPayloads : l.payloads.listeners = [savePayload dir]
  hearProofs : l.proofs.listeners = [saveProof dir]
  hearSteps : l.chain.listeners = [saveStep dir]

/-- Each file of a payload or a proof is that of an entry. -/
structure Filed (dir : Path) (l : Ledger Disk) : Prop where
  payloads : ∀ c, l.world.contains (commitmentFile dir c) = true → ∃ p bytes,
    l.payloads.find? c = some p ∧
      l.world.find? (commitmentFile dir c) = some (.file bytes) ∧
      Disk.jsonLine p.encoding = .ok bytes
  proofs : ∀ i, l.world.contains (proofFile dir i) = true → ∃ bytes,
    l.proofs.find? i = some bytes ∧ l.world.find? (proofFile dir i) = some (.file bytes)
  identifiers : ∀ e ∈ l.proofs.entries, isProofIdentifier e.1 = true

/-- A ledger with a directory that holds what it has written. -/
structure Kept (dir : Path) (limit : Int) (lines : List StepRecord)
    (saved : Option (Commitment × List Int)) (l : Ledger Disk) : Prop where
  equipped : Equipped dir limit l
  holds : Holds dir lines saved l.world
  matched : Matches lines saved l.chain
  filed : Filed dir l

/-- What a ledger and its directory had stays; new entries have their files if the disk refused
nothing (`whole`). -/
structure Grown (dir : Path) (whole : Prop) (l l' : Ledger Disk) : Prop where
  payloads : ∀ c p, l.payloads.find? c = some p → l'.payloads.find? c = some p ∧
    l'.world.find? (commitmentFile dir c) = l.world.find? (commitmentFile dir c)
  proofs : ∀ i b, l.proofs.find? i = some b → l'.proofs.find? i = some b ∧
    l'.world.find? (proofFile dir i) = l.world.find? (proofFile dir i)
  newPayloads : whole → ∀ c p, l.payloads.find? c = none → l'.payloads.find? c = some p →
    l'.world.contains (commitmentFile dir c) = true
  newProofs : whole → ∀ i b, l.proofs.find? i = none → l'.proofs.find? i = some b →
    l'.world.contains (proofFile dir i) = true

/-- Every entry of the stores has its file. -/
structure Stored (dir : Path) (l : Ledger Disk) : Prop where
  payloads : ∀ c p, l.payloads.find? c = some p →
    l.world.contains (commitmentFile dir c) = true
  proofs : ∀ i b, l.proofs.find? i = some b → l.world.contains (proofFile dir i) = true

section

variable {l l' l'' : Ledger Disk} {whole whole' : Prop}

theorem Grown.refl (dir : Path) (whole : Prop) (l : Ledger Disk) : Grown dir whole l l where
  payloads _ _ h := ⟨h, rfl⟩
  proofs _ _ h := ⟨h, rfl⟩
  newPayloads _ _ _ hn hs := absurd (hn.symm.trans hs) (by simp)
  newProofs _ _ _ hn hs := absurd (hn.symm.trans hs) (by simp)

theorem Grown.imp (h : Grown dir whole l l') (hw : whole' → whole) : Grown dir whole' l l' :=
  ⟨h.payloads, h.proofs, fun w => h.newPayloads (hw w), fun w => h.newProofs (hw w)⟩

theorem Grown.trans (h : Grown dir whole l l') (h' : Grown dir whole l' l'') :
    Grown dir whole l l'' where
  payloads c p hp := by
    obtain ⟨hp', hf⟩ := h.payloads c p hp
    obtain ⟨hp'', hf'⟩ := h'.payloads c p hp'
    exact ⟨hp'', hf'.trans hf⟩
  proofs i b hb := by
    obtain ⟨hb', hf⟩ := h.proofs i b hb
    obtain ⟨hb'', hf'⟩ := h'.proofs i b hb'
    exact ⟨hb'', hf'.trans hf⟩
  newPayloads hw c p hn hs := by
    cases hm : l'.payloads.find? c with
    | none => exact h'.newPayloads hw c p hm hs
    | some p' =>
      rw [Disk.contains, (h'.payloads c p' hm).2]
      exact h.newPayloads hw c p' hn hm
  newProofs hw i b hn hs := by
    cases hm : l'.proofs.find? i with
    | none => exact h'.newProofs hw i b hm hs
    | some b' =>
      rw [Disk.contains, (h'.proofs i b' hm).2]
      exact h.newProofs hw i b' hn hm

theorem Grown.stored (h : Grown dir whole l l') (hw : whole) (hs : Stored dir l) :
    Stored dir l' where
  payloads c p hp := by
    cases hm : l.payloads.find? c with
    | none => exact h.newPayloads hw c p hm hp
    | some p' =>
      rw [Disk.contains, (h.payloads c p' hm).2]
      exact hs.payloads c p' hm
  proofs i b hb := by
    cases hm : l.proofs.find? i with
    | none => exact h.newProofs hw i b hm hb
    | some b' =>
      rw [Disk.contains, (h.proofs i b' hm).2]
      exact hs.proofs i b' hm

/-! ## Changes to the files of the chain -/

theorem commitmentFile_not_mem (c : Commitment) :
    commitmentFile dir c ∉ [stepsFile dir, chainFile dir] := by
  simp [stepsFile, chainFile, commitmentFile, commitmentsDir]

theorem proofFile_not_mem (i : String) : proofFile dir i ∉ [stepsFile dir, chainFile dir] := by
  simp [stepsFile, chainFile, proofFile, proofsDir]

/-- What leaves the stores and their files. -/
theorem grown_of_leaves (hp : l'.payloads = l.payloads) (hq : l'.proofs = l.proofs)
    (hw : Leaves dir [stepsFile dir, chainFile dir] l.world l'.world) : Grown dir whole l l' where
  payloads c _ h := ⟨hp ▸ h, hw _ (.payload _) (commitmentFile_not_mem c)⟩
  proofs i _ h := ⟨hq ▸ h, hw _ (.proof _) (proofFile_not_mem i)⟩
  newPayloads _ _ _ hn hs := absurd (hn.symm.trans (hp ▸ hs)) (by simp)
  newProofs _ _ _ hn hs := absurd (hn.symm.trans (hq ▸ hs)) (by simp)

theorem Filed.of_leaves (h : Filed dir l) (hp : l'.payloads = l.payloads)
    (hq : l'.proofs = l.proofs)
    (hw : Leaves dir [stepsFile dir, chainFile dir] l.world l'.world) : Filed dir l' where
  payloads c hc := by
    have hfile := hw (commitmentFile dir c) (.payload _) (commitmentFile_not_mem c)
    rw [Disk.contains, hfile] at hc
    rw [hfile, hp]
    exact h.payloads c hc
  proofs i hi := by
    have hfile := hw (proofFile dir i) (.proof _) (proofFile_not_mem i)
    rw [Disk.contains, hfile] at hi
    rw [hfile, hq]
    exact h.proofs i hi
  identifiers := hq ▸ h.identifiers

theorem leaves_refl (dir : Path) (written : List Path) (disk : Disk) :
    Leaves dir written disk disk :=
  fun _ _ _ => rfl

theorem all_singleton {σ : Type} (x : Action σ Unit) (s : σ) : Action.all [x] s = x s := by
  show Action.andThen x (fun _ => Action.done ()) s = x s
  rw [Action.andThen]
  cases x s with
  | mk r t => cases r <;> rfl

/-! ## Committing -/

theorem same_unhindered (p q : Payload) : Unhindered (p.same q) := by
  unfold Payload.same
  cases p.encoding.canonical with
  | error e => exact fun fault => by simp [orFail, bind, Except.bind]
  | ok s =>
    cases q.encoding.canonical with
    | error e => exact fun fault => by simp [orFail, bind, Except.bind]
    | ok t => exact unhindered_ok _

/-- Committing to a value changes nothing, or adds a payload whose file is then written or not. -/
theorem commit_cases {s s' : Payloads Disk} {world world' : Disk} {v : Value}
    {r : Except Failure Commitment} (h : Payloads.commit v (s, world) = (r, s', world'))
    (hl : s.listeners = [savePayload dir]) :
    (s' = s ∧ world' = world ∧ Unhindered r) ∨
      ∃ x c r₁, v.encodeStrict = .ok x ∧ commitmentOf x = .ok c ∧ s.find? c = none ∧
        savePayload dir c ⟨v, x⟩ world = (r₁, world') ∧ r = r₁.map (fun _ => c) ∧
        s' = { s with entries := s.entries ++ [(c, ⟨v, x⟩)] } := by
  rw [Payloads.commit_eq] at h
  split at h
  · cases h
    exact .inl ⟨rfl, rfl, fun fault => by simp⟩
  next x hx =>
    split at h
    · cases h
      exact .inl ⟨rfl, rfl, fun fault => by simp⟩
    next c hc =>
      cases hf : s.find? c with
      | some existing =>
        rw [Payloads.put, Store.put_taken hf] at h
        have hsame := same_unhindered existing ⟨v, x⟩
        cases hr : existing.same ⟨v, x⟩ with
        | error e =>
          rw [hr] at h hsame
          cases h
          exact .inl ⟨rfl, rfl, fun fault he => hsame fault (by simpa using he)⟩
        | ok b =>
          rw [hr] at h
          cases b <;> cases h <;> exact .inl ⟨rfl, rfl, fun fault => by simp⟩
      | none =>
        rw [Payloads.put, Store.put_new hf, Store.announce, hl, List.map_singleton,
          all_singleton] at h
        refine .inr ⟨x, c, (savePayload dir c ⟨v, x⟩ world).1, hx, hc, hf, ?_⟩
        cases hr : (savePayload dir c ⟨v, x⟩ world).1 with
        | ok u =>
          rw [hr] at h
          cases h
          exact ⟨Prod.ext hr rfl, rfl, hl ▸ rfl⟩
        | error e =>
          rw [hr] at h
          cases h
          exact ⟨Prod.ext hr rfl, rfl, hl ▸ rfl⟩

/-- The ledger with one more payload and what became of the disk. -/
def withPayload (l : Ledger Disk) (c : Commitment) (p : Payload) (world : Disk) : Ledger Disk :=
  { l with
    payloads := { l.payloads with entries := l.payloads.entries ++ [(c, p)] }
    world := world }

theorem find?_withPayload (l : Ledger Disk) (c : Commitment) (p : Payload) (world : Disk)
    (k : Commitment) : (withPayload l c p world).payloads.find? k
      = (l.payloads.find? k).or (if c = k then some p else none) :=
  Store.findEntry?_concat _ c p

/-- A further payload with what became of its file. -/
theorem Kept.withPayload (h : Kept dir limit lines saved l) {v : Value} {x : Json} {c : Commitment}
    {r : Except Failure Unit} {world : Disk} (hv : v.Regular) (hx : v.encodeStrict = .ok x)
    (hc : commitmentOf x = .ok c) (hnew : l.payloads.find? c = none)
    (hs : savePayload dir c ⟨v, x⟩ l.world = (r, world))
    (hsound : (withPayload l c ⟨v, x⟩ world).Sound) :
    Kept dir limit lines saved (Archive.withPayload l c ⟨v, x⟩ world) ∧
      Grown dir (Unhindered r) l (Archive.withPayload l c ⟨v, x⟩ world) := by
  have hleaves := savePayload_leaves hs
  have hother : ∀ k, k ≠ c →
      world.find? (commitmentFile dir k) = l.world.find? (commitmentFile dir k) :=
    fun k hk => hleaves _ (.payload _) fun hm =>
      hk (Hash.Digest.hex_inj.1 (by simpa [commitmentFile] using List.mem_singleton.1 hm))
  have hproof : ∀ i, world.find? (proofFile dir i) = l.world.find? (proofFile dir i) :=
    fun i => hleaves _ (.proof _) (by simp [proofFile, proofsDir, commitmentFile, commitmentsDir])
  -- a file that is there has an entry, so the file of the new one was not there
  have habsent : l.world.contains (commitmentFile dir c) = false := by
    refine Bool.eq_false_iff.2 fun hthere => ?_
    obtain ⟨p, _, hp, _⟩ := h.filed.payloads c hthere
    exact absurd (hnew.symm.trans hp) (by simp)
  constructor
  · exact {
      equipped := { h.equipped with
        sound := hsound
        regular := List.forall_mem_append.2 ⟨h.equipped.regular, List.forall_mem_singleton.2 hv⟩ }
      holds := h.holds.savePayload hv hx hc hs
      matched := h.matched
      filed := {
        payloads := fun k hk => by
          rw [find?_withPayload]
          by_cases hkc : k = c
          · rw [hkc] at hk ⊢
            obtain ⟨bytes, hentry, hbytes⟩ := file_of_savePayload habsent hs hk
            exact ⟨⟨v, x⟩, bytes, by rw [hnew, Option.none_or, if_pos rfl], hentry, hbytes⟩
          · have hk' : l.world.contains (commitmentFile dir k) = true := by
              rw [Disk.contains, ← hother k hkc]
              exact hk
            obtain ⟨p, bytes, hp, hentry, hbytes⟩ := h.filed.payloads k hk'
            exact ⟨p, bytes, by rw [hp, Option.some_or], (hother k hkc).trans hentry, hbytes⟩
        proofs := fun i hi => by
          have hi' : l.world.contains (proofFile dir i) = true := by
            rw [Disk.contains, ← hproof]
            exact hi
          obtain ⟨bytes, hb, hentry⟩ := h.filed.proofs i hi'
          exact ⟨bytes, hb, (hproof i).trans hentry⟩
        identifiers := h.filed.identifiers } }
  · exact {
      payloads := fun k p hp => by
        refine ⟨by rw [find?_withPayload, hp, Option.some_or], hother k fun hk => ?_⟩
        exact absurd (hnew.symm.trans (hk ▸ hp)) (by simp)
      proofs := fun i b hb => ⟨hb, hproof i⟩
      newPayloads := fun hr k p hn hk => by
        rw [find?_withPayload, hn, Option.none_or] at hk
        split at hk
        next he =>
          rw [← he]
          exact contains_of_savePayload hc hs hr
        next => exact absurd hk (by simp)
      newProofs := fun _ i b hn hi => absurd (hn.symm.trans hi) (by simp) }

/-- Committing to a regular value. -/
theorem Kept.commit (h : Kept dir limit lines saved l) {v : Value} (hv : v.Regular)
    {r : Except Failure Commitment} (hc : Ledger.commit v l = (r, l')) :
    Kept dir limit lines saved l' ∧ Grown dir (Unhindered r) l l' ∧ l'.chain = l.chain := by
  have hsound := (Ledger.keeps_sound_commit v).after hc h.equipped.sound
  rw [Ledger.commit, Ledger.onPayloads] at hc
  obtain ⟨⟨s, world⟩, hcommit, rfl⟩ := Action.on_eq.1 hc
  rcases commit_cases hcommit h.equipped.hearPayloads with
    ⟨rfl, rfl, _⟩ | ⟨x, c, r₁, hx, hcommitment, hnew, hs, rfl, rfl⟩
  · exact ⟨h, .refl dir _ l, rfl⟩
  · obtain ⟨hk, hg⟩ := h.withPayload hv hx hcommitment hnew hs hsound
    exact ⟨hk, hg.imp unhindered_map.1, rfl⟩

/-! ## Starting and proving -/

/-- A chain that is started has no head in the directory. -/
theorem Kept.start (h : Kept dir limit lines saved l) {genesis : Commitment}
    (hfresh : l.chain.standing = .fresh) (hstored : ∃ p, l.payloads.find? genesis = some p) :
    Kept dir limit lines saved
      { l with chain := { l.chain with standing := .active genesis } } := by
  have hsound := Chain.sound_start h.equipped.sound.chain h.equipped.sound.payloads
    (Chain.start_eq_ok.2 ⟨hfresh, hstored, rfl⟩)
  have hunsaved : ∀ k proven, saved = some (k, proven) → False := by
    intro k proven hk
    obtain ⟨head, hactive, _⟩ := h.matched.head k proven hk
    exact absurd (hfresh.symm.trans hactive) (by simp)
  exact {
    equipped := { h.equipped with
      sound := ⟨h.equipped.sound.payloads, hsound⟩
      marked := ⟨h.equipped.marked.ascending, h.equipped.marked.recorded⟩ }
    holds := h.holds
    matched := { h.matched with head := fun k proven hk => (hunsaved k proven hk).elim }
    filed := ⟨h.filed.payloads, h.filed.proofs, h.filed.identifiers⟩ }

/-- Only records of written steps are proved, so their numbers can be written. -/
theorem Kept.proven_lt (h : Kept dir limit lines saved l) :
    ∀ i ∈ l.chain.proven, i.natAbs < Text.integerBound := by
  intro i hi
  obtain ⟨hlow, hhigh⟩ := h.equipped.marked.recorded i hi
  have hlt : i.toNat - 1 < l.chain.history.length := by omega
  have hindex := h.equipped.sound.chain.linked.index_eq hlt
  have hwritten := h.holds.written _ (h.matched.recorded.subset (List.getElem_mem hlt))
  have hbound := hwritten.index_lt
  rw [hindex] at hbound
  omega

/-- Writing the file of the chain. -/
theorem Kept.saveChain (h : Kept dir limit lines saved l) {head : Commitment}
    (hs : l.chain.standing = .active head) {r : Except Failure Unit} {world : Disk}
    (hw : saveChain dir head l.chain.proven l.world = (r, world)) :
    (r = .ok () ∧ Kept dir limit lines (some (head, l.chain.proven)) { l with world := world } ∨
      ∃ fault, r = .error (.disk fault) ∧ Kept dir limit lines saved { l with world := world }) ∧
    Grown dir True l { l with world := world } := by
  have hleaves : Leaves dir [stepsFile dir, chainFile dir] l.world world :=
    fun q hq hne => saveChain_leaves hw q hq fun hm => hne (List.mem_cons_of_mem _ hm)
  have hequipped : Equipped dir limit { l with world := world } :=
    { h.equipped with sound := ⟨h.equipped.sound.payloads, h.equipped.sound.chain⟩ }
  have hfiled : Filed dir { l with world := world } := h.filed.of_leaves rfl rfl hleaves
  refine ⟨?_, grown_of_leaves rfl rfl hleaves⟩
  cases r with
  | ok u =>
    refine .inl ⟨rfl, hequipped, h.holds.saveChain hw,
      { h.matched with head := fun k proven hk => ?_ }, hfiled⟩
    cases hk
    exact ⟨head, hs, .inr (.inl rfl)⟩
  | error e =>
    obtain ⟨bytes, hbytes⟩ := exists_jsonLine_chainJson head.text h.proven_lt
    rcases (Disk.saveJson_eq_error OwnFile.chain.ne_nil hw).2 with hline | ⟨fault, rfl⟩
    · exact absurd (hbytes.symm.trans hline) (by simp)
    · exact .inr ⟨fault, rfl, hequipped, h.holds.saveChain_eq_error hw, h.matched, hfiled⟩

/-- Storing a proof changes nothing, or adds the proof, whose file is then written or not. -/
theorem putProof_cases {identifier : String} {bytes : ByteArray} {r : Except Failure Bool}
    (h : Ledger.putProof identifier bytes l = (r, l'))
    (hl : l.proofs.listeners = [saveProof dir]) :
    (l' = l ∧ Unhindered r) ∨
      ∃ r₁ world, l.proofs.find? identifier = none ∧
        saveProof dir identifier bytes l.world = (r₁, world) ∧ r = r₁.map (fun _ => true) ∧
        l' = { l with
          proofs := { l.proofs with entries := l.proofs.entries ++ [(identifier, bytes)] }
          world := world } := by
  cases hf : l.proofs.find? identifier with
  | some existing =>
    by_cases hs : existing = bytes
    · obtain rfl := hs
      rw [Ledger.putProof_same hf] at h
      obtain ⟨rfl, rfl⟩ := Prod.ext_iff.1 h
      exact .inl ⟨rfl, fun fault => by simp⟩
    · rw [Ledger.putProof_taken hf hs] at h
      obtain ⟨rfl, rfl⟩ := Prod.ext_iff.1 h
      exact .inl ⟨rfl, fun fault => by simp⟩
  | none =>
    rw [Ledger.putProof_new hf, Store.announce, hl, List.map_singleton, all_singleton] at h
    obtain ⟨rfl, rfl⟩ := Prod.ext_iff.1 h
    exact .inr ⟨_, _, rfl, rfl, rfl, rfl⟩

/-- Storing a proof. -/
theorem Kept.putProof (h : Kept dir limit lines saved l) {bytes : ByteArray}
    {r : Except Failure Bool} (hp : Ledger.putProof (proofIdentifier bytes) bytes l = (r, l')) :
    Kept dir limit lines saved l' ∧ Grown dir (Unhindered r) l l' ∧ l'.chain = l.chain := by
  have hsound := (Ledger.keeps_sound_putProof _ bytes).after hp h.equipped.sound
  rcases putProof_cases hp h.equipped.hearProofs with
    ⟨rfl, _⟩ | ⟨r₁, world, hnew, hs, rfl, rfl⟩
  · exact ⟨h, .refl dir _ l', rfl⟩
  have hleaves := saveProof_leaves hs
  have hpayload : ∀ k, world.find? (commitmentFile dir k) = l.world.find? (commitmentFile dir k) :=
    fun k => hleaves _ (.payload _) (by simp [proofFile, proofsDir, commitmentFile, commitmentsDir])
  have hother : ∀ i, i ≠ proofIdentifier bytes →
      world.find? (proofFile dir i) = l.world.find? (proofFile dir i) :=
    fun i hi => hleaves _ (.proof _) fun hm =>
      hi (Path.append_json_inj.1 (by simpa [proofFile] using List.mem_singleton.1 hm))
  have hfind : ∀ i, Store.findEntry? i (l.proofs.entries ++ [(proofIdentifier bytes, bytes)])
      = (l.proofs.find? i).or (if proofIdentifier bytes = i then some bytes else none) :=
    fun i => Store.findEntry?_concat _ _ _
  -- a file that is there has an entry, so the file of the new one was not there
  have habsent : l.world.contains (proofFile dir (proofIdentifier bytes)) = false := by
    refine Bool.eq_false_iff.2 fun hthere => ?_
    obtain ⟨b, hb, _⟩ := h.filed.proofs _ hthere
    exact absurd (hnew.symm.trans hb) (by simp)
  refine ⟨?_, ?_, rfl⟩
  · exact {
      equipped := { h.equipped with sound := hsound }
      holds := h.holds.saveProof (isProofIdentifier_proofIdentifier bytes) hs
      matched := h.matched
      filed := {
        payloads := fun c hc => by
          have hc' : l.world.contains (commitmentFile dir c) = true := by
            rw [Disk.contains, ← hpayload]
            exact hc
          obtain ⟨p, b, hp, hentry, hb⟩ := h.filed.payloads c hc'
          exact ⟨p, b, hp, (hpayload c).trans hentry, hb⟩
        proofs := fun i hi => by
          show ∃ b, Store.findEntry? i _ = some b ∧ _
          rw [hfind]
          by_cases hie : i = proofIdentifier bytes
          · rw [hie] at hi ⊢
            exact ⟨bytes, by rw [hnew, Option.none_or, if_pos rfl],
              file_of_saveProof habsent hs hi⟩
          · have hi' : l.world.contains (proofFile dir i) = true := by
              rw [Disk.contains, ← hother i hie]
              exact hi
            obtain ⟨b, hb, hentry⟩ := h.filed.proofs i hi'
            exact ⟨b, by rw [hb, Option.some_or], (hother i hie).trans hentry⟩
        identifiers := List.forall_mem_append.2 ⟨h.filed.identifiers,
          List.forall_mem_singleton.2 (isProofIdentifier_proofIdentifier bytes)⟩ } }
  · exact {
      payloads := fun c p hc => ⟨hc, hpayload c⟩
      proofs := fun i b hb => by
        refine ⟨(hfind i).trans (by rw [hb, Option.some_or]), hother i fun hi => ?_⟩
        exact absurd (hnew.symm.trans (hi ▸ hb)) (by simp)
      newPayloads := fun _ c p hn hc => absurd (hn.symm.trans hc) (by simp)
      newProofs := fun hr i b hn hi => by
        have hi' := (hfind i).symm.trans hi
        rw [hn, Option.none_or] at hi'
        split at hi'
        next he =>
          rw [← he]
          exact contains_of_saveProof hs (unhindered_map.1 hr)
        next => exact absurd hi' (by simp) }

theorem Kept.markProven (h : Kept dir limit lines saved l) {r : StepRecord}
    (ho : l.chain.owns r = true) :
    Kept dir limit lines saved { l with chain := l.chain.markProven r.index } where
  equipped := { h.equipped with
    sound := h.equipped.sound.markProven r.index
    marked := h.equipped.marked.markProven ho }
  holds := h.holds
  matched := h.matched.congr rfl rfl
  filed := h.filed.of_leaves rfl rfl (leaves_refl _ _ _)

/-! ## Steps -/

/-- The function of the head and what it gives are regular. -/
theorem Equipped.regular_of_produced (h : Equipped dir limit l) {expected : Commitment}
    {input fn output next : Value} {result : Machine.TracedEvaluation} (hi : input.Regular)
    (hp : Chain.Produced l.chain l.payloads expected input fn result output next) :
    fn.Regular ∧ next.Regular := by
  have hfn := hp.regular_function h.regular
  exact ⟨hfn, (hp.regular h.evaluator hfn hi).2⟩

theorem advance_eq {expected : Commitment} {input : Value} {r : Except Failure Chain.Step}
    (h : Ledger.advance expected input l = (r, l')) :
    ∃ c payloads world,
      Chain.advance expected input (l.chain, l.payloads, l.world) = (r, c, payloads, world) ∧
      l' = { l with chain := c, payloads := payloads, world := world } := by
  obtain ⟨⟨c, payloads, world⟩, ha, rfl⟩ := Action.on_eq.1 h
  exact ⟨c, payloads, world, ha, rfl⟩

theorem commit_eq {v : Value} {r : Except Failure Commitment} {payloads : Payloads Disk}
    {world : Disk} (h : Payloads.commit v (l.payloads, l.world) = (r, payloads, world)) :
    Ledger.commit v l = (r, { l with payloads := payloads, world := world }) := by
  rw [Ledger.commit, Ledger.onPayloads]
  exact Action.on_eq.2 ⟨(payloads, world), h, rfl⟩

/-- A step whose line was written before it failed. -/
structure TornStep (dir : Path) (limit : Int) (lines : List StepRecord)
    (saved : Option (Commitment × List Int)) (l : Ledger Disk) (expected : Commitment)
    (input : Value) (step : Chain.Step) (l' : Ledger Disk) : Prop where
  offered : ∃ fn result, Chain.Offered l.chain l.payloads expected input fn result step
  committed : ∃ payloads world, Payloads.commit step.next (l.payloads, l.world)
    = (.ok step.newHead, payloads, world)
  stored : ∃ p, l'.payloads.find? step.newHead = some p
  kept : Kept dir limit (lines ++ [step.record]) saved l'
  grown : Grown dir True l l'

/-- A step that fails leaves the chain, and leaves the lines or tears one. -/
theorem Kept.advance_eq_error (h : Kept dir limit lines saved l) {expected : Commitment}
    {input : Value} (hi : input.Regular) {e : Failure}
    (ha : Ledger.advance expected input l = (.error e, l')) :
    l'.chain = l.chain ∧
      (Kept dir limit lines saved l' ∧
          Grown dir (Unhindered (.error e : Except Failure Unit)) l l' ∨
        ∃ step fault, e = .disk fault ∧
          TornStep dir limit lines saved l expected input step l') := by
  have hsound := (Ledger.keeps_sound_advance expected input).after ha h.equipped.sound
  obtain ⟨c, payloads, world, hadvance, rfl⟩ := advance_eq ha
  obtain ⟨rfl, hstopped⟩ := h.equipped.sound.chain.unchanged hadvance
  refine ⟨rfl, ?_⟩
  cases hstopped with
  | early => exact .inl ⟨h, .refl dir _ l⟩
  | @commit _ _ _ _ r _ _ produced committed outcome =>
    obtain ⟨hk, hg, _⟩ :=
      h.commit (h.equipped.regular_of_produced hi produced).2 (commit_eq committed)
    refine .inl ⟨hk, hg.imp fun he => ?_⟩
    cases r with
    | ok c => exact unhindered_ok c
    | error e' =>
      obtain rfl := outcome e' rfl
      exact fun fault hf => he fault (by simpa using hf)
  | @heard fn result step _ world₁ _ offered committed refused =>
    obtain ⟨hfn, hnext⟩ := h.equipped.regular_of_produced hi offered.toProduced
    obtain ⟨hk, hg, _⟩ := h.commit hnext (commit_eq committed)
    have hrecord := offered.record_evaluated (Payloads.commit_eq_ok committed).1
      h.equipped.evaluator hfn hi
    rw [h.equipped.hearSteps, List.map_singleton, all_singleton] at refused
    have hleaves := saveStep_leaves refused
    have hequipped : Equipped dir limit { l with payloads := payloads, world := world } :=
      { hk.equipped with sound := hsound }
    have hfiled : Filed dir { l with payloads := payloads, world := world } :=
      hk.filed.of_leaves rfl rfl hleaves
    have hgrown : Grown dir True l { l with payloads := payloads, world := world } :=
      (hg.imp fun _ => unhindered_ok _).trans (grown_of_leaves rfl rfl hleaves)
    rcases hk.holds.saveStep hrecord (by rw [offered.index]; omega) offered.newHead refused with
      ⟨hok, _⟩ | ⟨e', he, hw | ⟨hw, hfault⟩⟩
    · exact absurd hok (by simp)
    · exact .inl ⟨⟨hequipped, hw, h.matched, hfiled⟩, hgrown.imp fun _ => trivial⟩
    · obtain rfl := Except.error.inj he
      obtain ⟨bytes, hbytes⟩ := exists_jsonLine_chainJson step.newHead.text h.proven_lt
      rcases hfault with hline | ⟨fault, rfl⟩
      · exact absurd (hbytes.symm.trans hline) (by simp)
      · exact .inr ⟨step, fault, rfl, ⟨fn, result, offered⟩, ⟨payloads, world₁, committed⟩,
          (Payloads.commit_eq_ok committed).2,
          ⟨hequipped, hw, h.matched.tear offered.index, hfiled⟩, hgrown⟩

/-- A step that succeeds writes its line and the new head. -/
theorem Kept.advance_eq_ok (h : Kept dir limit lines saved l) {expected : Commitment}
    {input : Value} (hi : input.Regular) {step : Chain.Step}
    (ha : Ledger.advance expected input l = (.ok step, l')) :
    l'.chain = l.chain.extend step.record step.newHead ∧
      step.record.index = l.chain.history.length + 1 ∧ Grown dir True l l' ∧
      Kept dir limit (lines ++ [step.record]) (some (step.newHead, l.chain.proven)) l' := by
  have hsound := (Ledger.keeps_sound_advance expected input).after ha h.equipped.sound
  obtain ⟨c, payloads, world, hadvance, rfl⟩ := advance_eq ha
  obtain ⟨fn, result, hc, hadvanced⟩ := Chain.advance_eq_ok hadvance
  obtain rfl : c = l.chain.extend step.record step.newHead := hc
  obtain ⟨world₁, committed, accepted⟩ := hadvanced.committed
  obtain ⟨hfn, hnext⟩ := h.equipped.regular_of_produced hi hadvanced.toProduced
  obtain ⟨hk, hg, _⟩ := h.commit hnext (commit_eq committed)
  have hrecord := hadvanced.record_evaluated (Payloads.commit_eq_ok committed).1
    h.equipped.evaluator hfn hi
  rw [h.equipped.hearSteps, List.map_singleton, all_singleton] at accepted
  have hleaves := saveStep_leaves accepted
  refine ⟨rfl, hadvanced.index,
    (hg.imp fun _ => unhindered_ok _).trans (grown_of_leaves rfl rfl hleaves), ?_⟩
  rcases hk.holds.saveStep hrecord (by rw [hadvanced.index]; omega) hadvanced.newHead accepted with
    ⟨_, hw⟩ | ⟨e, he, _⟩
  · exact {
      equipped := { hk.equipped with
        sound := hsound
        marked := h.equipped.marked.extend _ _ }
      holds := hw
      matched := h.matched.extend hadvanced.index step.newHead _
      filed := hk.filed.of_leaves rfl rfl hleaves }
  · exact absurd he (by simp)

end

end CommitChain.Archive
