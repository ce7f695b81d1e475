import CommitChain.Proofs.Session.Changes
import CommitChain.Proofs.Session.Problems

/-!
# Audits of directories that sessions write

The payloads, the proofs and the file of the chain that a session writes are in order by themselves
(`Genuine`), so what an audit of them finds depends on the steps alone: whether they can be read,
are linked, lead to the head, and name commitments with a payload (`Genuine.ok_iff`).

If the disk refused nothing, that comes down to whether each record can be read, and the counts and
the head of the report are those of the session (`audits_clean_iff_legible`).
-/

namespace CommitChain

namespace Audit

open Archive

variable {dir : Path} {saved : Option (Commitment × List Int)} {disk disk' : Disk}

/-- Payloads, proofs and a file of the chain as sessions write them. -/
structure Genuine (dir : Path) (saved : Option (Commitment × List Int)) (disk : Disk) : Prop where
  payloads : ∀ name entry, disk.find? (commitmentsDir dir ++ [name]) = some entry →
    ∃ c v x, PayloadFile name entry c v x
  proofs : ∀ name entry, disk.find? (proofsDir dir ++ [name]) = some entry →
    ∃ bytes, name = proofIdentifier bytes ++ ".json" ∧ entry = .file bytes
  absent : saved = none → disk.find? (chainFile dir) = none
  chain : ∀ head proven, saved = some (head, proven) → ∃ bytes,
    Disk.jsonLine (chainJson head.text proven) = .ok bytes ∧
      disk.find? (chainFile dir) = some (.file bytes)

/-- The file of steps does not count. -/
theorem Genuine.congr (h : Genuine dir saved disk)
    (hsame : ∀ p, OwnFile dir p → p ≠ stepsFile dir → disk'.find? p = disk.find? p) :
    Genuine dir saved disk' := by
  have hpayload : ∀ name, disk'.find? (commitmentsDir dir ++ [name])
      = disk.find? (commitmentsDir dir ++ [name]) :=
    fun name => hsame _ (.payload name) (by simp [stepsFile, commitmentsDir])
  have hproof : ∀ name, disk'.find? (proofsDir dir ++ [name])
      = disk.find? (proofsDir dir ++ [name]) :=
    fun name => hsame _ (.proof name) (by simp [stepsFile, proofsDir])
  have hchain : disk'.find? (chainFile dir) = disk.find? (chainFile dir) :=
    hsame _ .chain (by simp [stepsFile, chainFile])
  constructor
  · intro name entry he
    exact h.payloads name entry (by rwa [hpayload] at he)
  · intro name entry he
    exact h.proofs name entry (by rwa [hproof] at he)
  · intro hs
    rw [hchain, h.absent hs]
  · intro head proven hs
    rw [hchain]
    exact h.chain head proven hs

/-! ## Payloads -/

/-- A commitment is written in lower case. -/
theorem named_hex (c : Commitment) : Named c (c.hex ++ ".json") := by
  have hlower : c.hex.toList.map Char.toLower = c.hex.toList := by
    refine (List.map_congr_left fun a ha => ?_).trans (List.map_id _)
    refine (Commitment.plain_of_mem_text (c := c) ?_).2.2.1
    rw [Commitment.toList_text, String.toList_ofList]
    exact List.mem_cons_of_mem _ (List.mem_cons_of_mem _ ha)
  rw [Named, stem_hex, hlower, String.ofList_toList]

theorem commitmentIn_of_stands {c : Commitment} {p : Payload} (h : Stands dir disk c p) :
    commitmentIn disk (commitmentFile dir c) = .ok c := by
  obtain ⟨⟨x, hx, hv⟩, he, hc⟩ := h
  refine bind_eq_ok.2 ⟨x, hx, orFail_eq_ok.2 (bind_eq_ok.2 ⟨p.value, hv, ?_⟩)⟩
  rw [Value.commitment, he]
  exact hc

/-- Each payload has the name of its commitment. -/
theorem Genuine.payload_eq (h : Genuine dir saved disk) {name : String}
    (hname : name ∈ jsonNames disk (commitmentsDir dir)) :
    ∃ c, name = c.hex ++ ".json" ∧ commitmentIn disk (commitmentsDir dir ++ [name]) = .ok c := by
  obtain ⟨⟨entry, he⟩, _⟩ := mem_jsonNames.1 hname
  obtain ⟨c, v, x, hfile⟩ := h.payloads name entry he
  have hc := commitmentIn_of_stands (hfile.stands he)
  rw [commitmentFile, ← hfile.name_eq] at hc
  exact ⟨c, hfile.name_eq, hc⟩

/-- The commitments that were verified are those with a file. -/
theorem Genuine.verified_iff (h : Genuine dir saved disk) {text : String} :
    Verified disk dir text ↔ ∃ c, text = Commitment.text c ∧
      disk.contains (commitmentFile dir c) = true := by
  constructor
  · rintro ⟨name, hname, c, hc, _, rfl⟩
    obtain ⟨k, hk, hk'⟩ := h.payload_eq hname
    obtain rfl : c = k := Except.ok.inj (hc.symm.trans hk')
    subst hk
    exact ⟨c, rfl, contains_iff_mem_jsonNames.2 hname⟩
  · rintro ⟨c, rfl, hfile⟩
    have hname := contains_iff_mem_jsonNames.1 hfile
    obtain ⟨k, hk, hc⟩ := h.payload_eq hname
    obtain rfl : c = k := Hash.Digest.hex_inj.1 (Path.append_json_inj.1 hk)
    exact ⟨_, hname, c, hc, named_hex c, rfl⟩

/-! ## The head -/

theorem Genuine.headIn_eq (h : Genuine dir saved disk) {head : Commitment} {proven : List Int}
    (hs : saved = some (head, proven)) :
    headIn disk (chainFile dir) = .ok (some (.str head.text)) := by
  obtain ⟨bytes, hbytes, hentry⟩ := h.chain head proven hs
  have hn : Json.Distinct ([("head", Json.str head.text),
      ("proven", .arr (proven.map .int))].map Prod.fst) :=
    (by decide : Json.Distinct ["head", "proven"])
  rw [headIn, Disk.loadJson_of_find? hentry hbytes (depth_chainJson _ _), ok_bind, chainJson,
    Json.canonicalForm_obj, Json.member?, Json.find?_canonicalObject hn]
  simp only [Keyed.find?, if_pos, Option.map_some, Json.canonicalForm]
  rw [head.isNormal_text]

theorem Genuine.contains_chainFile (h : Genuine dir saved disk) (hs : saved = none) :
    disk.contains (chainFile dir) = false := by
  rw [Disk.contains, h.absent hs]
  rfl

/-- The head that an audit reads is the one that was saved. -/
theorem Genuine.saved_of_headIn (h : Genuine dir saved disk) {x : Json}
    (hx : headIn disk (chainFile dir) = .ok (some x)) :
    ∃ head proven, saved = some (head, proven) ∧ x = .str head.text := by
  rcases hs : saved with _ | ⟨head, proven⟩
  · exact absurd ((h.contains_chainFile hs).symm.trans (contains_of_headIn hx)) (by simp)
  · have he := (h.headIn_eq hs).symm.trans hx
    exact ⟨head, proven, rfl, (Option.some.inj (Except.ok.inj he)).symm⟩

/-! ## Reports -/

/-- There is a report on what sessions write. -/
theorem Genuine.exists_run (h : Genuine dir saved disk) : ∃ report, run disk dir = .ok report := by
  refine exists_run_iff.2 ⟨?_, ?_⟩
  · intro path hpath
    cases hpath with
    | payload hname =>
      obtain ⟨c, _, hc⟩ := h.payload_eq hname
      rw [← commitmentIn_eq_misshapen, hc]
      simp
    | chain =>
      rcases hs : saved with _ | ⟨head, proven⟩
      · rintro ⟨_, _, hfile, _⟩
        exact absurd ((h.absent hs).symm.trans hfile) (by simp)
      · rw [← headIn_eq_misshapen, h.headIn_eq hs]
        simp
  · intro x hx
    obtain ⟨head, _, _, rfl⟩ := h.saved_of_headIn hx
    exact .inr ⟨_, rfl⟩

theorem Genuine.head_of_run (h : Genuine dir saved disk) {report : AuditReport}
    (hr : run disk dir = .ok report) : report.head = saved.map fun pair => pair.1.text := by
  obtain ⟨hsome, hnone⟩ := Audit.head_of_run hr
  rcases hs : saved with _ | ⟨head, proven⟩
  · exact hnone (h.contains_chainFile hs)
  · exact hsome _ (h.headIn_eq hs)

/-- What sessions write has no problem if its steps are in order. -/
theorem Genuine.not_problem (h : Genuine dir saved disk) {records : List StepRecord}
    (hrecords : loadSteps disk dir = .ok records) (hlinked : Chain.Linked records)
    (hverified : ∀ r ∈ records,
      Verified disk dir r.claim.prior ∧ Verified disk dir r.claim.newHead)
    (hhead : ∀ head proven, saved = some (head, proven) → Verified disk dir head.text ∧
      ∀ r ∈ records.getLast?, r.claim.newHead = head.text) (code : AuditCode) (path : Path) :
    ¬Problem disk dir code path := by
  intro hproblem
  obtain ⟨hindex, hjoined⟩ := Chain.linked_iff_getElem?.1 hlinked
  have hsame : ∀ {other}, loadSteps disk dir = .ok other → records = other :=
    fun ho => Except.ok.inj (hrecords.symm.trans ho)
  cases hproblem with
  | payloadUnreadable hname hf =>
    obtain ⟨c, _, hc⟩ := h.payload_eq hname
    exact absurd (hc.symm.trans hf) (by simp)
  | payloadMisnamed hname hc hnamed =>
    obtain ⟨k, rfl, hk⟩ := h.payload_eq hname
    obtain rfl := Except.ok.inj (hc.symm.trans hk)
    exact hnamed (named_hex _)
  | proofUnreadable hname hf =>
    obtain ⟨⟨entry, he⟩, _⟩ := mem_jsonNames.1 hname
    obtain ⟨bytes, _, rfl⟩ := h.proofs _ entry he
    exact absurd ((Disk.load_of_find? he).symm.trans hf) (by simp)
  | proofMisnamed hname hb hne =>
    obtain ⟨⟨entry, he⟩, _⟩ := mem_jsonNames.1 hname
    obtain ⟨bytes, rfl, rfl⟩ := h.proofs _ entry he
    obtain rfl := Except.ok.inj ((Disk.load_of_find? he).symm.trans hb)
    refine hne (Path.stem_append ?_).symm
    exact ne_empty_of_isProofIdentifier (isProofIdentifier_proofIdentifier _)
  | stepsUnreadable hf => exact absurd (hrecords.symm.trans hf) (by simp)
  | stepMisnumbered ho hi hne =>
    obtain rfl := hsame ho
    exact hne (hindex _ _ hi)
  | stepUnlinked ho hi hi' hne =>
    obtain rfl := hsame ho
    exact hne (hjoined _ _ _ hi hi')
  | @stepUnresolved _ r text ho hmem htext hnot =>
    obtain rfl := hsame ho
    obtain ⟨hprior, hnewHead⟩ := hverified r hmem
    rcases List.mem_cons.1 htext with rfl | htext
    · exact hnot hprior
    · rw [List.mem_singleton.1 htext] at hnot
      exact hnot hnewHead
  | chainUnreadable hfile hnone =>
    rcases hs : saved with _ | ⟨head, proven⟩
    · exact absurd (hfile.symm.trans (h.contains_chainFile hs)) (by simp)
    · exact hnone _ (h.headIn_eq hs)
  | headNotLast ho hlast hx hne =>
    obtain rfl := hsame ho
    obtain ⟨head, proven, hs, rfl⟩ := h.saved_of_headIn hx
    exact hne (congrArg Json.str ((hhead head proven hs).2 _ hlast).symm)
  | headUnresolved hx hnot =>
    obtain ⟨head, proven, hs, rfl⟩ := h.saved_of_headIn hx
    exact hnot _ rfl (hhead head proven hs).1

/-- An audit of what sessions write finds nothing exactly if the steps can be read, are linked, lead
to the head, and name commitments that have a payload, as the head does. -/
theorem Genuine.ok_iff (h : Genuine dir saved disk) {report : AuditReport}
    (hr : run disk dir = .ok report) :
    report.ok = true ↔ ∃ records, loadSteps disk dir = .ok records ∧ Chain.Linked records ∧
      (∀ r ∈ records, Verified disk dir r.claim.prior ∧ Verified disk dir r.claim.newHead) ∧
      ∀ head proven, saved = some (head, proven) → Verified disk dir head.text ∧
        ∀ r ∈ records.getLast?, r.claim.newHead = head.text := by
  rw [Audit.ok_iff hr]
  constructor
  · intro hnone
    obtain ⟨records, hrecords, hlinked, hverified⟩ := exists_steps_of_not_problem hnone
    refine ⟨records, hrecords, hlinked, hverified, fun head proven hs => ?_⟩
    have hhead := h.headIn_eq hs
    obtain ⟨text, htext, hv, hlast⟩ :=
      exists_head_of_not_problem hnone hrecords (contains_of_headIn hhead)
    cases hhead.symm.trans htext
    exact ⟨hv, hlast⟩
  · rintro ⟨records, hrecords, hlinked, hverified, hhead⟩
    exact h.not_problem hrecords hlinked hverified hhead

end Audit

/-! ## Sessions -/

namespace Session

open Archive

variable {dir : Path} {lines : List StepRecord} {saved : Option (Commitment × List Int)}
  {s : Session}

/-- A session that backs its directory up has written genuine files. -/
theorem Backed.genuine (h : Backed dir lines saved s) (ho : Orderly dir s.ledger) :
    Audit.Genuine dir saved s.disk where
  payloads := h.kept.holds.payloads
  proofs name entry he := by
    obtain ⟨i, bytes, rfl, _, rfl⟩ := h.kept.holds.proofs name entry he
    obtain ⟨b, hb, hfile⟩ := h.kept.filed.proofs i (Disk.contains_of_find? he)
    obtain rfl : bytes = b := by simpa using he.symm.trans hfile
    exact ⟨bytes, congrArg (· ++ ".json") (ho.named _ (Store.mem_of_findEntry? hb)), rfl⟩
  absent := h.kept.holds.absent
  chain := h.kept.holds.chain

/-- What is stored has a payload that an audit verifies. -/
theorem Mirrored.verified (h : Mirrored dir s) (ho : Orderly dir s.ledger) {text : String}
    (hr : Resolves s.ledger.payloads text) : Audit.Verified s.disk dir text := by
  obtain ⟨c, p, rfl, hp⟩ := hr
  exact (h.backed.genuine ho).verified_iff.2 ⟨c, rfl, h.stored.payloads c p hp⟩

/-- The head that was saved has a payload, and the last record leads to it. -/
theorem Mirrored.head_verified (h : Mirrored dir s) (ho : Orderly dir s.ledger) {head : Commitment}
    (hs : s.ledger.chain.head? = some head) : Audit.Verified s.disk dir head.text ∧
      ∀ r ∈ s.ledger.chain.history.getLast?, r.claim.newHead = head.text := by
  have hchain := h.backed.kept.equipped.sound.chain
  rw [Chain.head?] at hs
  cases hstanding : s.ledger.chain.standing with
  | fresh => exact absurd hs (by simp [hstanding, Standing.head?])
  | faulted head' => exact absurd hstanding (hchain.running head')
  | active head' =>
    obtain rfl : head' = head := by simpa [hstanding, Standing.head?] using hs
    obtain ⟨p, hp, _⟩ := hchain.stored head' hstanding
    exact ⟨h.verified ho ⟨head', p, rfl, hp⟩, hchain.newHead_eq hstanding⟩

end Session

end CommitChain
