import CommitChain.Proofs.Disk.Files
import CommitChain.Proofs.Record.Written
import CommitChain.Proofs.Value.Decoding

/-!
# What a store directory holds

`Holds dir lines saved disk` says what the files of a store directory are made of: the lines of some
records, perhaps a head, and payloads and proofs.  It says nothing about the ledger that wrote them.
Each thing that is written either is added to this or leaves it as it was.
-/

namespace CommitChain.Archive

open CommitChain.Text

variable {dir : Path}

/-! ## The files of a store directory -/

inductive OwnFile (dir : Path) : Path → Prop
  | steps : OwnFile dir (stepsFile dir)
  | chain : OwnFile dir (chainFile dir)
  | payload (name : String) : OwnFile dir (commitmentsDir dir ++ [name])
  | proof (name : String) : OwnFile dir (proofsDir dir ++ [name])

theorem OwnFile.ne_nil {p : Path} (hp : OwnFile dir p) : p ≠ [] := by
  cases hp <;> simp [stepsFile, chainFile]

/-- No file of a store directory stands above another. -/
theorem OwnFile.eq_of_prefix {p q : Path} (hp : OwnFile dir p) (hq : OwnFile dir q)
    (h : q <+: p) : q = p := by
  cases hp <;> cases hq <;>
    simp_all [stepsFile, chainFile, commitmentsDir, proofsDir, List.append_assoc]

/-- The text of the file of steps. -/
def stepsText (lines : List StepRecord) : String :=
  String.join ((lines.map StepRecord.text).map line)

/-- What stands at the file of steps; it is made with the first line. -/
def stepsEntry : List StepRecord → Option Disk.Entry
  | [] => none
  | r :: rest => some (.file (stepsText (r :: rest)).toUTF8)

theorem stepsText_append (lines : List StepRecord) (r : StepRecord) :
    stepsText (lines ++ [r]) = stepsText lines ++ line r.text := by
  rw [stepsText, stepsText, List.map_append, List.map_append, String.join_append]
  simp

theorem content_stepsEntry (lines : List StepRecord) :
    Disk.content (stepsEntry lines) = (stepsText lines).toUTF8 := by
  cases lines with
  | nil => rfl
  | cons r rest => rfl

theorem stepsEntry_append (lines : List StepRecord) (r : StepRecord) :
    stepsEntry (lines ++ [r])
      = some (.file (Disk.content (stepsEntry lines) ++ (line r.text).toUTF8)) := by
  have htext : (stepsText (lines ++ [r])).toUTF8
      = (stepsText lines).toUTF8 ++ (line r.text).toUTF8 := by
    rw [stepsText_append]
    exact String.toByteArray_append
  rw [content_stepsEntry, ← htext]
  cases lines with
  | nil => rfl
  | cons s rest => rfl

/-- The file of a payload has the name of its commitment and holds the encoding of a value. -/
structure PayloadFile (name : String) (entry : Disk.Entry) (c : Commitment) (v : Value)
    (x : Json) : Prop where
  name_eq : name = c.hex ++ ".json"
  regular : v.Regular
  encoding : v.encodeStrict = .ok x
  commitment : commitmentOf x = .ok c
  bytes : ∃ bytes, entry = .file bytes ∧ Disk.jsonLine x = .ok bytes

/-- What the files of a store directory hold. -/
structure Holds (dir : Path) (lines : List StepRecord) (saved : Option (Commitment × List Int))
    (disk : Disk) : Prop where
  written : ∀ r ∈ lines, r.Written
  made : ∀ p, OwnFile dir p → disk.contains p = true → disk.contains dir = true
  steps : disk.find? (stepsFile dir) = stepsEntry lines
  absent : saved = none → disk.find? (chainFile dir) = none
  chain : ∀ head proven, saved = some (head, proven) → ∃ bytes,
    Disk.jsonLine (chainJson head.text proven) = .ok bytes ∧
      disk.find? (chainFile dir) = some (.file bytes)
  payloads : ∀ name entry, disk.find? (commitmentsDir dir ++ [name]) = some entry →
    ∃ c v x, PayloadFile name entry c v x
  proofs : ∀ name entry, disk.find? (proofsDir dir ++ [name]) = some entry →
    ∃ identifier bytes, name = identifier ++ ".json" ∧ isProofIdentifier identifier = true ∧
      entry = .file bytes

/-- Whether a directory has none of the files of a store. -/
def Vacant (dir : Path) (disk : Disk) : Prop :=
  ∀ p, OwnFile dir p → disk.find? p = none

theorem Vacant.holds {disk : Disk} (h : Vacant dir disk) : Holds dir [] none disk where
  written r hr := absurd hr List.not_mem_nil
  made p hp hc := absurd hc (by simp [Disk.contains, h p hp])
  steps := h _ .steps
  absent _ := h _ .chain
  chain _ _ hs := absurd hs (by simp)
  payloads name entry he := absurd (he.symm.trans (h _ (.payload name))) (by simp)
  proofs name entry he := absurd (he.symm.trans (h _ (.proof name))) (by simp)

section

variable {lines : List StepRecord} {saved : Option (Commitment × List Int)} {disk disk' : Disk}

theorem Holds.contains_chainFile (h : Holds dir lines saved disk) :
    disk.contains (chainFile dir) = saved.isSome := by
  cases saved with
  | none => rw [Disk.contains, h.absent rfl, Option.isSome_none, Option.isSome_none]
  | some pair =>
    obtain ⟨bytes, _, hentry⟩ := h.chain pair.1 pair.2 rfl
    rw [Disk.contains, hentry]
    rfl

/-! ## Writing -/

/-- A file of a store directory stands below the directory. -/
theorem OwnFile.mem_ancestors {p : Path} (hp : OwnFile dir p) : dir ∈ Disk.ancestors p := by
  rw [Disk.mem_ancestors]
  cases hp <;> simp [stepsFile, chainFile, commitmentsDir, proofsDir, List.append_assoc]

/-- A change at one file of the directory leaves the others. -/
theorem OwnFile.others {p q : Path} (hp : OwnFile dir p) (hq : OwnFile dir q)
    (h : Disk.Beside p disk disk') (hne : q ≠ p) : disk'.find? q = disk.find? q :=
  h.others q fun hprefix => hne (hp.eq_of_prefix hq hprefix)

/-- A change that comes to nothing leaves all that the directory holds. -/
theorem Holds.unchanged (h : Holds dir lines saved disk) {p : Path} (hp : OwnFile dir p)
    (hb : Disk.Beside p disk disk' ∧ disk'.find? p = disk.find? p) :
    Holds dir lines saved disk' := by
  have hown : ∀ {q : Path}, OwnFile dir q → disk'.find? q = disk.find? q := fun {q} hq => by
    by_cases hqp : q = p
    · rw [hqp, hb.2]
    · exact hp.others hq hb.1 hqp
  exact {
    written := h.written
    made := fun q hq hc => by
      rw [Disk.contains, hown hq] at hc
      exact hb.1.contains_above hp.mem_ancestors (h.made q hq hc)
    steps := by rw [hown .steps, h.steps]
    absent := fun hs => by rw [hown .chain, h.absent hs]
    chain := fun head proven hs => by
      rw [hown .chain]
      exact h.chain head proven hs
    payloads := fun name entry hq => h.payloads name entry (by rwa [hown (.payload name)] at hq)
    proofs := fun name entry hq => h.proofs name entry (by rwa [hown (.proof name)] at hq) }

/-- A payload that is saved is one more that the directory holds. -/
theorem Holds.savePayload (h : Holds dir lines saved disk) {c : Commitment} {v : Value} {x : Json}
    (hv : v.Regular) (hx : v.encodeStrict = .ok x) (hc : commitmentOf x = .ok c)
    {r : Except Failure Unit} (hs : savePayload dir c ⟨v, x⟩ disk = (r, disk')) :
    Holds dir lines saved disk' := by
  have hown : OwnFile dir (commitmentFile dir c) := .payload _
  unfold Archive.savePayload at hs
  split at hs
  · cases hs
    exact h
  · cases r with
    | error e => exact h.unchanged hown (Disk.saveJson_eq_error hown.ne_nil hs).1
    | ok u =>
      obtain ⟨bytes, hbytes, hb, habove, hentry⟩ := Disk.saveJson_eq_ok hown.ne_nil hs
      have others := fun {q} (hq : OwnFile dir q) => hown.others hq hb
      have hsteps : stepsFile dir ≠ commitmentFile dir c := by
        simp [stepsFile, commitmentFile, commitmentsDir]
      have hchain : chainFile dir ≠ commitmentFile dir c := by
        simp [chainFile, commitmentFile, commitmentsDir]
      have hproof : ∀ name, proofsDir dir ++ [name] ≠ commitmentFile dir c := by
        simp [commitmentFile, commitmentsDir, proofsDir]
      exact {
        written := h.written
        made := fun _ _ _ => Disk.contains_of_find? (habove dir hown.mem_ancestors)
        steps := by rw [others .steps hsteps, h.steps]
        absent := fun hs => by rw [others .chain hchain, h.absent hs]
        chain := fun head proven hs => by
          rw [others .chain hchain]
          exact h.chain head proven hs
        payloads := fun name entry hq => by
          by_cases hn : commitmentsDir dir ++ [name] = commitmentFile dir c
          · rw [hn, hentry] at hq
            cases hq
            exact ⟨c, v, x, by simpa [commitmentFile] using hn, hv, hx, hc, bytes, rfl, hbytes⟩
          · exact h.payloads name entry (by rwa [others (.payload name) hn] at hq)
        proofs := fun name entry hq =>
          h.proofs name entry (by rwa [others (.proof name) (hproof name)] at hq) }

/-- A proof that is saved is one more that the directory holds. -/
theorem Holds.saveProof (h : Holds dir lines saved disk) {identifier : String} {bytes : ByteArray}
    (hi : isProofIdentifier identifier = true) {r : Except Failure Unit}
    (hs : saveProof dir identifier bytes disk = (r, disk')) :
    Holds dir lines saved disk' := by
  have hown : OwnFile dir (proofFile dir identifier) := .proof _
  unfold Archive.saveProof at hs
  split at hs
  · cases hs
    exact h
  · cases r with
    | error e => exact h.unchanged hown (Disk.saveBytes_eq_error hown.ne_nil hs).1
    | ok u =>
      obtain ⟨hb, habove, hentry⟩ := Disk.saveBytes_eq_ok hown.ne_nil hs
      have others := fun {q} (hq : OwnFile dir q) => hown.others hq hb
      have hsteps : stepsFile dir ≠ proofFile dir identifier := by
        simp [stepsFile, proofFile, proofsDir]
      have hchain : chainFile dir ≠ proofFile dir identifier := by
        simp [chainFile, proofFile, proofsDir]
      have hpayload : ∀ name, commitmentsDir dir ++ [name] ≠ proofFile dir identifier := by
        simp [proofFile, commitmentsDir, proofsDir]
      exact {
        written := h.written
        made := fun _ _ _ => Disk.contains_of_find? (habove dir hown.mem_ancestors)
        steps := by rw [others .steps hsteps, h.steps]
        absent := fun hs => by rw [others .chain hchain, h.absent hs]
        chain := fun head proven hs => by
          rw [others .chain hchain]
          exact h.chain head proven hs
        payloads := fun name entry hq =>
          h.payloads name entry (by rwa [others (.payload name) (hpayload name)] at hq)
        proofs := fun name entry hq => by
          by_cases hn : proofsDir dir ++ [name] = proofFile dir identifier
          · rw [hn, hentry] at hq
            cases hq
            exact ⟨identifier, bytes, by simpa [proofFile] using hn, hi, rfl⟩
          · exact h.proofs name entry (by rwa [others (.proof name) hn] at hq) }

/-- The file of the chain holds the head that was saved last. -/
theorem Holds.saveChain (h : Holds dir lines saved disk) {head : Commitment} {proven : List Int}
    (hs : saveChain dir head proven disk = (.ok (), disk')) :
    Holds dir lines (some (head, proven)) disk' := by
  have hown : OwnFile dir (chainFile dir) := .chain
  obtain ⟨bytes, hbytes, hb, habove, hentry⟩ := Disk.saveJson_eq_ok hown.ne_nil hs
  have others := fun {q} (hq : OwnFile dir q) => hown.others hq hb
  have hsteps : stepsFile dir ≠ chainFile dir := by simp [stepsFile, chainFile]
  have hpayload : ∀ name, commitmentsDir dir ++ [name] ≠ chainFile dir := by
    simp [chainFile, commitmentsDir]
  have hproof : ∀ name, proofsDir dir ++ [name] ≠ chainFile dir := by simp [chainFile, proofsDir]
  exact {
    written := h.written
    made := fun _ _ _ => Disk.contains_of_find? (habove dir hown.mem_ancestors)
    steps := by rw [others .steps hsteps, h.steps]
    absent := fun hs => absurd hs (by simp)
    chain := fun _ _ hs => by
      cases hs
      exact ⟨bytes, hbytes, hentry⟩
    payloads := fun name entry hq =>
      h.payloads name entry (by rwa [others (.payload name) (hpayload name)] at hq)
    proofs := fun name entry hq =>
      h.proofs name entry (by rwa [others (.proof name) (hproof name)] at hq) }

theorem Holds.saveChain_eq_error (h : Holds dir lines saved disk) {head : Commitment}
    {proven : List Int} {e : Failure}
    (hs : Archive.saveChain dir head proven disk = (.error e, disk')) :
    Holds dir lines saved disk' :=
  h.unchanged .chain (Disk.saveJson_eq_error OwnFile.chain.ne_nil hs).1

/-- The file of steps has one more line. -/
theorem Holds.appendStep (h : Holds dir lines saved disk) {r : StepRecord} (hr : r.Evaluated)
    (hi : 1 ≤ r.index) (hs : Disk.appendJson (stepsFile dir) r.toJson disk = (.ok (), disk')) :
    Holds dir (lines ++ [r]) saved disk' := by
  have hown : OwnFile dir (stepsFile dir) := .steps
  obtain ⟨bytes, hbytes, hb, habove, hentry⟩ := Disk.appendJson_eq_ok hown.ne_nil hs
  obtain ⟨text, htext, rfl⟩ := Disk.jsonLine_eq_ok.1 hbytes
  have others := fun {q} (hq : OwnFile dir q) => hown.others hq hb
  have hchain : chainFile dir ≠ stepsFile dir := by simp [stepsFile, chainFile]
  have hpayload : ∀ name, commitmentsDir dir ++ [name] ≠ stepsFile dir := by
    simp [stepsFile, commitmentsDir]
  have hproof : ∀ name, proofsDir dir ++ [name] ≠ stepsFile dir := by simp [stepsFile, proofsDir]
  obtain rfl : r.text = text := (Json.canonical_eq_ok.1 htext).2.2
  exact {
    written := List.forall_mem_append.2 ⟨h.written, List.forall_mem_singleton.2 ⟨hr, hi, htext⟩⟩
    made := fun _ _ _ => Disk.contains_of_find? (habove dir hown.mem_ancestors)
    steps := by rw [hentry, h.steps, stepsEntry_append]
    absent := fun hs => by rw [others .chain hchain, h.absent hs]
    chain := fun head proven hs => by
      rw [others .chain hchain]
      exact h.chain head proven hs
    payloads := fun name entry hq =>
      h.payloads name entry (by rwa [others (.payload name) (hpayload name)] at hq)
    proofs := fun name entry hq =>
      h.proofs name entry (by rwa [others (.proof name) (hproof name)] at hq) }

/-- Saving a step is appending its line and writing its head. -/
theorem saveStep_eq {r : StepRecord} {head : Commitment} (hhead : r.claim.newHead = head.text)
    (proven : List Int) (disk : Disk) :
    saveStep dir r proven disk = (Disk.appendJson (stepsFile dir) r.toJson >>= fun _ =>
      Archive.saveChain dir head proven) disk := by
  rw [saveStep, hhead, Commitment.ofText?_text]

/-- Saving a step writes its line and its head, or nothing, or the line alone; that happens only if
the head cannot be written. -/
theorem Holds.saveStep (h : Holds dir lines saved disk) {r : StepRecord} (hr : r.Evaluated)
    (hi : 1 ≤ r.index) {head : Commitment} (hhead : r.claim.newHead = head.text)
    {proven : List Int} {result : Except Failure Unit}
    (hs : saveStep dir r proven disk = (result, disk')) :
    result = .ok () ∧ Holds dir (lines ++ [r]) (some (head, proven)) disk' ∨
      ∃ e, result = .error e ∧ (Holds dir lines saved disk' ∨
        Holds dir (lines ++ [r]) saved disk' ∧
          (Disk.jsonLine (chainJson head.text proven) = .error e ∨ ∃ fault, e = .disk fault)) := by
  rw [saveStep_eq hhead] at hs
  cases result with
  | ok u =>
    obtain ⟨_, disk₁, hline, hs⟩ := Action.bind_eq_ok.1 hs
    exact .inl ⟨rfl, (h.appendStep hr hi hline).saveChain hs⟩
  | error e =>
    refine .inr ⟨e, rfl, ?_⟩
    rcases Action.bind_eq_error.1 hs with hs | ⟨_, disk₁, hline, hs⟩
    · exact .inl (h.unchanged .steps (Disk.appendJson_eq_error OwnFile.steps.ne_nil hs).1)
    · exact .inr ⟨(h.appendStep hr hi hline).saveChain_eq_error hs,
        (Disk.saveJson_eq_error OwnFile.chain.ne_nil hs).2⟩

/-- Numbers that can be written leave nothing in the way of the file of the chain. -/
theorem exists_jsonLine_chainJson (head : String) {proven : List Int}
    (h : ∀ i ∈ proven, i.natAbs < integerBound) :
    ∃ bytes, Disk.jsonLine (chainJson head proven) = .ok bytes := by
  have hplain : (chainJson head proven).Plain := by
    refine Json.plain_obj (List.forall_mem_cons.2 ⟨Json.plain_str _,
      List.forall_mem_singleton.2 (Json.plain_arr (List.forall_mem_map.2 fun i hi => ?_))⟩)
    exact Json.plain_int (h i hi)
  exact ⟨_, Disk.jsonLine_eq_ok.2 ⟨_, hplain.canonical, rfl⟩⟩

/-! ## Files that are not written -/

/-- What one operation on a store directory leaves: all files but those it writes. -/
def Leaves (dir : Path) (written : List Path) (disk disk' : Disk) : Prop :=
  ∀ q, OwnFile dir q → q ∉ written → disk'.find? q = disk.find? q

theorem OwnFile.leaves {p : Path} (hp : OwnFile dir p) (h : Disk.Beside p disk disk') :
    Leaves dir [p] disk disk' :=
  fun _ hq hne => hp.others hq h fun he => hne (he ▸ List.mem_singleton_self _)

theorem savePayload_leaves {c : Commitment} {p : Payload} {r : Except Failure Unit}
    (hs : savePayload dir c p disk = (r, disk')) :
    Leaves dir [commitmentFile dir c] disk disk' := by
  have hown : OwnFile dir (commitmentFile dir c) := .payload _
  unfold Archive.savePayload at hs
  split at hs
  · cases hs
    exact fun _ _ _ => rfl
  · exact hown.leaves (Disk.saveJson_beside hown.ne_nil hs)

/-- A payload that the disk does not refuse has its file. -/
theorem contains_of_savePayload {c : Commitment} {p : Payload}
    (hc : commitmentOf p.encoding = .ok c) {r : Except Failure Unit}
    (hs : savePayload dir c p disk = (r, disk')) (hr : Unhindered r) :
    disk'.contains (commitmentFile dir c) = true := by
  have hown : OwnFile dir (commitmentFile dir c) := .payload _
  unfold Archive.savePayload at hs
  split at hs
  next hthere =>
    cases hs
    exact hthere
  · cases r with
    | ok u =>
      obtain ⟨_, _, _, _, hentry⟩ := Disk.saveJson_eq_ok hown.ne_nil hs
      exact Disk.contains_of_find? hentry
    | error e =>
      obtain ⟨text, htext⟩ := exists_canonical_of_commitmentOf hc
      rcases (Disk.saveJson_eq_error hown.ne_nil hs).2 with hline | ⟨fault, rfl⟩
      · rw [Disk.jsonLine_eq_ok.2 ⟨text, htext, rfl⟩] at hline
        exact absurd hline (by simp)
      · exact absurd hr (not_unhindered fault)

/-- A file that savePayload has brought about holds the encoding of the payload. -/
theorem file_of_savePayload {c : Commitment} {p : Payload} {r : Except Failure Unit}
    (habsent : disk.contains (commitmentFile dir c) = false)
    (hs : savePayload dir c p disk = (r, disk'))
    (hthere : disk'.contains (commitmentFile dir c) = true) :
    ∃ bytes, disk'.find? (commitmentFile dir c) = some (.file bytes) ∧
      Disk.jsonLine p.encoding = .ok bytes := by
  have hown : OwnFile dir (commitmentFile dir c) := .payload _
  unfold Archive.savePayload at hs
  rw [habsent, if_neg Bool.false_ne_true] at hs
  cases r with
  | ok u =>
    obtain ⟨bytes, hbytes, _, _, hentry⟩ := Disk.saveJson_eq_ok hown.ne_nil hs
    exact ⟨bytes, hentry, hbytes⟩
  | error e =>
    rw [Disk.contains, (Disk.saveJson_eq_error hown.ne_nil hs).1.2, ← Disk.contains, habsent]
      at hthere
    exact absurd hthere Bool.false_ne_true

theorem saveProof_leaves {identifier : String} {bytes : ByteArray} {r : Except Failure Unit}
    (hs : saveProof dir identifier bytes disk = (r, disk')) :
    Leaves dir [proofFile dir identifier] disk disk' := by
  have hown : OwnFile dir (proofFile dir identifier) := .proof _
  unfold Archive.saveProof at hs
  split at hs
  · cases hs
    exact fun _ _ _ => rfl
  · exact hown.leaves (Disk.saveBytes_beside hown.ne_nil hs)

theorem contains_of_saveProof {identifier : String} {bytes : ByteArray} {r : Except Failure Unit}
    (hs : saveProof dir identifier bytes disk = (r, disk')) (hr : Unhindered r) :
    disk'.contains (proofFile dir identifier) = true := by
  have hown : OwnFile dir (proofFile dir identifier) := .proof _
  unfold Archive.saveProof at hs
  split at hs
  next hthere =>
    cases hs
    exact hthere
  · cases r with
    | ok u => exact Disk.contains_of_find? (Disk.saveBytes_eq_ok hown.ne_nil hs).2.2
    | error e =>
      obtain ⟨fault, rfl⟩ := (Disk.saveBytes_eq_error hown.ne_nil hs).2
      exact absurd hr (not_unhindered fault)

/-- A file that saveProof has brought about holds the proof. -/
theorem file_of_saveProof {identifier : String} {bytes : ByteArray} {r : Except Failure Unit}
    (habsent : disk.contains (proofFile dir identifier) = false)
    (hs : saveProof dir identifier bytes disk = (r, disk'))
    (hthere : disk'.contains (proofFile dir identifier) = true) :
    disk'.find? (proofFile dir identifier) = some (.file bytes) := by
  have hown : OwnFile dir (proofFile dir identifier) := .proof _
  unfold Archive.saveProof at hs
  rw [habsent, if_neg Bool.false_ne_true] at hs
  cases r with
  | ok u => exact (Disk.saveBytes_eq_ok hown.ne_nil hs).2.2
  | error e =>
    rw [Disk.contains, (Disk.saveBytes_eq_error hown.ne_nil hs).1.2, ← Disk.contains, habsent]
      at hthere
    exact absurd hthere Bool.false_ne_true

theorem saveChain_leaves {head : Commitment} {proven : List Int} {r : Except Failure Unit}
    (hs : Archive.saveChain dir head proven disk = (r, disk')) :
    Leaves dir [chainFile dir] disk disk' :=
  OwnFile.chain.leaves (Disk.saveJson_beside OwnFile.chain.ne_nil hs)

theorem Leaves.trans {written written' : List Path} {disk₁ : Disk}
    (h : Leaves dir written disk disk₁) (h' : Leaves dir written' disk₁ disk')
    (hsub : written' ⊆ written) : Leaves dir written disk disk' :=
  fun q hq hne => (h' q hq fun hm => hne (hsub hm)).trans (h q hq hne)

theorem saveStep_leaves {record : StepRecord} {proven : List Int} {r : Except Failure Unit}
    (hs : saveStep dir record proven disk = (r, disk')) :
    Leaves dir [stepsFile dir, chainFile dir] disk disk' := by
  have hkeeps : Action.Keeps (Leaves dir [stepsFile dir, chainFile dir] disk)
      (saveStep dir record proven) := by
    refine Action.Keeps.bind (fun disk₁ h => h.trans (OwnFile.steps.leaves
      (Disk.appendJson_beside OwnFile.steps.ne_nil rfl)) (by simp)) fun _ => ?_
    split
    · exact fun disk₁ h => h.trans (saveChain_leaves rfl) (by simp)
    · exact Action.keeps_fail _
  exact hkeeps.after hs fun _ _ _ => rfl

end

end CommitChain.Archive
