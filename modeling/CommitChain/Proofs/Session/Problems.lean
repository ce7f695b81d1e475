import CommitChain.Proofs.Session.Loading

/-!
# Problems and issues

`Problem` lists, file by file, what can be wrong in a store directory: every kind of problem with
the code and the file that an issue about it has.  A report has an issue for each problem and for
nothing else (`reports_problems_unless_head_misshapen`).

There is a report for every content of the files but one.  A head in `chain.json` that is neither
text nor null ends the audit with a failure, and no report is made.
-/

namespace CommitChain

namespace Audit

open Archive

variable {disk : Disk} {root : Path} {code : AuditCode} {path : Path}

/-- The JSON text of a file is nested too deeply. -/
def TooDeep (disk : Disk) (path : Path) : Prop :=
  ∃ bytes text, disk.find? path = some (.file bytes) ∧ String.fromUTF8? bytes = some text ∧
    Json.parse text = .error .tooDeep

/-- The files that an audit reads as one JSON text. -/
inductive ReadAsJson (disk : Disk) (root : Path) : Path → Prop
  | payload {name : String} : name ∈ jsonNames disk (commitmentsDir root) →
      ReadAsJson disk root (commitmentsDir root ++ [name])
  | chain : ReadAsJson disk root (chainFile root)

/-- A payload commits to what its file is named after. -/
def Named (c : Commitment) (name : String) : Prop :=
  c.hex = String.ofList ((Path.stem name).toList.map Char.toLower)

/-- The payload of a commitment has a file that is named after it. -/
def Verified (disk : Disk) (root : Path) (text : String) : Prop :=
  ∃ name ∈ jsonNames disk (commitmentsDir root), ∃ c,
    commitmentIn disk (commitmentsDir root ++ [name]) = .ok c ∧ Named c name ∧ text = c.text

/-- What can be wrong in a store directory, with its code and its file. -/
inductive Problem (disk : Disk) (root : Path) : AuditCode → Path → Prop
  | payloadUnreadable {name : String} {f : Failure} :
      name ∈ jsonNames disk (commitmentsDir root) →
      commitmentIn disk (commitmentsDir root ++ [name]) = .error f →
      Problem disk root .unreadableFile (commitmentsDir root ++ [name])
  | payloadMisnamed {name : String} {c : Commitment} :
      name ∈ jsonNames disk (commitmentsDir root) →
      commitmentIn disk (commitmentsDir root ++ [name]) = .ok c → ¬Named c name →
      Problem disk root .commitmentMismatch (commitmentsDir root ++ [name])
  | proofUnreadable {name : String} {f : Failure} :
      name ∈ jsonNames disk (proofsDir root) →
      disk.load (proofsDir root ++ [name]) = .error f →
      Problem disk root .unreadableFile (proofsDir root ++ [name])
  | proofMisnamed {name : String} {bytes : ByteArray} :
      name ∈ jsonNames disk (proofsDir root) →
      disk.load (proofsDir root ++ [name]) = .ok bytes →
      proofIdentifier bytes ≠ Path.stem name →
      Problem disk root .proofIdMismatch (proofsDir root ++ [name])
  | stepsUnreadable {f : Failure} : loadSteps disk root = .error f →
      Problem disk root .unreadableFile (stepsFile root)
  | stepMisnumbered {records : List StepRecord} {i : Nat} {r : StepRecord} :
      loadSteps disk root = .ok records → records[i]? = some r → r.index ≠ i + 1 →
      Problem disk root .stepGap (stepsFile root)
  | stepUnlinked {records : List StepRecord} {i : Nat} {r r' : StepRecord} :
      loadSteps disk root = .ok records → records[i]? = some r → records[i + 1]? = some r' →
      r'.claim.prior ≠ r.claim.newHead →
      Problem disk root .stepLinkBroken (stepsFile root)
  | stepUnresolved {records : List StepRecord} {r : StepRecord} {text : String} :
      loadSteps disk root = .ok records → r ∈ records →
      text ∈ [r.claim.prior, r.claim.newHead] → ¬Verified disk root text →
      Problem disk root .missingPayload (stepsFile root)
  | chainUnreadable : disk.contains (chainFile root) = true →
      (∀ head, headIn disk (chainFile root) ≠ .ok (some head)) →
      Problem disk root .unreadableFile (chainFile root)
  | headNotLast {records : List StepRecord} {r : StepRecord} {head : Json} :
      loadSteps disk root = .ok records → records.getLast? = some r →
      headIn disk (chainFile root) = .ok (some head) → head ≠ .str r.claim.newHead →
      Problem disk root .headMismatch (chainFile root)
  | headUnresolved {head : Json} : headIn disk (chainFile root) = .ok (some head) →
      (∀ text, head = .str text → ¬Verified disk root text) →
      Problem disk root .missingPayload (chainFile root)

/-! ## Texts that are nested too deeply -/

theorem loadJson_eq_misshapen : disk.loadJson path = .error .misshapen ↔ TooDeep disk path := by
  rw [Disk.loadJson, bind_eq_error]
  constructor
  · rintro (hload | ⟨bytes, hload, hjson⟩)
    · unfold Disk.load orFail at hload
      split at hload <;> exact absurd hload (by simp)
    · unfold Disk.jsonOfBytes at hjson
      split at hjson
      · exact absurd hjson (by simp)
      next text htext =>
        split at hjson
        · exact absurd hjson (by simp)
        · exact absurd hjson (by simp)
        · exact absurd hjson (by simp)
        next hdeep => exact ⟨bytes, text, Disk.find?_of_load hload, htext, hdeep⟩
  · rintro ⟨bytes, text, hfile, htext, hdeep⟩
    refine .inr ⟨bytes, Disk.load_of_find? hfile, ?_⟩
    unfold Disk.jsonOfBytes
    rw [htext]
    dsimp only
    rw [hdeep]

theorem commitmentIn_eq_misshapen :
    commitmentIn disk path = .error .misshapen ↔ TooDeep disk path := by
  rw [← loadJson_eq_misshapen, commitmentIn, bind_eq_error]
  refine or_iff_left ?_
  rintro ⟨x, _, h⟩
  unfold orFail at h
  split at h <;> exact absurd h (by simp)

theorem headIn_eq_misshapen : headIn disk path = .error .misshapen ↔ TooDeep disk path := by
  rw [← loadJson_eq_misshapen, headIn, bind_eq_error]
  exact or_iff_left fun ⟨_, _, h⟩ => absurd h (by simp)

theorem recordsOfLines_eq_error {file : Path} {lines : List String} {f : Failure} :
    ∀ number, recordsOfLines file number lines = .error f →
      ∃ n, f = .refusal (.stepLine file n) := by
  induction lines with
  | nil =>
    intro number h
    exact absurd h (by simp [recordsOfLines])
  | cons line rest ih =>
    intro number h
    rw [recordsOfLines] at h
    split at h
    · exact ih _ h
    · split at h
      · cases h
        exact ⟨number, rfl⟩
      · rcases bind_eq_error.1 h with h | ⟨_, _, h⟩
        · exact ih _ h
        · exact absurd h (by simp)

/-- A line that cannot be read is an issue like any other, however deep it is. -/
theorem loadSteps_ne_misshapen : loadSteps disk root ≠ .error .misshapen := by
  intro h
  rw [loadSteps] at h
  split at h
  · rcases bind_eq_error.1 h with hload | ⟨bytes, _, h⟩
    · unfold Disk.load orFail at hload
      split at hload <;> exact absurd hload (by simp)
    · rcases bind_eq_error.1 h with hlines | ⟨records, _, h⟩
      · obtain ⟨n, hn⟩ := recordsOfLines_eq_error 1 hlines
        exact absurd hn (by simp)
      · split at h <;> exact absurd h (by simp)
  · exact absurd h (by simp)

/-! ## Issues by code and file -/

/-- There is an issue with a code about a file. -/
def Lists (issues : List AuditIssue) (code : AuditCode) (path : Path) : Prop :=
  ∃ issue ∈ issues, issue.code = code ∧ issue.path = path

@[simp] theorem lists_nil : Lists [] code path ↔ False := by
  simp [Lists]

@[simp] theorem lists_cons {issue : AuditIssue} {issues : List AuditIssue} :
    Lists (issue :: issues) code path ↔
      issue.code = code ∧ issue.path = path ∨ Lists issues code path := by
  simp [Lists]

@[simp] theorem lists_append {a b : List AuditIssue} :
    Lists (a ++ b) code path ↔ Lists a code path ∨ Lists b code path := by
  simp [Lists, or_and_right, exists_or]

/-- An issue that is reported if something holds. -/
theorem lists_if {p : Prop} [Decidable p] {issue : AuditIssue} :
    Lists (if p then [issue] else []) code path ↔
      issue.path = path ∧ code = issue.code ∧ p := by
  by_cases hp : p
  · simp [hp, and_comm, eq_comm]
  · simp [hp]

/-- An issue that is reported unless something holds. -/
theorem lists_unless {p : Prop} [Decidable p] {issue : AuditIssue} :
    Lists (if p then [] else [issue]) code path ↔
      issue.path = path ∧ code = issue.code ∧ ¬p := by
  rw [← ite_not]
  exact lists_if

theorem lists_filterMap {α : Type} {f : α → Option AuditIssue} {l : List α} :
    Lists (l.filterMap f) code path ↔
      ∃ a ∈ l, ∃ issue, f a = some issue ∧ issue.code = code ∧ issue.path = path := by
  constructor
  · rintro ⟨issue, hissue, hboth⟩
    obtain ⟨a, ha, hf⟩ := List.mem_filterMap.1 hissue
    exact ⟨a, ha, issue, hf, hboth⟩
  · rintro ⟨a, ha, issue, hf, hboth⟩
    exact ⟨issue, List.mem_filterMap.2 ⟨a, ha, hf⟩, hboth⟩

/-! ## Payloads and proofs -/

/-- A payload in which an audit finds nothing. -/
theorem payload_eq_inl_iff {name : String} {c : Commitment} :
    payload disk path name = .ok (.inl c) ↔
      commitmentIn disk path = .ok c ∧ Named c name := by
  constructor
  · intro h
    unfold payload at h
    split at h
    · exact absurd h (by simp)
    · exact absurd h (by simp)
    next hc =>
      split at h
      next hname =>
        cases h
        exact ⟨hc, hname⟩
      · exact absurd h (by simp)
  · rintro ⟨hc, hname⟩
    rw [payload, hc]
    exact if_pos hname

/-- The issue about a payload. -/
theorem payload_eq_inr_iff {name : String} (hread : ¬TooDeep disk path) {file : Path} :
    (∃ issue, payload disk path name = .ok (.inr issue) ∧ issue.code = code ∧ issue.path = file) ↔
      path = file ∧ ((code = .unreadableFile ∧ ∃ f, commitmentIn disk path = .error f) ∨
        (code = .commitmentMismatch ∧ ∃ c, commitmentIn disk path = .ok c ∧ ¬Named c name)) := by
  cases hc : commitmentIn disk path with
  | error f =>
    have hf : f ≠ .misshapen := fun he => hread (commitmentIn_eq_misshapen.1 (he ▸ hc))
    have hp : payload disk path name = .ok (.inr (unreadable path f)) := by
      rw [payload, hc]
      cases f <;> first | rfl | exact absurd rfl hf
    simp [hp, unreadable, and_comm, eq_comm]
  | ok c =>
    by_cases hname : Named c name
    · have hp : payload disk path name = .ok (.inl c) := payload_eq_inl_iff.2 ⟨hc, hname⟩
      simp [hp, hname]
    · have hp : payload disk path name = .ok (.inr ⟨.commitmentMismatch, path,
          "payload commits to " ++ c.text ++ ", not 0x" ++ Path.stem name⟩) := by
        rw [payload, hc]
        exact if_neg hname
      simp [hp, hname, and_comm, eq_comm]

/-- There is an outcome for a payload unless its text is nested too deeply. -/
theorem exists_payload_iff {name : String} :
    (∃ p, payload disk path name = .ok p) ↔ ¬TooDeep disk path := by
  rw [← commitmentIn_eq_misshapen]
  cases hc : commitmentIn disk path with
  | ok c =>
    rw [payload, hc]
    dsimp only
    split <;> simp
  | error f =>
    rw [payload, hc]
    cases f <;> simp

theorem proof_eq_some_iff {name : String} {file : Path} :
    (∃ issue, proof disk path name = some issue ∧ issue.code = code ∧ issue.path = file) ↔
      path = file ∧ ((code = .unreadableFile ∧ ∃ f, disk.load path = .error f) ∨
        (code = .proofIdMismatch ∧ ∃ bytes, disk.load path = .ok bytes ∧
          proofIdentifier bytes ≠ Path.stem name)) := by
  cases hb : disk.load path with
  | error f =>
    have hp : proof disk path name = some (unreadable path f) := by rw [proof, hb]
    simp [hp, unreadable, and_comm, eq_comm]
  | ok bytes =>
    by_cases hname : proofIdentifier bytes = Path.stem name
    · have hp : proof disk path name = none := by
        rw [proof, hb]
        exact if_pos hname
      simp [hp, hname]
    · have hp : proof disk path name = some ⟨.proofIdMismatch, path,
          "artifact bytes hash to " ++ proofIdentifier bytes⟩ := by
        rw [proof, hb]
        exact if_neg hname
      simp [hp, hname, and_comm, eq_comm]

/-! ## Steps -/

/-- The new head before the record at a position, if there is one. -/
def headBefore (previous : Option String) (records : List StepRecord) : Nat → Option String
  | 0 => previous
  | i + 1 => records[i]?.map fun r => r.claim.newHead

/-- What is reported about a record, which is expected to have a number and to start from a head. -/
def StepIssue (committed : List String) (position : Nat) (previous : Option String)
    (r : StepRecord) (code : AuditCode) : Prop :=
  (code = .stepGap ∧ r.index ≠ position) ∨
    (code = .stepLinkBroken ∧ ∃ head, previous = some head ∧ r.claim.prior ≠ head) ∨
    (code = .missingPayload ∧ ∃ text ∈ [r.claim.prior, r.claim.newHead], text ∉ committed)

theorem steps_cons (file : Path) (committed : List String) (position : Nat)
    (previous : Option String) (r : StepRecord) (rest : List StepRecord) :
    steps file committed position previous (r :: rest)
      = steps file committed position previous [r]
        ++ steps file committed (position + 1) (some r.claim.newHead) rest := by
  simp [steps]

theorem lists_steps_singleton {file : Path} {committed : List String} {position : Nat}
    {previous : Option String} {r : StepRecord} :
    Lists (steps file committed position previous [r]) code path ↔
      file = path ∧ StepIssue committed position previous r code := by
  have hpayload : Lists ([r.claim.prior, r.claim.newHead].filterMap fun c =>
      if committed.contains c then none
      else some ⟨.missingPayload, file,
        "step " ++ count r.index ++ " references " ++ c ++ " with no verified payload file"⟩)
      code path ↔
      file = path ∧ code = .missingPayload ∧
        ∃ text ∈ [r.claim.prior, r.claim.newHead], text ∉ committed := by
    rw [lists_filterMap]
    constructor
    · rintro ⟨text, htext, issue, hissue, rfl, rfl⟩
      split at hissue
      · exact absurd hissue (by simp)
      next hnot =>
        cases hissue
        exact ⟨rfl, rfl, text, htext, by simpa using hnot⟩
    · rintro ⟨rfl, rfl, text, htext, hnot⟩
      exact ⟨text, htext, _, if_neg (by simpa using hnot), rfl, rfl⟩
  unfold steps
  rw [steps, List.append_nil, lists_append, lists_append, hpayload, StepIssue, and_or_left,
    and_or_left, or_assoc]
  refine or_congr lists_if (or_congr_left ?_)
  cases previous with
  | none => simp
  | some head =>
    dsimp only
    rw [lists_if]
    simp

/-- The issues about steps are those about each record behind the one before. -/
theorem lists_steps {file : Path} {committed : List String} {records : List StepRecord} :
    ∀ position previous, Lists (steps file committed position previous records) code path ↔
      file = path ∧ ∃ i r, records[i]? = some r ∧
        StepIssue committed (position + i) (headBefore previous records i) r code := by
  induction records with
  | nil => simp [steps]
  | cons r rest ih =>
    intro position previous
    have hrest : (∃ i r', rest[i]? = some r' ∧ StepIssue committed (position + 1 + i)
          (headBefore (some r.claim.newHead) rest i) r' code) ↔
        ∃ i r', (r :: rest)[i + 1]? = some r' ∧ StepIssue committed (position + (i + 1))
          (headBefore previous (r :: rest) (i + 1)) r' code := by
      refine exists_congr fun i => exists_congr fun r' => ?_
      have hbefore : headBefore (some r.claim.newHead) rest i
          = headBefore previous (r :: rest) (i + 1) := by
        cases i <;> rfl
      rw [List.getElem?_cons_succ, hbefore, Nat.add_right_comm, Nat.add_assoc]
    rw [steps_cons, lists_append, lists_steps_singleton, ih, hrest, ← and_or_left]
    refine and_congr_right fun _ => ?_
    constructor
    · rintro (h | ⟨i, h⟩)
      · exact ⟨0, r, rfl, h⟩
      · exact ⟨i + 1, h⟩
    · rintro ⟨i, r', hr', h⟩
      cases i with
      | zero =>
        cases hr'
        exact .inl h
      | succ i => exact .inr ⟨i, r', hr', h⟩

/-! ## The head -/

theorem contains_of_headIn {head : Option Json} (h : headIn disk path = .ok head) :
    disk.contains path = true := by
  obtain ⟨x, hx, _⟩ := bind_eq_ok.1 h
  obtain ⟨bytes, hbytes, _⟩ := bind_eq_ok.1 hx
  exact Disk.contains_of_find? (Disk.find?_of_load hbytes)

theorem lists_headIssues {file : Path} {committed : List String} {last : Option String}
    {head : String} {isText : Bool} :
    Lists (headIssues file committed last head isText) code path ↔
      file = path ∧ ((code = .headMismatch ∧ ∃ l, last = some l ∧ ¬(isText = true ∧ head = l)) ∨
        (code = .missingPayload ∧ ¬(isText = true ∧ head ∈ committed))) := by
  unfold headIssues
  rw [lists_append, lists_unless, and_or_left]
  refine or_congr ?_ (by simp)
  cases last with
  | none => simp
  | some l => simp [lists_unless]

/-- The head in the file of the chain is text or null. -/
def HeadShaped (disk : Disk) (root : Path) : Prop :=
  ∀ head, headIn disk (chainFile root) = .ok (some head) → head = .null ∨ ∃ text, head = .str text

theorem exists_chain_iff {committed : List String} {last : Option String} :
    (∃ out, chain disk root committed last = .ok out) ↔
      ¬TooDeep disk (chainFile root) ∧ HeadShaped disk root := by
  rw [← headIn_eq_misshapen, HeadShaped]
  unfold chain
  by_cases hc : disk.contains (chainFile root) = true
  · simp only [if_pos hc]
    cases hh : headIn disk (chainFile root) with
    | error f => cases f <;> simp
    | ok head =>
      cases head with
      | none => simp
      | some x => cases x <;> simp
  · simp only [if_neg hc]
    have hnone : ∀ head, headIn disk (chainFile root) ≠ .ok head :=
      fun head hh => hc (contains_of_headIn hh)
    have hshallow : headIn disk (chainFile root) ≠ .error .misshapen := by
      rw [Ne, headIn_eq_misshapen]
      rintro ⟨_, _, hfile, _⟩
      exact hc (Disk.contains_of_find? hfile)
    simp [hnone, hshallow]

/-- The issues about the file of the chain. -/
theorem lists_chain {committed : List String} {last head : Option String}
    {issues : List AuditIssue} (h : chain disk root committed last = .ok (head, issues)) :
    Lists issues code path ↔ chainFile root = path ∧
      ((code = .unreadableFile ∧ disk.contains (chainFile root) = true ∧
          ∀ head, headIn disk (chainFile root) ≠ .ok (some head)) ∨
        ∃ head, headIn disk (chainFile root) = .ok (some head) ∧
          ((code = .headMismatch ∧ ∃ l, last = some l ∧ head ≠ .str l) ∨
            (code = .missingPayload ∧ ∀ text, head = .str text → text ∉ committed))) := by
  unfold chain at h
  by_cases hc : disk.contains (chainFile root) = true
  · rw [if_pos hc] at h
    split at h
    · exact absurd h (by simp)
    next hh =>
      cases h
      simp [unreadable, hh, hc, and_comm, eq_comm]
    next hh =>
      cases h
      simp [unreadable, hh, hc, and_comm, eq_comm]
    next text hh =>
      cases h
      simp [lists_headIssues, hh]
    next hh =>
      cases h
      simp [lists_headIssues, hh]
    · exact absurd h (by simp)
    · exact absurd h (by simp)
    · exact absurd h (by simp)
  · rw [if_neg hc] at h
    cases h
    have hnone : ∀ head, headIn disk (chainFile root) ≠ .ok head :=
      fun head hh => hc (contains_of_headIn hh)
    simp [hc, hnone]

/-! ## Reports -/

/-- The records of a directory, none if they cannot be read. -/
def recordsIn (disk : Disk) (root : Path) : List StepRecord :=
  (loadSteps disk root).toOption.getD []

/-- What is reported about reading the steps. -/
def readingIssues (disk : Disk) (root : Path) : List AuditIssue :=
  match loadSteps disk root with
  | .ok _ => []
  | .error f => [unreadable (stepsFile root) f]

/-- The commitments of the payloads that were verified. -/
def texts (payloads : List (Commitment ⊕ AuditIssue)) : List String :=
  payloads.filterMap fun | .inl c => some c.text | .inr _ => none

/-- The report on what was found in the payloads and about the head. -/
def assembled (disk : Disk) (root : Path) (payloads : List (Commitment ⊕ AuditIssue))
    (head : Option String × List AuditIssue) : AuditReport where
  commitmentsChecked := (jsonNames disk (commitmentsDir root)).length
  proofsChecked := (jsonNames disk (proofsDir root)).length
  stepsChecked := (recordsIn disk root).length
  head := head.1
  issues :=
    (payloads.filterMap fun | .inl _ => none | .inr issue => some issue)
    ++ ((jsonNames disk (proofsDir root)).filterMap fun name =>
      proof disk (proofsDir root ++ [name]) name)
    ++ readingIssues disk root
    ++ steps (stepsFile root) (texts payloads) 1 none (recordsIn disk root)
    ++ head.2

theorem run_eq (disk : Disk) (root : Path) :
    run disk root =
      ((jsonNames disk (commitmentsDir root)).mapM fun name =>
        payload disk (commitmentsDir root ++ [name]) name) >>= fun payloads =>
      chain disk root (texts payloads)
        ((recordsIn disk root).getLast?.map fun r => r.claim.newHead) >>= fun head =>
      .ok (assembled disk root payloads head) := by
  rw [run]
  refine congrArg _ (funext fun payloads => ?_)
  unfold assembled recordsIn readingIssues texts
  cases hs : loadSteps disk root with
  | ok records => rfl
  | error f =>
    have hf : f ≠ .misshapen := fun he => loadSteps_ne_misshapen (he ▸ hs)
    cases f <;> first | rfl | exact absurd rfl hf

theorem recordsIn_eq {records : List StepRecord} (h : loadSteps disk root = .ok records) :
    recordsIn disk root = records := by
  rw [recordsIn, h]
  rfl

/-- Only records that were read are there. -/
theorem loadSteps_of_mem {r : StepRecord} (h : r ∈ recordsIn disk root) :
    loadSteps disk root = .ok (recordsIn disk root) := by
  rw [recordsIn] at h ⊢
  cases hs : loadSteps disk root with
  | ok records => rfl
  | error f =>
    rw [hs] at h
    exact absurd h List.not_mem_nil

theorem lists_readingIssues :
    Lists (readingIssues disk root) code path ↔
      code = .unreadableFile ∧ stepsFile root = path ∧ ∃ f, loadSteps disk root = .error f := by
  rw [readingIssues]
  cases loadSteps disk root with
  | ok records => simp
  | error f => simp [unreadable, eq_comm]

section

variable {payloads : List (Commitment ⊕ AuditIssue)}
  (hpayloads : ((jsonNames disk (commitmentsDir root)).mapM fun name =>
    payload disk (commitmentsDir root ++ [name]) name) = .ok payloads)

include hpayloads

theorem mem_texts_iff {text : String} : text ∈ texts payloads ↔ Verified disk root text := by
  obtain ⟨hnames, hfrom⟩ := mapM_eq_ok hpayloads
  rw [texts, List.mem_filterMap]
  constructor
  · rintro ⟨p, hp, htext⟩
    obtain ⟨name, hname, hpayload⟩ := hfrom p hp
    cases p with
    | inr issue => exact absurd htext (by simp)
    | inl c =>
      obtain ⟨hc, hn⟩ := payload_eq_inl_iff.1 hpayload
      exact ⟨name, hname, c, hc, hn, (Option.some.inj htext).symm⟩
  · rintro ⟨name, hname, c, hc, hn, rfl⟩
    obtain ⟨p, hp, hpayload⟩ := hnames name hname
    obtain rfl : p = .inl c :=
      Except.ok.inj (hpayload.symm.trans (payload_eq_inl_iff.2 ⟨hc, hn⟩))
    exact ⟨_, hp, rfl⟩

/-- No text of a payload that was checked is nested too deeply. -/
theorem not_tooDeep_of_mapM {name : String} (hname : name ∈ jsonNames disk (commitmentsDir root)) :
    ¬TooDeep disk (commitmentsDir root ++ [name]) := by
  obtain ⟨p, _, hp⟩ := (mapM_eq_ok hpayloads).1 name hname
  exact exists_payload_iff.1 ⟨p, hp⟩

theorem lists_payloads :
    Lists (payloads.filterMap fun | .inl _ => none | .inr issue => some issue) code path ↔
      ∃ name ∈ jsonNames disk (commitmentsDir root), commitmentsDir root ++ [name] = path ∧
        ((code = .unreadableFile ∧
            ∃ f, commitmentIn disk (commitmentsDir root ++ [name]) = .error f) ∨
          (code = .commitmentMismatch ∧
            ∃ c, commitmentIn disk (commitmentsDir root ++ [name]) = .ok c ∧ ¬Named c name)) := by
  obtain ⟨hnames, hfrom⟩ := mapM_eq_ok hpayloads
  rw [lists_filterMap]
  constructor
  · rintro ⟨p, hp, issue, hissue, hcode, hpath⟩
    obtain ⟨name, hname, hpayload⟩ := hfrom p hp
    cases p with
    | inl c => exact absurd hissue (by simp)
    | inr issue' =>
      cases hissue
      exact ⟨name, hname, (payload_eq_inr_iff (not_tooDeep_of_mapM hpayloads hname)).1
        ⟨issue, hpayload, hcode, hpath⟩⟩
  · rintro ⟨name, hname, h⟩
    obtain ⟨issue, hissue, hboth⟩ :=
      (payload_eq_inr_iff (not_tooDeep_of_mapM hpayloads hname)).2 h
    obtain ⟨p, hp, hpayload⟩ := hnames name hname
    obtain rfl : p = .inr issue := Except.ok.inj (hpayload.symm.trans hissue)
    exact ⟨_, hp, issue, rfl, hboth⟩

end

/-- The issues about steps are the problems of the records. -/
theorem lists_steps_iff {committed : List String}
    (hc : ∀ text, text ∈ committed ↔ Verified disk root text) :
    Lists (steps (stepsFile root) committed 1 none (recordsIn disk root)) code path ↔
      stepsFile root = path ∧ ∃ records, loadSteps disk root = .ok records ∧
        ((code = .stepGap ∧ ∃ i r, records[i]? = some r ∧ r.index ≠ i + 1) ∨
          (code = .stepLinkBroken ∧ ∃ i r r', records[i]? = some r ∧ records[i + 1]? = some r' ∧
            r'.claim.prior ≠ r.claim.newHead) ∨
          (code = .missingPayload ∧ ∃ r ∈ records, ∃ text ∈ [r.claim.prior, r.claim.newHead],
            ¬Verified disk root text)) := by
  rw [lists_steps]
  refine and_congr_right fun _ => ?_
  constructor
  · rintro ⟨i, r, hr, h⟩
    have hmem := List.mem_of_getElem? hr
    refine ⟨_, loadSteps_of_mem hmem, ?_⟩
    rcases h with ⟨hcode, hne⟩ | ⟨hcode, head, hhead, hne⟩ | ⟨hcode, text, htext, hnot⟩
    · exact .inl ⟨hcode, i, r, hr, by omega⟩
    · refine .inr (.inl ⟨hcode, ?_⟩)
      cases i with
      | zero => exact absurd hhead (by simp [headBefore])
      | succ i =>
        obtain ⟨before, hbefore, rfl⟩ := Option.map_eq_some_iff.1 hhead
        exact ⟨i, before, r, hbefore, hr, hne⟩
    · exact .inr (.inr ⟨hcode, r, hmem, text, htext, fun hv => hnot ((hc text).2 hv)⟩)
  · rintro ⟨records, hrecords, h⟩
    rw [recordsIn_eq hrecords]
    rcases h with ⟨hcode, i, r, hr, hne⟩ | ⟨hcode, i, r, r', hr, hr', hne⟩ |
      ⟨hcode, r, hmem, text, htext, hnot⟩
    · exact ⟨i, r, hr, .inl ⟨hcode, by omega⟩⟩
    · refine ⟨i + 1, r', hr', .inr (.inl ⟨hcode, r.claim.newHead, ?_, hne⟩)⟩
      show records[i]?.map _ = _
      rw [hr]
      rfl
    · obtain ⟨i, hr⟩ := List.mem_iff_getElem?.1 hmem
      exact ⟨i, r, hr, .inr (.inr ⟨hcode, text, htext, fun hin => hnot ((hc text).1 hin)⟩)⟩

/-- A report lists just the problems. -/
theorem lists_iff_problem {report : AuditReport} (h : run disk root = .ok report) :
    Lists report.issues code path ↔ Problem disk root code path := by
  rw [run_eq] at h
  obtain ⟨payloads, hpayloads, h⟩ := bind_eq_ok.1 h
  obtain ⟨⟨head, issues⟩, hchain, h⟩ := bind_eq_ok.1 h
  cases h
  have hc : ∀ text, text ∈ texts payloads ↔ Verified disk root text :=
    fun text => mem_texts_iff hpayloads
  rw [assembled, lists_append, lists_append, lists_append, lists_append, lists_payloads hpayloads,
    lists_filterMap, lists_readingIssues, lists_steps_iff hc, lists_chain hchain]
  constructor
  · rintro ((((⟨name, hname, rfl, h⟩ | ⟨name, hname, h⟩) | ⟨rfl, rfl, f, hf⟩) |
      ⟨rfl, records, hrecords, h⟩) | ⟨rfl, h⟩)
    · rcases h with ⟨rfl, f, hf⟩ | ⟨rfl, c, hc, hn⟩
      · exact .payloadUnreadable hname hf
      · exact .payloadMisnamed hname hc hn
    · obtain ⟨rfl, ⟨rfl, f, hf⟩ | ⟨rfl, bytes, hb, hne⟩⟩ := proof_eq_some_iff.1 h
      · exact .proofUnreadable hname hf
      · exact .proofMisnamed hname hb hne
    · exact .stepsUnreadable hf
    · rcases h with ⟨rfl, i, r, hr, hne⟩ | ⟨rfl, i, r, r', hr, hr', hne⟩ |
        ⟨rfl, r, hr, text, htext, hnot⟩
      · exact .stepMisnumbered hrecords hr hne
      · exact .stepUnlinked hrecords hr hr' hne
      · exact .stepUnresolved hrecords hr htext hnot
    · rcases h with ⟨rfl, hfile, hnone⟩ | ⟨x, hx, ⟨rfl, l, hl, hne⟩ | ⟨rfl, hnot⟩⟩
      · exact .chainUnreadable hfile hnone
      · obtain ⟨r, hr, rfl⟩ := Option.map_eq_some_iff.1 hl
        exact .headNotLast (loadSteps_of_mem (List.mem_of_getLast? hr)) hr hx hne
      · exact .headUnresolved hx fun text ht hv => hnot text ht ((hc text).2 hv)
  · intro hproblem
    cases hproblem with
    | payloadUnreadable hname hf =>
      exact .inl (.inl (.inl (.inl ⟨_, hname, rfl, .inl ⟨rfl, _, hf⟩⟩)))
    | payloadMisnamed hname hc hn =>
      exact .inl (.inl (.inl (.inl ⟨_, hname, rfl, .inr ⟨rfl, _, hc, hn⟩⟩)))
    | proofUnreadable hname hf =>
      exact .inl (.inl (.inl (.inr ⟨_, hname, proof_eq_some_iff.2 ⟨rfl, .inl ⟨rfl, _, hf⟩⟩⟩)))
    | proofMisnamed hname hb hne =>
      exact .inl (.inl (.inl (.inr
        ⟨_, hname, proof_eq_some_iff.2 ⟨rfl, .inr ⟨rfl, _, hb, hne⟩⟩⟩)))
    | stepsUnreadable hf => exact .inl (.inl (.inr ⟨rfl, rfl, _, hf⟩))
    | stepMisnumbered hrecords hr hne =>
      exact .inl (.inr ⟨rfl, _, hrecords, .inl ⟨rfl, _, _, hr, hne⟩⟩)
    | stepUnlinked hrecords hr hr' hne =>
      exact .inl (.inr ⟨rfl, _, hrecords, .inr (.inl ⟨rfl, _, _, _, hr, hr', hne⟩)⟩)
    | stepUnresolved hrecords hr htext hnot =>
      exact .inl (.inr ⟨rfl, _, hrecords, .inr (.inr ⟨rfl, _, hr, _, htext, hnot⟩)⟩)
    | chainUnreadable hfile hnone => exact .inr ⟨rfl, .inl ⟨rfl, hfile, hnone⟩⟩
    | headNotLast hrecords hr hx hne =>
      refine .inr ⟨rfl, .inr ⟨_, hx, .inl ⟨rfl, _, ?_, hne⟩⟩⟩
      rw [recordsIn_eq hrecords, hr]
      rfl
    | headUnresolved hx hnot =>
      exact .inr ⟨rfl, .inr ⟨_, hx, .inr
        ⟨rfl, fun text ht hin => hnot text ht ((hc text).1 hin)⟩⟩⟩

/-- A report is in order if there is no problem. -/
theorem ok_iff {report : AuditReport} (h : run disk root = .ok report) :
    report.ok = true ↔ ∀ code path, ¬Problem disk root code path := by
  rw [AuditReport.ok, List.isEmpty_iff, List.eq_nil_iff_forall_not_mem]
  constructor
  · intro hnone code path hproblem
    obtain ⟨issue, hissue, _⟩ := (lists_iff_problem h).2 hproblem
    exact hnone issue hissue
  · intro hnone issue hissue
    exact hnone issue.code issue.path ((lists_iff_problem h).1 ⟨issue, hissue, rfl, rfl⟩)

/-- Where there is no problem, the steps can be read, are linked and name verified payloads. -/
theorem exists_steps_of_not_problem (h : ∀ code path, ¬Problem disk root code path) :
    ∃ records, loadSteps disk root = .ok records ∧ Chain.Linked records ∧
      ∀ r ∈ records, Verified disk root r.claim.prior ∧ Verified disk root r.claim.newHead := by
  cases hrecords : loadSteps disk root with
  | error f => exact absurd (.stepsUnreadable hrecords) (h _ _)
  | ok records =>
    refine ⟨records, rfl, Chain.linked_iff_getElem?.2 ⟨?_, ?_⟩, ?_⟩
    · intro i r hi
      by_contra hne
      exact h _ _ (.stepMisnumbered hrecords hi hne)
    · intro i r r' hi hi'
      by_contra hne
      exact h _ _ (.stepUnlinked hrecords hi hi' hne)
    · intro r hmem
      constructor <;> by_contra hnot
      · exact h _ _ (.stepUnresolved hrecords hmem (by simp) hnot)
      · exact h _ _ (.stepUnresolved hrecords hmem (by simp) hnot)

/-- Where there is no problem, the head is a verified commitment that the last step leads to. -/
theorem exists_head_of_not_problem (h : ∀ code path, ¬Problem disk root code path)
    {records : List StepRecord} (hrecords : loadSteps disk root = .ok records)
    (hc : disk.contains (chainFile root) = true) :
    ∃ text, headIn disk (chainFile root) = .ok (some (.str text)) ∧ Verified disk root text ∧
      ∀ r ∈ records.getLast?, r.claim.newHead = text := by
  have hsome : ∃ head, headIn disk (chainFile root) = .ok (some head) := by
    by_contra hnone
    exact h _ _ (.chainUnreadable hc (not_exists.1 hnone))
  obtain ⟨head, hhead⟩ := hsome
  have hverified : ∃ text, head = .str text ∧ Verified disk root text := by
    by_contra hnot
    exact h _ _ (.headUnresolved hhead fun text ht hv => hnot ⟨text, ht, hv⟩)
  obtain ⟨text, rfl, hv⟩ := hverified
  refine ⟨text, hhead, hv, fun r hlast => ?_⟩
  by_contra hne
  exact h _ _ (.headNotLast hrecords hlast hhead fun he => hne (Json.str.inj he).symm)

theorem counts_of_run {report : AuditReport} (h : run disk root = .ok report) :
    report.commitmentsChecked = (jsonNames disk (commitmentsDir root)).length ∧
      report.proofsChecked = (jsonNames disk (proofsDir root)).length ∧
      report.stepsChecked = (recordsIn disk root).length := by
  rw [run_eq] at h
  obtain ⟨_, _, h⟩ := bind_eq_ok.1 h
  obtain ⟨_, _, h⟩ := bind_eq_ok.1 h
  cases h
  exact ⟨rfl, rfl, rfl⟩

/-- A report names the head that is written in the file of the chain. -/
theorem head_of_run {report : AuditReport} (h : run disk root = .ok report) :
    (∀ text, headIn disk (chainFile root) = .ok (some (.str text)) → report.head = some text) ∧
      (disk.contains (chainFile root) = false → report.head = none) := by
  rw [run_eq] at h
  obtain ⟨_, _, h⟩ := bind_eq_ok.1 h
  obtain ⟨⟨head, issues⟩, hchain, h⟩ := bind_eq_ok.1 h
  cases h
  unfold chain at hchain
  dsimp only at hchain
  constructor
  · intro text htext
    rw [contains_of_headIn htext, if_pos rfl, htext] at hchain
    cases hchain
    rfl
  · intro hc
    rw [hc, if_neg Bool.false_ne_true] at hchain
    cases hchain
    rfl

/-- When there is a report. -/
theorem exists_run_iff :
    (∃ report, run disk root = .ok report) ↔
      (∀ path, ReadAsJson disk root path → ¬TooDeep disk path) ∧ HeadShaped disk root := by
  rw [run_eq]
  constructor
  · rintro ⟨report, h⟩
    obtain ⟨payloads, hpayloads, h⟩ := bind_eq_ok.1 h
    obtain ⟨out, hchain, _⟩ := bind_eq_ok.1 h
    obtain ⟨hshallow, hshaped⟩ := exists_chain_iff.1 ⟨out, hchain⟩
    refine ⟨?_, hshaped⟩
    intro path hpath
    cases hpath with
    | payload hname => exact not_tooDeep_of_mapM hpayloads hname
    | chain => exact hshallow
  · rintro ⟨hshallow, hshaped⟩
    obtain ⟨payloads, hpayloads⟩ := exists_mapM fun name hname =>
      exists_payload_iff.2 (hshallow _ (.payload hname))
    obtain ⟨out, hout⟩ := exists_chain_iff.2 ⟨hshallow _ .chain, hshaped⟩
    exact ⟨_, bind_eq_ok.2 ⟨payloads, hpayloads, bind_eq_ok.2 ⟨out, hout, rfl⟩⟩⟩

/-- If no text in a directory is nested too deeply, an audit makes a report exactly if the head in
the file of the chain, where there is one, is text or null.  The report has an issue for every
problem and for nothing else, and it is not in order exactly if it has an issue. -/
theorem reports_problems_unless_head_misshapen
    (hshallow : ∀ path, ReadAsJson disk root path → ¬TooDeep disk path) :
    ((∃ report, run disk root = .ok report) ↔
      ∀ head, headIn disk (chainFile root) = .ok (some head) →
        head = .null ∨ ∃ text, head = .str text) ∧
    ∀ report, run disk root = .ok report →
      (report.ok = false ↔ ∃ issue, issue ∈ report.issues) ∧
      ∀ code path, (∃ issue ∈ report.issues, issue.code = code ∧ issue.path = path) ↔
        Problem disk root code path := by
  refine ⟨exists_run_iff.trans (and_iff_right hshallow), fun report h => ⟨?_, ?_⟩⟩
  · rw [AuditReport.ok, List.isEmpty_eq_false_iff_exists_mem]
  · intro code path
    exact lists_iff_problem h

/-! ## Damaged directories -/

/-- A directory with directories in place of a payload and of the steps, and with a head in the file
of the chain. -/
def damaged (head : Json) : Disk :=
  { entries := [
      (["s"], .directory),
      (commitmentsDir ["s"], .directory),
      (commitmentsDir ["s"] ++ ["a.json"], .directory),
      (stepsFile ["s"], .directory),
      (chainFile ["s"], .file (Json.render .compact (.obj [("head", head)])).toUTF8)] }

section

variable {head : Json} (hreadable : head.Readable) (hdepth : head.depth < Json.textNestingLimit)

include hreadable hdepth

theorem loadJson_damaged :
    (damaged head).loadJson (chainFile ["s"]) = .ok (.obj [("head", head)]) := by
  have hdeep : (Json.obj [("head", head)]).depth ≤ Json.textNestingLimit := by
    simp only [Json.depth, Json.depthMembers]
    omega
  have hobject : (Json.obj [("head", head)]).Readable :=
    ⟨List.pairwise_singleton _ _, hreadable, trivial⟩
  have hparsed : Json.parse (Json.render .compact (.obj [("head", head)]) ++ "")
      = .ok (.obj [("head", head)]) := Json.parse_render hobject hdeep rfl
  rw [String.append_empty] at hparsed
  have hentry : (damaged head).find? (chainFile ["s"])
      = some (.file (Json.render .compact (.obj [("head", head)])).toUTF8) := by
    simp [damaged, Disk.find?, Disk.lookup?, commitmentsDir, stepsFile, chainFile]
  refine bind_eq_ok.2 ⟨_, Disk.load_of_find? hentry, ?_⟩
  rw [Disk.jsonOfBytes, Text.fromUTF8?_toUTF8]
  dsimp only
  rw [hparsed]

theorem headIn_damaged : headIn (damaged head) (chainFile ["s"]) = .ok (some head) :=
  bind_eq_ok.2 ⟨_, loadJson_damaged hreadable hdepth, rfl⟩

theorem shallow_damaged {path : Path} (hpath : ReadAsJson (damaged head) ["s"] path) :
    ¬TooDeep (damaged head) path := by
  cases hpath with
  | @payload name _ =>
    have hentry : (damaged head).find? (commitmentsDir ["s"] ++ [name])
        = if "a.json" = name then some .directory else none := by
      simp [damaged, Disk.find?, Disk.lookup?, commitmentsDir, stepsFile, chainFile]
    rintro ⟨bytes, _, hfile, _⟩
    rw [hentry] at hfile
    split at hfile <;> exact absurd hfile (by simp)
  | chain =>
    rw [← loadJson_eq_misshapen, loadJson_damaged hreadable hdepth]
    simp

end

/-- Three files are damaged, and the report tells about the file of steps. -/
theorem reports_problems_of_damaged : ∃ report,
    run (damaged .null) ["s"] = .ok report ∧ report.ok = false ∧
      ∃ issue ∈ report.issues, issue.code = .unreadableFile ∧ issue.path = stepsFile ["s"] := by
  have hreadable : Json.null.Readable := trivial
  have hdepth : Json.null.depth < Json.textNestingLimit := by decide
  obtain ⟨hmade, hreports⟩ := reports_problems_unless_head_misshapen
    fun _ => shallow_damaged hreadable hdepth
  obtain ⟨report, hr⟩ := hmade.2 fun head hhead => by
    rw [headIn_damaged hreadable hdepth] at hhead
    cases hhead
    exact .inl rfl
  obtain ⟨hok, hissues⟩ := hreports report hr
  have hsteps : loadSteps (damaged .null) ["s"]
      = .error (.disk (.isDirectory (stepsFile ["s"]))) := rfl
  have hlisted := (hissues .unreadableFile (stepsFile ["s"])).2 (.stepsUnreadable hsteps)
  exact ⟨report, hr, hok.2 (hlisted.imp fun _ h => h.1), hlisted⟩

/-- There is no report if the head is an array, though no text is nested too deeply. -/
theorem no_report_of_array_head :
    (∀ path, ReadAsJson (damaged (.arr [])) ["s"] path → ¬TooDeep (damaged (.arr [])) path) ∧
      ¬∃ report, run (damaged (.arr [])) ["s"] = .ok report := by
  have hreadable : (Json.arr []).Readable := trivial
  have hdepth : (Json.arr []).depth < Json.textNestingLimit := by decide
  refine ⟨fun _ => shallow_damaged hreadable hdepth, fun hreport => ?_⟩
  obtain ⟨_, hshaped⟩ := exists_run_iff.1 hreport
  rcases hshaped _ (headIn_damaged hreadable hdepth) with hnull | ⟨text, htext⟩
  · exact absurd hnull (by simp)
  · exact absurd htext (by simp)

end Audit

end CommitChain
