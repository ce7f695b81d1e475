import CommitChain.Proofs.Reached
import CommitChain.Proofs.Session.Saving

/-!
# Opening a store directory

What a session finds in a directory of which it is known what it holds: the payloads and proofs that
have files, the records in the lines, and the head, moved on if the last line goes on from it
(`make_of_saved`, `make_of_unsaved`).
-/

namespace CommitChain.Archive

open CommitChain.Text

variable {dir : Path} {disk : Disk}

/-! ## Payloads -/

/-- The payload that the file under a commitment stands for. -/
structure Stands (dir : Path) (disk : Disk) (c : Commitment) (p : Payload) : Prop where
  decoded : ∃ x, disk.loadJson (commitmentFile dir c) = .ok x ∧ Value.decode x = .ok p.value
  encoding : p.value.encodeStrict = .ok p.encoding
  commitment : commitmentOf p.encoding = .ok c

theorem Stands.unique {c : Commitment} {p q : Payload} (hp : Stands dir disk c p)
    (hq : Stands dir disk c q) : p = q := by
  obtain ⟨⟨x, hx, hv⟩, he, _⟩ := hp
  obtain ⟨⟨y, hy, hw⟩, hf, _⟩ := hq
  obtain rfl : x = y := Except.ok.inj (hx.symm.trans hy)
  obtain ⟨v, encoding⟩ := p
  obtain ⟨w, encoding'⟩ := q
  obtain rfl : v = w := Except.ok.inj (hv.symm.trans hw)
  obtain rfl : encoding = encoding' := Except.ok.inj (he.symm.trans hf)
  rfl

theorem hex_ne_empty (c : Commitment) : c.hex ≠ "" := by
  intro h
  have hlength := Hash.Digest.length_hex c
  rw [h] at hlength
  exact absurd hlength (by decide)

theorem stem_hex (c : Commitment) : Path.stem (c.hex ++ ".json") = c.hex :=
  Path.stem_append (hex_ne_empty c)

theorem name_eq_of_stem {name : String} {c : Commitment} (hj : Path.isJsonName name = true)
    (hstem : c.hex = Path.stem name) : name = c.hex ++ ".json" := by
  have hne : Path.stem name ≠ ".json" := by
    intro he
    have hlength := Hash.Digest.length_hex c
    rw [hstem, he] at hlength
    exact absurd hlength (by decide)
  rw [hstem, ← Path.eq_stem_append hj hne]

/-- Payloads without listeners, each of which has its file. -/
structure Restored (dir : Path) (disk : Disk) (s : Payloads Disk) : Prop where
  silent : s.listeners = []
  stands : ∀ e ∈ s.entries, Stands dir disk e.1 e.2

theorem restored_empty : Restored dir disk .empty where
  silent := rfl
  stands _ he := absurd he List.not_mem_nil

/-- The payload in a file is stored under its commitment. -/
theorem Restored.put {s : Payloads Disk} (hs : Restored dir disk s) {c : Commitment} {p : Payload}
    (hp : Stands dir disk c p) (world : Disk) :
    ∃ b s', Payloads.put c p (s, world) = (.ok b, s', world) ∧ Restored dir disk s' ∧
      ∀ k, (s'.find? k).isSome = ((s.find? k).isSome || decide (k = c)) := by
  cases hf : s.find? c with
  | some existing =>
    obtain rfl := hp.unique (hs.stands _ (Store.mem_of_findEntry? hf))
    obtain ⟨text, htext⟩ := exists_canonical_of_commitmentOf hp.commitment
    refine ⟨false, s, by rw [Payloads.put, Store.put_taken hf, Payload.same_self htext], hs,
      fun k => ?_⟩
    by_cases hk : k = c
    · simp [hk, hf]
    · simp [hk]
  | none =>
    refine ⟨true, { s with entries := s.entries ++ [(c, p)] }, ?_, ⟨hs.silent,
      List.forall_mem_append.2 ⟨hs.stands, List.forall_mem_singleton.2 hp⟩⟩, fun k => ?_⟩
    · rw [Payloads.put, Store.put_new hf, Store.announce, hs.silent]
      rfl
    · rw [Store.find?, Store.findEntry?_concat, Store.find?]
      by_cases hk : k = c
      · simp [hk]
      · simp [Ne.symm hk, hk]

/-- Taking up the file of a payload stores its payload. -/
theorem Restored.restore {l : Ledger Disk} (hl : Restored dir disk l.payloads) {c : Commitment}
    {p : Payload} (hp : Stands dir disk c p) :
    ∃ x s, disk.loadJson (commitmentFile dir c) = .ok x ∧
      Ledger.restore x l = (.ok c, { l with payloads := s }) ∧ Restored dir disk s ∧
      ∀ k, (s.find? k).isSome = ((l.payloads.find? k).isSome || decide (k = c)) := by
  obtain ⟨b, s, hput, hs, hfind⟩ := hl.put hp l.world
  obtain ⟨⟨x, hx, hdecode⟩, hencoding, hcommitment⟩ := hp
  refine ⟨x, s, hx, ?_, hs, hfind⟩
  rw [Ledger.restore, Ledger.onPayloads, Action.on_eq]
  refine ⟨(s, l.world), ?_, rfl⟩
  rw [Payloads.restore_eq hdecode, Payloads.commit_eq, hencoding]
  simp only [hcommitment, hput]

theorem loadPayloads_eq {names : List String}
    (hn : ∀ name ∈ names, ∃ c p, name = c.hex ++ ".json" ∧ Stands dir disk c p)
    {l : Ledger Disk} (hl : Restored dir disk l.payloads) :
    ∃ s, loadPayloads disk dir names l = (.ok (), { l with payloads := s }) ∧
      Restored dir disk s ∧
      ∀ k, (s.find? k).isSome
        = ((l.payloads.find? k).isSome || decide (k.hex ++ ".json" ∈ names)) := by
  induction names generalizing l with
  | nil => exact ⟨l.payloads, rfl, hl, by simp⟩
  | cons name rest ih =>
    obtain ⟨⟨c, p, rfl, hp⟩, hrest⟩ := List.forall_mem_cons.1 hn
    obtain ⟨x, s, hload, hrestore, hs, hfind⟩ := hl.restore hp
    obtain ⟨s', hloads, hs', hfind'⟩ := ih hrest (l := { l with payloads := s }) hs
    refine ⟨s', ?_, hs', fun k => ?_⟩
    · rw [loadPayloads, ← commitmentFile, hload, Action.of_ok_bind, Action.bind_ok hrestore,
        if_neg (not_not.2 (stem_hex c).symm), hloads]
    · rw [hfind', hfind]
      simp only [List.mem_cons, Path.append_json_inj, Hash.Digest.hex_inj, Bool.decide_or, Bool.or_assoc]

/-- The file that was written for a payload stands for its pruned value. -/
theorem PayloadFile.stands {name : String} {entry : Disk.Entry} {c : Commitment} {v : Value}
    {x : Json} (h : PayloadFile name entry c v x)
    (he : disk.find? (commitmentsDir dir ++ [name]) = some entry) :
    Stands dir disk c ⟨v.prune, x⟩ := by
  obtain ⟨rfl, hregular, hencoding, hcommitment, bytes, rfl, hbytes⟩ := h
  obtain ⟨hdepth, _, hx⟩ := Value.encodeStrict_eq_ok.1 hencoding
  have hsettled : x.Settled := hx ▸ Value.settled_encode hregular
  have hload := Disk.loadJson_of_find? he hbytes (Nat.le_trans (hx ▸ hdepth) (by decide))
  rw [hsettled.canonicalForm_eq] at hload
  exact ⟨⟨x, hload, Value.decode_encode hregular hencoding⟩,
    (Value.encodeStrict_prune v).trans hencoding, hcommitment⟩

/-! ## Proofs -/

/-- Proofs without listeners, each of which has its file. -/
structure ProofsRestored (dir : Path) (disk : Disk) (s : Proofs Disk) : Prop where
  silent : s.listeners = []
  identifiers : ∀ e ∈ s.entries, isProofIdentifier e.1 = true
  files : ∀ e ∈ s.entries, disk.find? (proofFile dir e.1) = some (.file e.2)

theorem proofsRestored_empty : ProofsRestored dir disk .empty where
  silent := rfl
  identifiers _ he := absurd he List.not_mem_nil
  files _ he := absurd he List.not_mem_nil

theorem ne_empty_of_isProofIdentifier {identifier : String}
    (h : isProofIdentifier identifier = true) : identifier ≠ "" := by
  rintro rfl
  exact absurd h (by decide)

/-- The proof in a file is stored under its identifier. -/
theorem ProofsRestored.put {l : Ledger Disk} (hl : ProofsRestored dir disk l.proofs)
    {identifier : String} {bytes : ByteArray} (hi : isProofIdentifier identifier = true)
    (hfile : disk.find? (proofFile dir identifier) = some (.file bytes)) :
    ∃ b s, Ledger.putProof identifier bytes l = (.ok b, { l with proofs := s }) ∧
      ProofsRestored dir disk s ∧
      ∀ i, (s.find? i).isSome = ((l.proofs.find? i).isSome || decide (i = identifier)) := by
  rw [Ledger.putProof_eq hl.silent]
  cases hf : l.proofs.find? identifier with
  | some existing =>
    have hexisting := hl.files _ (Store.mem_of_findEntry? hf)
    obtain rfl : existing = bytes := by simpa [hfile] using hexisting.symm
    refine ⟨false, l.proofs, if_pos (Ledger.beq_byteArray.2 rfl), hl, fun i => ?_⟩
    by_cases hi' : i = identifier
    · simp [hi', hf]
    · simp [hi']
  | none =>
    refine ⟨true, { l.proofs with entries := l.proofs.entries ++ [(identifier, bytes)] }, rfl,
      ⟨hl.silent, List.forall_mem_append.2 ⟨hl.identifiers, List.forall_mem_singleton.2 hi⟩,
        List.forall_mem_append.2 ⟨hl.files, List.forall_mem_singleton.2 hfile⟩⟩, fun i => ?_⟩
    rw [Store.find?, Store.findEntry?_concat, Store.find?]
    by_cases hi' : i = identifier
    · simp [hi']
    · simp [Ne.symm hi', hi']

theorem loadProofs_eq {names : List String}
    (hn : ∀ name ∈ names, Path.isJsonName name = true ∧
      ∃ bytes, disk.find? (proofsDir dir ++ [name]) = some (.file bytes))
    {l : Ledger Disk} (hl : ProofsRestored dir disk l.proofs) :
    ∃ s, loadProofs disk dir names l = (.ok (), { l with proofs := s }) ∧
      ProofsRestored dir disk s ∧
      ∀ i, isProofIdentifier i = true → (s.find? i).isSome
        = ((l.proofs.find? i).isSome || decide (i ++ ".json" ∈ names)) := by
  induction names generalizing l with
  | nil => exact ⟨l.proofs, rfl, hl, fun i _ => by simp⟩
  | cons name rest ih =>
    obtain ⟨⟨hjson, bytes, he⟩, hrest⟩ := List.forall_mem_cons.1 hn
    rw [loadProofs]
    by_cases hi : isProofIdentifier (Path.stem name) = true
    · have hne : Path.stem name ≠ ".json" := fun he => absurd (he ▸ hi) (by decide)
      have hname := Path.eq_stem_append hjson hne
      have hfile : disk.find? (proofFile dir (Path.stem name)) = some (.file bytes) := by
        rw [proofFile, ← hname, he]
      obtain ⟨b, s, hput, hs, hfind⟩ := hl.put hi hfile
      obtain ⟨s', hloads, hs', hfind'⟩ := ih hrest (l := { l with proofs := s }) hs
      refine ⟨s', ?_, hs', fun i hi' => ?_⟩
      · rw [if_pos hi, Disk.load_of_find? he, Action.of_ok_bind, Action.bind_ok hput, hloads]
      · have hiff : i = Path.stem name ↔ i ++ ".json" = name := by
          conv_rhs => rw [hname]
          exact Path.append_json_inj.symm
        rw [hfind' i hi', hfind]
        simp only [List.mem_cons, hiff, Bool.decide_or, Bool.or_assoc]
    · obtain ⟨s', hloads, hs', hfind'⟩ := ih hrest hl
      refine ⟨s', by rw [if_neg hi, hloads], hs', fun i hi' => ?_⟩
      have hne : i ++ ".json" ≠ name := by
        rintro rfl
        rw [Path.stem_append (ne_empty_of_isProofIdentifier hi')] at hi
        exact hi hi'
      rw [hfind' i hi']
      simp only [List.mem_cons, hne, false_or]

/-! ## Steps -/

section

variable {lines : List StepRecord} {saved : Option (Commitment × List Int)}

/-- The lines of written records are read back one by one. -/
theorem readLines_stepsText (h : ∀ r ∈ lines, r.Written) :
    readLines (stepsText lines).toUTF8 = ⟨(lines.map StepRecord.text).map line, false⟩ :=
  readLines_join (List.forall_mem_map.2 fun r hr => Json.oneLine_canonical (h r hr).canonical)

/-- The lines of a file of written records are all read, or one of them is nested too deeply. -/
theorem loadSteps_of_file (hw : ∀ r ∈ lines, r.Written)
    (hentry : disk.find? (stepsFile dir) = some (.file (stepsText lines).toUTF8)) :
    (∀ r ∈ lines, r.Legible) ∧ loadSteps disk dir = .ok lines ∨
      (¬∀ r ∈ lines, r.Legible) ∧
        ∃ n, loadSteps disk dir = .error (.refusal (.stepLine (stepsFile dir) n)) := by
  have hcontains : disk.contains (stepsFile dir) = true := Disk.contains_of_find? hentry
  rw [loadSteps, if_pos hcontains, Disk.load_of_find? hentry, ok_bind, readLines_stepsText hw,
    List.map_map]
  rcases recordsOfLines_written hw (stepsFile dir) 1 with ⟨hall, hread⟩ | ⟨hnot, n, hread⟩
  · refine .inl ⟨hall, ?_⟩
    show (recordsOfLines (stepsFile dir) 1 (lines.map fun r => line r.text) >>= _) = _
    rw [hread]
    rfl
  · refine .inr ⟨hnot, n, ?_⟩
    show (recordsOfLines (stepsFile dir) 1 (lines.map fun r => line r.text) >>= _) = _
    rw [hread]
    rfl

theorem loadSteps_eq (h : Holds dir lines saved disk) :
    (∀ r ∈ lines, r.Legible) ∧ loadSteps disk dir = .ok lines ∨
      (¬∀ r ∈ lines, r.Legible) ∧
        ∃ n, loadSteps disk dir = .error (.refusal (.stepLine (stepsFile dir) n)) := by
  cases lines with
  | nil =>
    refine .inl ⟨fun r hr => absurd hr List.not_mem_nil, ?_⟩
    rw [loadSteps, if_neg]
    rw [Disk.contains, h.steps]
    exact Bool.false_ne_true
  | cons first rest => exact loadSteps_of_file h.written h.steps

end

/-! ## The chain -/

theorem mapM_integerOfJson (proven : List Int) :
    (proven.map Json.int).mapM integerOfJson = .ok proven := by
  induction proven with
  | nil => rfl
  | cons n rest ih =>
    rw [List.map_cons, List.mapM_cons, ih]
    rfl

/-- The file of a chain is read as the head and the numbers that it was written from. -/
theorem chainOfJson_chainJson (head : Commitment) (proven : List Int) :
    chainOfJson (chainJson head.text proven).canonicalForm = .ok (head, proven) := by
  have hn : Json.Distinct ([("head", Json.str head.text),
      ("proven", .arr (proven.map .int))].map Prod.fst) :=
    (by decide : Json.Distinct ["head", "proven"])
  have hhead : headOfJson (Json.str head.text).canonicalForm = .ok head := by
    rw [Json.canonicalForm, head.isNormal_text, headOfJson, Commitment.ofText?_text]
  have hitems : Json.canonicalItems (proven.map .int) = proven.map .int := by
    rw [Json.canonicalItems_eq_map, List.map_map]
    exact List.map_congr_left fun n _ => by simp [Json.canonicalForm]
  rw [chainJson, Json.canonicalForm_obj, chainOfJson]
  simp only [Json.find?_canonicalObject hn, Keyed.find?, if_pos, Option.map_some]
  rw [hhead, ok_bind, if_neg (by decide), Option.map_some, Option.getD_some, Json.canonicalForm,
    hitems, numbersOfJson, mapM_integerOfJson]
  rfl

theorem depth_chainJson (head : String) (proven : List Int) :
    (chainJson head proven).depth ≤ Json.textNestingLimit := by
  have hitems : Json.depthItems (proven.map .int) ≤ 0 :=
    Json.depthItems_le.2 (List.forall_mem_map.2 fun n _ => by simp [Json.depth])
  have hdepth : (chainJson head proven).depth ≤ 2 := by
    simp only [chainJson, Json.depth, Json.depthMembers]
    omega
  exact Nat.le_trans hdepth (by decide)

/-- The head of the chain, moved on to the last record if that goes on from it. -/
theorem rollForward_eq {lines : List StepRecord} (h : ∀ r ∈ lines, r.Written) (head : Commitment) :
    ∃ moved, rollForward head lines = .ok moved ∧
      (moved = head ∧ (∀ r ∈ lines.getLast?, r.claim.prior ≠ head.text) ∨
        ∃ r ∈ lines.getLast?, r.claim.prior = head.text ∧ r.claim.newHead = moved.text) := by
  unfold rollForward
  cases hl : lines.getLast? with
  | none => exact ⟨head, rfl, .inl ⟨rfl, by simp⟩⟩
  | some r =>
    obtain ⟨next, hnext⟩ := (h r (List.mem_of_getLast? hl)).evaluated.claim.newHead
    by_cases hp : r.claim.prior = head.text
    · refine ⟨next, ?_, .inr ⟨r, rfl, hp, hnext⟩⟩
      simp only [hp, if_true, hnext, headOfJson, Commitment.ofText?_text]
    · refine ⟨head, by simp only [hp, if_false], .inl ⟨rfl, fun s hs => ?_⟩⟩
      cases hs
      exact hp

/-! ## Opening -/

theorem mem_jsonNames {directory : Path} {name : String} :
    name ∈ jsonNames disk directory ↔
      (∃ entry, disk.find? (directory ++ [name]) = some entry) ∧ Path.isJsonName name = true := by
  rw [jsonNames, List.mem_filter, Disk.mem_names]

/-- A store directory whose payloads and proofs can be read. -/
structure Open (dir : Path) (disk : Disk) : Prop where
  made : ∀ p, OwnFile dir p → disk.contains p = true → disk.contains dir = true
  payloads : ∀ name ∈ jsonNames disk (commitmentsDir dir),
    ∃ c p, name = c.hex ++ ".json" ∧ Stands dir disk c p
  proofs : ∀ name ∈ jsonNames disk (proofsDir dir),
    ∃ bytes, disk.find? (proofsDir dir ++ [name]) = some (.file bytes)

/-- The stores that a directory fills: they hold what has a file. -/
structure Filled (dir : Path) (disk : Disk) (payloads : Payloads Disk) (proofs : Proofs Disk) :
    Prop where
  restored : Restored dir disk payloads
  proofsRestored : ProofsRestored dir disk proofs
  stored : ∀ c, (payloads.find? c).isSome = disk.contains (commitmentFile dir c)
  proved : ∀ i, isProofIdentifier i = true →
    (proofs.find? i).isSome = disk.contains (proofFile dir i)

/-- The chain of a directory over the payloads that it holds. -/
def takeUp (dir : Path) (disk : Disk) (evaluator : Evaluator) (payloads : Payloads Disk) :
    Except Failure (Chain Disk) := do
  let records ← loadSteps disk dir
  match ← loadChain disk dir records with
  | some saved => Chain.resume payloads evaluator saved.head saved.records saved.proven
  | none => .ok (.fresh evaluator)

theorem contains_iff_mem_jsonNames {directory : Path} {base : String} :
    disk.contains (directory ++ [base ++ ".json"]) = true ↔
      base ++ ".json" ∈ jsonNames disk directory := by
  rw [mem_jsonNames, Disk.contains, ← Option.isSome_iff_exists]
  simp [Path.isJsonName_append]

/-- The stores are filled from the files of the directory. -/
theorem Open.loadStores (h : Open dir disk) (evaluator : Evaluator) :
    ∃ payloads proofs, Filled dir disk payloads proofs ∧
      loadPayloads disk dir (jsonNames disk (commitmentsDir dir)) (Ledger.fresh evaluator disk)
        = (.ok (), ⟨payloads, .empty, .fresh evaluator, true, disk⟩) ∧
      loadProofs disk dir (jsonNames disk (proofsDir dir))
          ⟨payloads, .empty, .fresh evaluator, true, disk⟩
        = (.ok (), ⟨payloads, proofs, .fresh evaluator, true, disk⟩) := by
  obtain ⟨payloads, hload, hpayloads, hstored⟩ :=
    loadPayloads_eq h.payloads (l := Ledger.fresh evaluator disk) restored_empty
  obtain ⟨proofs, hload', hproofs, hproved⟩ := loadProofs_eq
    (fun name hname => ⟨(mem_jsonNames.1 hname).2, h.proofs name hname⟩)
    (l := ⟨payloads, .empty, .fresh evaluator, true, disk⟩) proofsRestored_empty
  refine ⟨payloads, proofs, ⟨hpayloads, hproofs, fun c => ?_, fun i hi => ?_⟩, hload, hload'⟩
  · rw [hstored, Bool.eq_iff_iff, commitmentFile, contains_iff_mem_jsonNames]
    simp [Ledger.fresh, Store.empty, Store.find?, Store.findEntry?]
  · rw [hproved i hi, Bool.eq_iff_iff, proofFile, contains_iff_mem_jsonNames]
    simp [Store.empty, Store.find?, Store.findEntry?]

/-- A directory that is not there holds nothing. -/
theorem Open.absent (h : Open dir disk) (hdir : ¬disk.contains dir = true) {p : Path}
    (hp : OwnFile dir p) : disk.contains p = false :=
  Bool.eq_false_iff.2 fun hc => hdir (h.made p hp hc)

theorem filled_empty (h : Open dir disk) (hdir : ¬disk.contains dir = true) :
    Filled dir disk .empty .empty where
  restored := restored_empty
  proofsRestored := proofsRestored_empty
  stored _ := (h.absent hdir (.payload _)).symm
  proved _ _ := (h.absent hdir (.proof _)).symm

/-- A session on a directory has the stores that the directory fills and the chain that it gives
over them. -/
theorem Open.make_eq (h : Open dir disk) (config : Config) :
    ∃ payloads proofs, Filled dir disk payloads proofs ∧
      Session.make config (some dir) disk
        = (takeUp dir disk (Machine.evaluator config.stepLimit) payloads).map fun chain =>
            ⟨config, some dir, attach dir ⟨payloads, proofs, chain, true, disk⟩⟩ := by
  by_cases hdir : disk.contains dir = true
  · obtain ⟨payloads, proofs, hfilled, hload, hload'⟩ :=
      h.loadStores (Machine.evaluator config.stepLimit)
    refine ⟨payloads, proofs, hfilled, ?_⟩
    have hload : load dir (Ledger.fresh (Machine.evaluator config.stepLimit) disk)
        = match takeUp dir disk (Machine.evaluator config.stepLimit) payloads with
          | .error e =>
            (.error e, ⟨payloads, proofs, .fresh (Machine.evaluator config.stepLimit), true, disk⟩)
          | .ok chain => (.ok (), ⟨payloads, proofs, chain, true, disk⟩) := by
      rw [load, Action.state_bind,
        show (Ledger.fresh (Machine.evaluator config.stepLimit) disk).world = disk from rfl,
        if_pos hdir, Action.bind_ok hload, Action.bind_ok hload', takeUp]
      cases hs : loadSteps disk dir with
      | error e => rfl
      | ok records =>
        rw [Action.of_ok_bind, ok_bind]
        cases hc : loadChain disk dir records with
        | error e => rfl
        | ok found =>
          rw [Action.of_ok_bind, ok_bind]
          cases found with
          | none => rfl
          | some s =>
            dsimp only
            rw [Action.state_bind]
            show (Action.of (Chain.resume payloads (Machine.evaluator config.stepLimit) s.head
              s.records s.proven) >>= _) _ = _
            cases Chain.resume payloads (Machine.evaluator config.stepLimit) s.head s.records
              s.proven <;> rfl
    simp only [Session.make, hload]
    cases takeUp dir disk (Machine.evaluator config.stepLimit) payloads <;> rfl
  · refine ⟨.empty, .empty, filled_empty h hdir, ?_⟩
    have hload : load dir (Ledger.fresh (Machine.evaluator config.stepLimit) disk)
        = (.ok (), Ledger.fresh (Machine.evaluator config.stepLimit) disk) := by
      rw [load, Action.state_bind,
        show (Ledger.fresh (Machine.evaluator config.stepLimit) disk).world = disk from rfl,
        if_neg hdir]
      rfl
    have htake : takeUp dir disk (Machine.evaluator config.stepLimit) .empty
        = .ok (.fresh (Machine.evaluator config.stepLimit)) := by
      rw [takeUp, loadSteps, h.absent hdir .steps, if_neg Bool.false_ne_true, ok_bind, loadChain,
        h.absent hdir .chain, if_neg Bool.false_ne_true]
      rfl
    simp only [Session.make, hload, htake]
    rfl

/-! ## Directories of which it is known what they hold -/

section

variable {lines : List StepRecord} {saved : Option (Commitment × List Int)}

theorem Holds.open (h : Holds dir lines saved disk) : Open dir disk where
  made := h.made
  payloads name hname := by
    obtain ⟨⟨entry, he⟩, _⟩ := mem_jsonNames.1 hname
    obtain ⟨c, v, x, hfile⟩ := h.payloads name entry he
    exact ⟨c, _, hfile.name_eq, hfile.stands he⟩
  proofs name hname := by
    obtain ⟨⟨entry, he⟩, _⟩ := mem_jsonNames.1 hname
    obtain ⟨_, bytes, _, _, rfl⟩ := h.proofs name entry he
    exact ⟨bytes, he⟩

/-- Payloads that a directory fills are regular. -/
theorem Holds.regular (h : Holds dir lines saved disk) {s : Payloads Disk}
    (hs : Restored dir disk s) : ∀ e ∈ s.entries, e.2.value.Regular := by
  intro e he
  have hstands := hs.stands e he
  obtain ⟨x, hload, _⟩ := hstands.decoded
  obtain ⟨bytes, hread, _⟩ := bind_eq_ok.1 hload
  have hentry := Disk.find?_of_load hread
  obtain ⟨c, v, y, hfile⟩ := h.payloads _ _ hentry
  obtain rfl : e.1 = c := Hash.Digest.hex_inj.1 (Path.append_json_inj.1 hfile.name_eq)
  rw [hstands.unique (hfile.stands hentry)]
  exact Value.regular_prune hfile.regular

/-- A line that is nested too deeply stops the opening. -/
theorem Holds.takeUp_of_not_legible (h : Holds dir lines saved disk)
    (hl : ¬∀ r ∈ lines, r.Legible) (evaluator : Evaluator) (payloads : Payloads Disk) :
    ∃ n, takeUp dir disk evaluator payloads = .error (.refusal (.stepLine (stepsFile dir) n)) := by
  rcases loadSteps_eq h with ⟨hall, _⟩ | ⟨_, n, hsteps⟩
  · exact absurd hall hl
  · exact ⟨n, by rw [takeUp, hsteps]; rfl⟩

theorem Holds.loadSteps_of_legible (h : Holds dir lines saved disk)
    (hl : ∀ r ∈ lines, r.Legible) : loadSteps disk dir = .ok lines := by
  rcases loadSteps_eq h with ⟨_, hsteps⟩ | ⟨hnot, _⟩
  · exact hsteps
  · exact absurd hl hnot

/-- The chain is taken up from the saved head, moved on, and the lines. -/
theorem takeUp_of_saved {head : Commitment} {proven : List Int}
    (h : Holds dir lines (some (head, proven)) disk) (hl : ∀ r ∈ lines, r.Legible)
    (evaluator : Evaluator) (payloads : Payloads Disk) :
    ∃ moved, rollForward head lines = .ok moved ∧
      takeUp dir disk evaluator payloads = Chain.resume payloads evaluator moved lines proven := by
  obtain ⟨bytes, hbytes, hentry⟩ := h.chain head proven rfl
  obtain ⟨moved, hmoved, _⟩ := rollForward_eq h.written head
  refine ⟨moved, hmoved, ?_⟩
  rw [takeUp, h.loadSteps_of_legible hl, ok_bind, loadChain, h.contains_chainFile,
    Option.isSome_some, if_pos rfl, Disk.loadJson_of_find? hentry hbytes (depth_chainJson _ _),
    ok_bind, chainOfJson_chainJson, ok_bind]
  simp only [hmoved, ok_bind]

/-- Without a head no step is accepted. -/
theorem takeUp_of_unsaved (h : Holds dir lines none disk) (hl : ∀ r ∈ lines, r.Legible)
    (evaluator : Evaluator) (payloads : Payloads Disk) :
    takeUp dir disk evaluator payloads
      = if lines.isEmpty then .ok (.fresh evaluator)
        else .error (.chainFaulted (.stepsWithoutHead dir)) := by
  rw [takeUp, h.loadSteps_of_legible hl, ok_bind, loadChain, h.contains_chainFile,
    Option.isSome_none, if_neg Bool.false_ne_true]
  cases lines <;> rfl

end

end CommitChain.Archive
