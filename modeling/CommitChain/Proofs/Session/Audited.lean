import CommitChain.Proofs.Session.Problems
import CommitChain.Proofs.Session.Reopening

/-!
# Audited directories

An audit that finds nothing has read every payload, proof and step, and has followed the steps to
the head.  Opening asks for more in three places: file names of payloads have to be in lower case,
steps need the file of the chain, and the list of proved steps has to be one of numbers
(`audited_opens_iff`).
-/

namespace CommitChain

namespace Audit

open Archive

variable {disk : Disk} {root : Path}

/-! ## Payloads -/

/-- What stands in the file of a commitment that was recomputed. -/
theorem commitmentIn_eq_ok {path : Path} {c : Commitment} (h : commitmentIn disk path = .ok c) :
    ∃ x v encoding, disk.loadJson path = .ok x ∧ Value.decode x = .ok v ∧
      v.encodeStrict = .ok encoding ∧ commitmentOf encoding = .ok c := by
  obtain ⟨x, hx, h⟩ := bind_eq_ok.1 h
  obtain ⟨v, hv, hc⟩ := bind_eq_ok.1 (orFail_eq_ok.1 h)
  obtain ⟨encoding, he, hc⟩ := bind_eq_ok.1 hc
  exact ⟨x, v, encoding, hx, hv, he, hc⟩

/-- A file under its commitment stands for its payload. -/
theorem stands_of_commitmentIn {name : String} {c : Commitment} (hj : Path.isJsonName name = true)
    (h : commitmentIn disk (commitmentsDir root ++ [name]) = .ok c)
    (hn : c.hex = Path.stem name) : ∃ p, name = c.hex ++ ".json" ∧ Stands root disk c p := by
  obtain rfl := name_eq_of_stem hj hn
  obtain ⟨x, v, encoding, hx, hv, he, hc⟩ := commitmentIn_eq_ok h
  exact ⟨⟨v, encoding⟩, rfl, ⟨x, hx, hv⟩, he, hc⟩

/-- A name in lower case is that of its commitment. -/
theorem hex_eq_stem_iff {name : String} {c : Commitment}
    (h : c.hex.toList = (Path.stem name).toList.map Char.toLower) :
    c.hex = Path.stem name ↔
      (Path.stem name).toList.map Char.toLower = (Path.stem name).toList := by
  rw [← String.toList_inj, h]

/-! ## Reports -/

/-- A directory in which an audit found nothing. -/
structure Clean (root : Path) (disk : Disk) (report : AuditReport) (records : List StepRecord) :
    Prop where
  payloads : ∀ name ∈ jsonNames disk (commitmentsDir root), ∃ c,
    commitmentIn disk (commitmentsDir root ++ [name]) = .ok c ∧
      c.hex.toList = (Path.stem name).toList.map Char.toLower
  proofs : ∀ name ∈ jsonNames disk (proofsDir root), ∃ bytes,
    disk.find? (proofsDir root ++ [name]) = some (.file bytes)
  read : loadSteps disk root = .ok records
  count : report.stepsChecked = records.length
  linked : Chain.Linked records
  chain : disk.contains (chainFile root) = false ∧ report.head = none ∨
    disk.contains (chainFile root) = true ∧ ∃ members head,
      report.head = some (Commitment.text head) ∧
      disk.loadJson (chainFile root) = .ok (.obj members) ∧
      Keyed.find? "head" members = some (.str (Commitment.text head)) ∧
      (∃ name ∈ jsonNames disk (commitmentsDir root),
        commitmentIn disk (commitmentsDir root ++ [name]) = .ok head) ∧
      ∀ r ∈ records.getLast?, r.claim.newHead = Commitment.text head

/-- A file of the chain with a head is an object. -/
theorem object_of_headIn {path : Path} {head : Json} (h : headIn disk path = .ok (some head)) :
    ∃ members, disk.loadJson path = .ok (.obj members) ∧
      Keyed.find? "head" members = some head := by
  obtain ⟨x, hx, hmember⟩ := bind_eq_ok.1 h
  cases x with
  | obj members => exact ⟨members, hx, Except.ok.inj hmember⟩
  | _ => exact absurd (Except.ok.inj hmember) (by simp [Json.member?])

theorem clean_of_run {report : AuditReport} (h : run disk root = .ok report)
    (hok : report.ok = true) : ∃ records, Clean root disk report records := by
  have hnone := (ok_iff h).1 hok
  obtain ⟨records, hread, hlinked, _⟩ := exists_steps_of_not_problem hnone
  obtain ⟨_, _, hcount⟩ := counts_of_run h
  obtain ⟨hhead, habsent⟩ := head_of_run h
  refine ⟨records, ?_, ?_, hread, by rw [hcount, recordsIn_eq hread], hlinked, ?_⟩
  · intro name hname
    cases hc : commitmentIn disk (commitmentsDir root ++ [name]) with
    | error f => exact absurd (.payloadUnreadable hname hc) (hnone _ _)
    | ok c =>
      have hnamed : Named c name := by
        by_contra hnot
        exact hnone _ _ (.payloadMisnamed hname hc hnot)
      exact ⟨c, rfl, by rw [show c.hex = _ from hnamed, String.toList_ofList]⟩
  · intro name hname
    cases hb : disk.load (proofsDir root ++ [name]) with
    | error f => exact absurd (.proofUnreadable hname hb) (hnone _ _)
    | ok bytes => exact ⟨bytes, Disk.find?_of_load hb⟩
  · cases hc : disk.contains (chainFile root) with
    | false => exact .inl ⟨rfl, habsent hc⟩
    | true =>
      obtain ⟨text, htext, hverified, hlast⟩ := exists_head_of_not_problem hnone hread hc
      obtain ⟨name, hname, c, hcommitment, _, rfl⟩ := hverified
      obtain ⟨members, hobject, hfind⟩ := object_of_headIn htext
      exact .inr ⟨rfl, members, c, hhead _ htext, hobject, hfind, ⟨name, hname, hcommitment⟩, hlast⟩

/-! ## Opening -/

section

variable {report : AuditReport} {records : List StepRecord} {payloads : Payloads Disk}

/-- What opening the payloads of a directory asks of their names. -/
theorem stem_of_loadPayloads {names : List String} {l l' : Ledger Disk}
    (h : loadPayloads disk root names l = (.ok (), l')) :
    ∀ name ∈ names, ∀ c, commitmentIn disk (commitmentsDir root ++ [name]) = .ok c →
      c.hex = Path.stem name := by
  induction names generalizing l with
  | nil => exact fun name hname => absurd hname List.not_mem_nil
  | cons name rest ih =>
    rw [loadPayloads] at h
    obtain ⟨x, _, hof, h⟩ := Action.bind_eq_ok.1 h
    obtain ⟨hx, rfl⟩ := Action.of_eq.1 hof
    obtain ⟨k, l₁, hrestore, h⟩ := Action.bind_eq_ok.1 h
    split at h
    · exact absurd (congrArg Prod.fst h) (by simp [Action.fail])
    next hstem =>
      refine List.forall_mem_cons.2 ⟨fun c hc => ?_, ih h⟩
      obtain ⟨y, v, encoding, hy, hv, he, hcommitment⟩ := commitmentIn_eq_ok hc
      obtain rfl : x = y := Except.ok.inj (hx.symm.trans hy)
      rw [Ledger.restore, Ledger.onPayloads] at hrestore
      obtain ⟨_, hrestore, _⟩ := Action.on_eq.1 hrestore
      rw [Payloads.restore, hv, orFail, Action.of_ok_bind] at hrestore
      have hk := (Payloads.commit_eq_ok hrestore).1
      rw [Value.commitment, he] at hk
      obtain rfl : c = k := Except.ok.inj (hcommitment.symm.trans hk)
      exact not_not.1 hstem

theorem lower_of_make (h : Clean root disk report records)
    (hmade : ∀ p, OwnFile root p → disk.contains p = true → disk.contains root = true)
    {config : Config} {s : Session} (hm : Session.make config (some root) disk = .ok s) :
    ∀ name ∈ jsonNames disk (commitmentsDir root),
      (Path.stem name).toList.map Char.toLower = (Path.stem name).toList := by
  intro name hname
  obtain ⟨c, hc, hhex⟩ := h.payloads name hname
  obtain ⟨entry, hentry⟩ := (mem_jsonNames.1 hname).1
  have hroot := hmade _ (.payload name) (Disk.contains_of_find? hentry)
  refine (hex_eq_stem_iff hhex).1 ?_
  simp only [Session.make] at hm
  split at hm
  · exact absurd hm (by simp)
  next l hload =>
    rw [load, Action.state_bind,
      show (Ledger.fresh (Machine.evaluator config.stepLimit) disk).world = disk from rfl,
      if_pos hroot] at hload
    obtain ⟨_, _, hpayloads, _⟩ := Action.bind_eq_ok.1 hload
    exact stem_of_loadPayloads hpayloads name hname c hc

theorem Clean.open (h : Clean root disk report records)
    (hmade : ∀ p, OwnFile root p → disk.contains p = true → disk.contains root = true)
    (hlower : ∀ name ∈ jsonNames disk (commitmentsDir root),
      (Path.stem name).toList.map Char.toLower = (Path.stem name).toList) : Open root disk where
  made := hmade
  payloads name hname := by
    obtain ⟨c, hc, hhex⟩ := h.payloads name hname
    obtain ⟨p, hp⟩ := stands_of_commitmentIn (mem_jsonNames.1 hname).2 hc
      ((hex_eq_stem_iff hhex).2 (hlower name hname))
    exact ⟨c, p, hp⟩
  proofs := h.proofs

/-- A commitment that was recomputed has its file. -/
theorem contains_of_commitmentIn (h : Clean root disk report records)
    (hlower : ∀ name ∈ jsonNames disk (commitmentsDir root),
      (Path.stem name).toList.map Char.toLower = (Path.stem name).toList) {c : Commitment}
    (hc : ∃ name ∈ jsonNames disk (commitmentsDir root),
      commitmentIn disk (commitmentsDir root ++ [name]) = .ok c) :
    disk.contains (commitmentFile root c) = true := by
  obtain ⟨name, hname, hc⟩ := hc
  obtain ⟨k, hk, hhex⟩ := h.payloads name hname
  obtain rfl : c = k := Except.ok.inj (hc.symm.trans hk)
  obtain ⟨_, rfl, _⟩ := stands_of_commitmentIn (mem_jsonNames.1 hname).2 hc
    ((hex_eq_stem_iff hhex).2 (hlower name hname))
  exact contains_iff_mem_jsonNames.2 hname

/-- Without the file of the chain there must not be any steps. -/
theorem Clean.takeUp_of_absent (h : Clean root disk report records)
    (hc : disk.contains (chainFile root) = false) (evaluator : Evaluator) :
    takeUp root disk evaluator payloads
      = if records.isEmpty then .ok (.fresh evaluator)
        else .error (.chainFaulted (.stepsWithoutHead root)) := by
  rw [takeUp, h.read, ok_bind, loadChain, hc, if_neg Bool.false_ne_true]
  cases records <;> rfl

/-- The head in the file of the chain is taken up as it is, if the list of proved steps can be
read. -/
theorem Clean.takeUp_of_present (h : Clean root disk report records)
    (hc : disk.contains (chainFile root) = true) {members : List (String × Json)}
    {head : Commitment} (hx : disk.loadJson (chainFile root) = .ok (.obj members))
    (hfind : Keyed.find? "head" members = some (.str head.text))
    (hlast : ∀ r ∈ records.getLast?, r.claim.newHead = head.text) (evaluator : Evaluator) :
    takeUp root disk evaluator payloads
      = (numbersOfJson ((Keyed.find? "proven" members).getD (.arr [])) >>= fun proven =>
          Chain.resume payloads evaluator head records proven) := by
  have hmoved : rollForward head records = .ok head := by
    unfold rollForward
    cases hl : records.getLast? with
    | none => rfl
    | some r =>
      dsimp only
      rw [hlast r hl, headOfJson, Commitment.ofText?_text]
      split <;> rfl
  rw [takeUp, h.read, ok_bind, loadChain, if_pos hc, hx, ok_bind, chainOfJson]
  simp only [hfind, headOfJson, Commitment.ofText?_text, ok_bind]
  cases numbersOfJson ((Keyed.find? "proven" members).getD (.arr [])) with
  | error e => rfl
  | ok proven =>
    simp only [ok_bind, hmoved]

/-- A directory in which an audit found nothing is opened with the head and the number of steps of
the report exactly if the names of its payloads are in lower case, it has no steps without a file of
the chain, and the list of proved steps in that file can be read as numbers. -/
theorem audited_opens_iff
    (hmade : ∀ p, OwnFile root p → disk.contains p = true → disk.contains root = true)
    (ha : run disk root = .ok report) (hok : report.ok = true) (config : Config) :
    (∃ s, Session.make config (some root) disk = .ok s ∧
        s.ledger.chain.head?.map Commitment.text = report.head ∧
        s.ledger.chain.history.length = report.stepsChecked) ↔
      (∀ name ∈ jsonNames disk (commitmentsDir root),
        (Path.stem name).toList.map Char.toLower = (Path.stem name).toList) ∧
      (disk.contains (chainFile root) = false → report.stepsChecked = 0) ∧
      ∀ x, disk.loadJson (chainFile root) = .ok x →
        ∃ proven, numbersOfJson ((x.member? "proven").getD (.arr [])) = .ok proven := by
  obtain ⟨records, hclean⟩ := clean_of_run ha hok
  have hopen := hclean.open hmade
  rcases hclean.chain with ⟨hc, hhead⟩ | ⟨hc, members, head, hhead, hx, hfind, hfile, hlast⟩
  · have hnone : ∀ x, disk.loadJson (chainFile root) ≠ .ok x := fun x hx => by
      obtain ⟨bytes, hbytes, _⟩ := bind_eq_ok.1 hx
      rw [Disk.contains_of_find? (Disk.find?_of_load hbytes)] at hc
      exact absurd hc (by simp)
    constructor
    · rintro ⟨s, hm, _, hlength⟩
      have hlower := lower_of_make hclean hmade hm
      obtain ⟨payloads, proofs, _, hmake⟩ := (hopen hlower).make_eq config
      rw [hmake, hclean.takeUp_of_absent hc] at hm
      obtain ⟨c, hc', _⟩ := map_eq_ok.1 hm
      refine ⟨hlower, fun _ => ?_, fun x hx => absurd hx (hnone x)⟩
      split at hc'
      next hempty => rw [hclean.count, List.isEmpty_iff.1 hempty, List.length_nil]
      next => exact absurd hc' (by simp)
    · rintro ⟨hlower, hzero, _⟩
      obtain ⟨payloads, proofs, _, hmake⟩ := (hopen hlower).make_eq config
      have hempty : records = [] := List.length_eq_zero_iff.1 (hclean.count ▸ hzero hc)
      rw [hclean.takeUp_of_absent hc, hempty, List.isEmpty_nil, if_pos rfl] at hmake
      exact ⟨_, hmake, hhead.symm, (hzero hc).symm⟩
  · constructor
    · rintro ⟨s, hm, _⟩
      have hlower := lower_of_make hclean hmade hm
      obtain ⟨payloads, proofs, _, hmake⟩ := (hopen hlower).make_eq config
      rw [hmake, hclean.takeUp_of_present hc hx hfind hlast] at hm
      obtain ⟨_, hresume, _⟩ := map_eq_ok.1 hm
      obtain ⟨proven, hproven, _⟩ := bind_eq_ok.1 hresume
      refine ⟨hlower, fun habsent => absurd (hc.symm.trans habsent) (by simp), fun y hy => ?_⟩
      obtain rfl : .obj members = y := Except.ok.inj (hx.symm.trans hy)
      exact ⟨proven, hproven⟩
    · rintro ⟨hlower, _, hnumbers⟩
      obtain ⟨payloads, proofs, hfilled, hmake⟩ := (hopen hlower).make_eq config
      obtain ⟨proven, hproven⟩ := hnumbers _ hx
      have hproven : numbersOfJson ((Keyed.find? "proven" members).getD (.arr [])) = .ok proven :=
        hproven
      obtain ⟨p, hp⟩ := Option.isSome_iff_exists.1 ((hfilled.stored head).trans
        (contains_of_commitmentIn hclean hlower hfile))
      have hresume : Chain.resume payloads (Machine.evaluator config.stepLimit) head records proven
          = .ok (Session.taken config head records proven) := by
        refine Chain.resume_eq_ok.2 ?_
        rw [Chain.ordered_eq hclean.linked.ascending]
        exact ⟨hclean.linked, hlast, ⟨p, hp⟩, rfl⟩
      rw [hclean.takeUp_of_present hc hx hfind hlast, hproven, ok_bind, hresume] at hmake
      exact ⟨_, hmake, hhead.symm, hclean.count.symm⟩

/-! ## The payload of nil -/

/-- Whether an audit of a directory finds nothing. -/
def findsNothing (disk : Disk) : Bool :=
  ((run disk ["s"]).map AuditReport.ok).toOption == some true

theorem exists_report (h : findsNothing disk = true) :
    ∃ report, run disk ["s"] = .ok report ∧ report.ok = true := by
  obtain ⟨report, hr, hok⟩ := map_eq_ok.1 (toOption_eq_some.1 (eq_of_beq h))
  exact ⟨report, hr, hok⟩

/-- The directory of a session that committed to nil, with a name for its payload. -/
def nilUnder (name : String) : Disk :=
  { entries := [
      (["s"], .directory),
      (commitmentsDir ["s"], .directory),
      (commitmentsDir ["s"] ++ [name ++ ".json"], .file "[\"nil\"]\n".toUTF8)] }

def nilDigits : String :=
  "00c8710e1fea46201bb9db59d73b613b6fdc5577229b1f5c2144b4d0af8e981e"

theorem made_nilUnder (name : String) (p : Path) (_ : OwnFile ["s"] p)
    (_ : (nilUnder name).contains p = true) : (nilUnder name).contains ["s"] = true :=
  rfl

set_option maxRecDepth 100000 in
theorem nilUnder_upper : findsNothing (nilUnder nilDigits.toUpper) = true ∧
    (Session.make .default (some ["s"]) (nilUnder nilDigits.toUpper)).toOption.isNone = true := by
  decide +kernel

/-- A directory in which an audit finds nothing may not be opened. -/
theorem audited_is_not_opened : ∃ disk report,
    (∀ p, OwnFile ["s"] p → disk.contains p = true → disk.contains ["s"] = true) ∧
      run disk ["s"] = .ok report ∧ report.ok = true ∧
      ∀ s, Session.make .default (some ["s"]) disk ≠ .ok s := by
  obtain ⟨haudited, hopened⟩ := nilUnder_upper
  obtain ⟨report, hr, hok⟩ := exists_report haudited
  refine ⟨_, report, made_nilUnder _, hr, hok, fun s hm => ?_⟩
  rw [hm] at hopened
  exact absurd hopened (by simp [Except.toOption])

/-- A chain that was started at nil. -/
def startedAtNil : Disk :=
  { nilUnder nilDigits with
    entries := (nilUnder nilDigits).entries ++ [(chainFile ["s"],
      .file ("\x7b\"head\":\"0x" ++ nilDigits ++ "\",\"proven\":[]\x7d\n").toUTF8)] }

theorem made_startedAtNil (p : Path) (_ : OwnFile ["s"] p)
    (_ : startedAtNil.contains p = true) : startedAtNil.contains ["s"] = true :=
  rfl

set_option maxRecDepth 100000 in
theorem startedAtNil_eq : findsNothing startedAtNil = true ∧
    (jsonNames startedAtNil (commitmentsDir ["s"])).all (fun name =>
      (Path.stem name).toList.map Char.toLower == (Path.stem name).toList) = true ∧
    ((startedAtNil.loadJson (chainFile ["s"])).toOption.all fun x =>
      (numbersOfJson ((x.member? "proven").getD (.arr []))).toOption.isSome) = true := by
  decide +kernel

/-- With its name in lower case, the directory is opened with the head of the report. -/
theorem audited_opens_at_nil : ∃ report s, run startedAtNil ["s"] = .ok report ∧
    report.ok = true ∧ Session.make .default (some ["s"]) startedAtNil = .ok s ∧
    s.ledger.chain.head?.map Commitment.text = report.head := by
  obtain ⟨haudited, hnames, hnumbers⟩ := startedAtNil_eq
  obtain ⟨report, hr, hok⟩ := exists_report haudited
  obtain ⟨s, hm, hhead, _⟩ := (audited_opens_iff made_startedAtNil hr hok .default).2
    ⟨fun name hname => eq_of_beq (List.all_eq_true.1 hnames name hname),
      fun habsent => absurd habsent (by decide), fun x hx => by
        rw [hx] at hnumbers
        obtain ⟨proven, hproven⟩ := Option.isSome_iff_exists.1 hnumbers
        exact ⟨proven, toOption_eq_some.1 hproven⟩⟩
  exact ⟨report, s, hr, hok, hm, hhead⟩

end

end Audit

end CommitChain
