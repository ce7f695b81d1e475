import CommitChain.Proofs.Session.Runs

/-!
# Changes that are up to the disk

Where no file stands above the files of a store directory and no directory in their place, a change
there fails only if the disk refuses it, and leaves it like that (`Clear.change`).  So a directive
succeeds on a disk that refuses nothing, and a step whose head is refused leaves its line
(`Clear.saveStep`).
-/

namespace CommitChain

namespace Archive

open CommitChain.Text

variable {dir p : Path} {disk disk' : Disk}

/-- A disk on which nothing is in the way of the files of a store directory. -/
structure Clear (dir : Path) (disk : Disk) : Prop where
  above : ∀ p, OwnFile dir p → ∀ q ∈ Disk.ancestors p, disk.isFile q = false
  place : ∀ p, OwnFile dir p → disk.find? p ≠ some .directory

theorem clear_empty (dir : Path) (refuses : Nat → Bool) : Clear dir { refuses := refuses } where
  above _ _ q _ := by
    cases q <;> rfl
  place p hp := by
    rw [Disk.find?_of_ne_nil hp.ne_nil]
    exact nofun

theorem Clear.beside (h : Clear dir disk) (hp : OwnFile dir p) (hb : Disk.Beside p disk disk')
    (hpath : disk'.find? p ≠ some .directory) : Clear dir disk' where
  above p' hp' q hq := by
    by_cases hqp : q ∈ Disk.ancestors p
    · rcases hb.above q hqp with he | ⟨_, he⟩
      · rw [Disk.isFile, he]
        exact h.above p' hp' q hq
      · rw [Disk.isFile, he]
    · have hnot : ¬q <+: p := fun hqle => by
        obtain rfl : q = p := by
          by_contra hne
          exact hqp (Disk.mem_ancestors.2 ⟨hqle, hne⟩)
        exact (Disk.mem_ancestors.1 hq).2 (hp'.eq_of_prefix hp (Disk.mem_ancestors.1 hq).1)
      rw [Disk.isFile, hb.others q hnot]
      exact h.above p' hp' q hq
  place p' hp' := by
    by_cases he : p' = p
    · rwa [he]
    · rw [hp.others hp' hb he]
      exact h.place p' hp'

/-- A disk after some more changes at the files of a store directory. -/
structure After (dir : Path) (count : Nat) (disk disk' : Disk) : Prop where
  clear : Clear dir disk'
  refuses : disk'.refuses = disk.refuses
  changes : disk'.changes = disk.changes + count

theorem Clear.change (h : Clear dir disk) (hp : OwnFile dir p) (f : ByteArray → ByteArray) :
    ∃ disk', Disk.change p f disk
        = (if disk.refuses disk.changes then .error (.refused p) else .ok (), disk') ∧
      After dir 1 disk disk' := by
  obtain ⟨disk', hchange, hrefuses, hchanges⟩ := Disk.exists_change hp.ne_nil f (h.above p hp)
    (h.place p hp)
  refine ⟨disk', hchange, ?_, hrefuses, hchanges⟩
  cases hr : disk.refuses disk.changes with
  | true =>
    rw [hr, if_pos rfl] at hchange
    obtain ⟨hb, hsame⟩ := Disk.change_eq_error hp.ne_nil hchange
    exact h.beside hp hb (hsame ▸ h.place p hp)
  | false =>
    rw [hr, if_neg Bool.false_ne_true] at hchange
    obtain ⟨hb, _, hentry⟩ := Disk.change_eq_ok hp.ne_nil hchange
    exact h.beside hp hb (by rw [hentry]; exact nofun)

/-- Whether a tree that has a text is written is up to the disk. -/
theorem Clear.changeJson (h : Clear dir disk) (hp : OwnFile dir p) {x : Json} {text : String}
    (hx : x.canonical = .ok text) (f : ByteArray → ByteArray → ByteArray) :
    ∃ disk', Disk.changeJson p f x disk
        = (if disk.refuses disk.changes then .error (.disk (.refused p)) else .ok (), disk') ∧
      After dir 1 disk disk' := by
  obtain ⟨disk', hchange, hafter⟩ := h.change hp (f (line text).toUTF8)
  refine ⟨disk', ?_, hafter⟩
  rw [Disk.changeJson, Disk.jsonLine_eq_ok.2 ⟨text, hx, rfl⟩, Action.of_ok_bind]
  show (orFail .disk (Disk.change p _ disk).1, (Disk.change p _ disk).2) = _
  rw [hchange]
  split <;> rfl

/-- A payload is saved by at most one change. -/
theorem Clear.savePayload (h : Clear dir disk) (hallowed : disk.refuses disk.changes = false)
    {c : Commitment} {q : Payload} (hc : commitmentOf q.encoding = .ok c) :
    ∃ disk' count, Archive.savePayload dir c q disk = (.ok (), disk') ∧
      After dir count disk disk' ∧
      (disk.contains (commitmentFile dir c) = false → count = 1) := by
  obtain ⟨text, htext⟩ := exists_canonical_of_commitmentOf hc
  unfold Archive.savePayload
  split
  next hthere => exact ⟨disk, 0, rfl, ⟨h, rfl, rfl⟩, fun habsent => by simp [hthere] at habsent⟩
  next =>
    obtain ⟨disk', hsave, hafter⟩ := h.changeJson (.payload _) htext fun bytes _ => bytes
    rw [hallowed, if_neg Bool.false_ne_true] at hsave
    exact ⟨disk', 1, hsave, hafter, fun _ => rfl⟩

theorem Clear.saveChain (h : Clear dir disk) (head : Commitment) {proven : List Int}
    (hproven : ∀ i ∈ proven, i.natAbs < integerBound) :
    ∃ disk', Archive.saveChain dir head proven disk = (if disk.refuses disk.changes
        then .error (.disk (.refused (chainFile dir))) else .ok (), disk') ∧
      After dir 1 disk disk' := by
  obtain ⟨bytes, hbytes⟩ := exists_jsonLine_chainJson head.text hproven
  obtain ⟨text, htext, _⟩ := Disk.jsonLine_eq_ok.1 hbytes
  exact h.changeJson .chain htext fun bytes _ => bytes

/-- A step is saved by two changes; if the second one is refused, the first one has been made. -/
theorem Clear.saveStep (h : Clear dir disk) (hallowed : disk.refuses disk.changes = false)
    {r : StepRecord} {text : String} (hr : r.toJson.canonical = .ok text) {head : Commitment}
    (hhead : r.claim.newHead = head.text) {proven : List Int}
    (hproven : ∀ i ∈ proven, i.natAbs < integerBound) :
    ∃ disk', Archive.saveStep dir r proven disk = (if disk.refuses (disk.changes + 1)
        then .error (.disk (.refused (chainFile dir))) else .ok (), disk') ∧
      After dir 2 disk disk' ∧ disk'.contains (stepsFile dir) = true := by
  obtain ⟨disk₁, hline, h₁⟩ := h.changeJson .steps hr fun bytes old => old ++ bytes
  rw [hallowed, if_neg Bool.false_ne_true] at hline
  have happend : Disk.appendJson (stepsFile dir) r.toJson disk = (.ok (), disk₁) := hline
  obtain ⟨disk₂, hchain, h₂⟩ := h₁.clear.saveChain head hproven
  rw [h₁.refuses, h₁.changes] at hchain
  refine ⟨disk₂, ?_, ⟨h₂.clear, h₂.refuses.trans h₁.refuses, ?_⟩, ?_⟩
  · rw [saveStep_eq hhead, Action.bind_ok happend]
    exact hchain
  · rw [h₂.changes, h₁.changes]
  · obtain ⟨_, _, _, _, hentry⟩ := Disk.appendJson_eq_ok OwnFile.steps.ne_nil happend
    have hkept := saveChain_leaves hchain (stepsFile dir) .steps (by simp [stepsFile, chainFile])
    exact Disk.contains_of_find? (hkept.trans hentry)

end Archive

namespace Session

open Archive CommitChain.Text
open CommitChain.Ledger ( identity)

variable {dir : Path} {lines : List StepRecord} {saved : Option (Commitment × List Int)}
  {s : Session} {c : Commitment}

/-! ## Directives -/

/-- The session with one more payload, on another disk. -/
def withPayload (s : Session) (c : Commitment) (v : Value) (disk : Disk) : Session :=
  s.withLedger { s.ledger with
    payloads := { s.ledger.payloads with
      entries := s.ledger.payloads.entries ++ [(c, ⟨v, v.encode⟩)] }
    world := disk }

/-- A value that was not stored is stored. -/
theorem Backed.exists_commit (h : Backed dir lines saved s) (hclear : Clear dir s.disk)
    (hallowed : s.disk.refuses s.disk.changes = false) {text : String} {v : Value}
    (hv : evaluate s.config text = .ok v) (hx : v.encodeStrict = .ok v.encode)
    (hc : commitmentOf v.encode = .ok c) (hfree : s.ledger.payloads.find? c = none)
    (hprinted : ∃ shown, printed v = .ok shown) :
    ∃ disk count, (Directive.commit text).run s = (.ok (), s.withPayload c v disk) ∧
      After dir count s.disk disk ∧
      (s.disk.contains (commitmentFile dir c) = false → count = 1) := by
  obtain ⟨shown, hprinted⟩ := hprinted
  obtain ⟨disk, count, hsave, hafter⟩ :=
    hclear.savePayload hallowed (q := ⟨v, v.encode⟩) hc
  have hannounce : s.ledger.payloads.announce c ⟨v, v.encode⟩ s.ledger.world = (.ok (), disk) := by
    rw [Store.announce, h.kept.equipped.hearPayloads]
    exact Action.bind_ok hsave
  have hpayloads := Payloads.commit_new hx hc hfree s.ledger.world
  rw [hannounce] at hpayloads
  have hledger : Ledger.commit v s.ledger = (.ok c, (s.withPayload c v disk).ledger) := by
    rw [Ledger.commit, Ledger.onPayloads]
    exact Action.on_eq.2 ⟨_, hpayloads, rfl⟩
  have hcommitment : v.commitment = .ok c := by
    rw [Value.commitment, hx]
    exact hc
  refine ⟨disk, count, Action.silent_eq.2
    ⟨.ok ⟨c, shown, !s.ledger.payloads.contains c⟩, ?_, rfl⟩, hafter⟩
  rw [Session.commit, Action.state_bind, hv, Action.of_ok_bind, hcommitment, orFail,
    Action.of_ok_bind, Action.bind_ok (onLedger_eq.2 ⟨_, hledger, rfl⟩), hprinted,
    Action.of_ok_bind]
  rfl

/-- A fresh chain starts at a commitment that is stored. -/
theorem Backed.exists_start (h : Backed dir lines saved s) (hclear : Clear dir s.disk)
    (hallowed : s.disk.refuses s.disk.changes = false) {text : String}
    (hc : commitmentOfText text = .ok c) (hfresh : s.ledger.chain.standing = .fresh)
    (hstored : ∃ p, s.ledger.payloads.find? c = some p)
    (hproven : ∀ i ∈ s.ledger.chain.proven, i.natAbs < integerBound) :
    ∃ disk, (Directive.start text).run s = (.ok (),
        (s.started c).withLedger { (s.started c).ledger with world := disk }) ∧
      After dir 1 s.disk disk ∧ disk.contains (chainFile dir) = true := by
  obtain ⟨disk, hsave, hafter⟩ := hclear.saveChain c hproven
  rw [hallowed, if_neg Bool.false_ne_true] at hsave
  obtain ⟨_, _, _, _, hentry⟩ := Disk.saveJson_eq_ok OwnFile.chain.ne_nil hsave
  have hstart : onLedger (Ledger.start c) s = (.ok (), s.started c) :=
    onLedger_eq.2 ⟨_, by rw [Ledger.start, Chain.start_eq_ok.2 ⟨hfresh, hstored, rfl⟩], rfl⟩
  refine ⟨disk, ?_, hafter, Disk.contains_of_find? hentry⟩
  rw [Directive.run, Session.start, hc, Action.of_ok_bind, Session.startAt, Action.bind_ok hstart,
    Session.persistChain, Action.state_bind, show (s.started c).root = some dir from h.root]
  exact onLedger_eq.2 ⟨_, Action.on_eq.2 ⟨disk, hsave, rfl⟩, rfl⟩

/-! ## Sessions with one payload -/

/-- The commitment of a value, and how it is written. -/
structure Names (head : String) (c : Commitment) (v : Value) : Prop where
  strict : v.encodeStrict = .ok v.encode
  commits : commitmentOf v.encode = .ok c
  text : c.text = head

theorem exists_names {head : String} {v : Value} (hx : v.encodeStrict = .ok v.encode)
    (h : (commitmentOf v.encode).toOption.map Commitment.text = some head) :
    ∃ c, Names head c v := by
  obtain ⟨c, hc, htext⟩ := Option.map_eq_some_iff.1 h
  exact ⟨c, hx, toOption_eq_some.1 hc, htext⟩

theorem Names.commitment {head : String} {v : Value} (h : Names head c v) :
    v.commitment = .ok c := by
  rw [Value.commitment, h.strict]
  exact h.commits

theorem Names.commitmentOfText {head : String} {v : Value} (h : Names head c v) :
    commitmentOfText head = .ok c := by
  rw [CommitChain.commitmentOfText, ← h.text, Commitment.ofText?_text]

/-- A session whose chain stands at the only value that it has stored, with a directory that only
its disk can keep it from writing. -/
structure StandsAt (refuses : Nat → Bool) (c : Commitment) (v : Value) (s : Session) : Prop where
  used : Used ["s"] Unhindered s
  config : s.config = .default
  standing : s.ledger.chain.standing = .active c
  unproven : s.ledger.chain.proven = []
  entries : s.ledger.payloads.entries = [(c, ⟨v, v.encode⟩)]
  clear : Clear ["s"] s.disk
  refuses : s.disk.refuses = refuses

theorem StandsAt.find?_eq {refuses : Nat → Bool} {v : Value} (h : StandsAt refuses c v s)
    (k : Commitment) :
    s.ledger.payloads.find? k = if c = k then some ⟨v, v.encode⟩ else none := by
  rw [Store.find?, h.entries]
  rfl

/-- A session that commits to a value and starts there changes its disk twice. -/
theorem exists_standsAt (refuses : Nat → Bool) (hzero : refuses 0 = false)
    (hone : refuses 1 = false) {text head : String} {v : Value}
    (hv : evaluate .default text = .ok v) (hn : Names head c v)
    (hprinted : ∃ shown, printed v = .ok shown) :
    ∃ s, followAll [.commit text, .start head] (onEmptyDisk refuses) = some s ∧
      StandsAt refuses c v s ∧ s.ledger.chain.history = [] ∧ s.disk.changes = 2 ∧
      s.disk.contains (chainFile ["s"]) = true := by
  have hused := used_onEmptyDisk refuses Unhindered
  obtain ⟨_, _, hb⟩ := hused.backed
  obtain ⟨disk, count, hcommit, hafter, hcount⟩ := hb.exists_commit (clear_empty ["s"] refuses)
    hzero hv hn.strict hn.commits rfl hprinted
  obtain rfl : count = 1 := hcount rfl
  have hused₁ := Used.ran hused hcommit (unhindered_ok _)
  obtain ⟨_, _, hb₁⟩ := hused₁.backed
  have hallowed : disk.refuses disk.changes = false := by
    rw [hafter.refuses, hafter.changes]
    exact hone
  obtain ⟨disk', hstart, hafter', hthere⟩ := hb₁.exists_start hafter.clear hallowed
    hn.commitmentOfText rfl ⟨_, Store.find?_added _ rfl⟩ (List.forall_mem_nil _)
  refine ⟨_, followAll_cons.2 ⟨_, hcommit, followAll_cons.2 ⟨_, hstart, rfl⟩⟩, ?_, rfl, ?_, hthere⟩
  · exact {
      used := .ran hused₁ hstart (unhindered_ok _)
      config := rfl
      standing := rfl
      unproven := rfl
      entries := rfl
      clear := hafter'.clear
      refuses := hafter'.refuses.trans hafter.refuses }
  · exact hafter'.changes.trans (congrArg (· + 1) hafter.changes)

/-! ## Handing on -/

theorem recordable_iff {v : Value} : Chain.Recordable v ↔ v.encode.depth ≤ Json.nestingLimit ∧
    Value.suspended? "$" none v = none ∧ encodingProblem? v.encode = none := by
  rw [Chain.Recordable, Value.encodeStrict_eq_ok]
  simp only [and_true, and_assoc]

instance : DecidablePred Chain.Recordable := fun _ =>
  decidable_of_iff _ recordable_iff.symm

/-- The record of a step that hands on an output and `handingOn`. -/
def handedRecord (index : Nat) (output : Value) (frames : List Frame) : StepRecord :=
  ⟨index, ⟨handingOnHead, (output.cons identity).encode, output.encode, handingOnHead⟩,
    ⟨frames, (output.cons identity).encode⟩⟩

/-- What makes an output one that the step with a number can hand on. -/
structure Handed (index : Nat) (output : Value) (frames : List Frame) : Prop where
  pair : Chain.Recordable (output.cons identity)
  recordable : Chain.Recordable output
  evaluated : ∃ steps, Machine.evaluator Config.default.stepLimit identity [output.cons identity]
    (.str handingOnHead) = .ok ⟨⟨output.cons identity, steps⟩, frames⟩
  written : ∃ text, (handedRecord index output frames).toJson.canonical = .ok text

/-- Such a step has such a record. -/
theorem record_of_offered {chain : Chain Disk} {payloads : Payloads Disk} {output fn : Value}
    {result : Machine.TracedEvaluation} {step : Chain.Step} (hn : Names handingOnHead c identity)
    (hpair : Chain.Recordable (output.cons identity)) (houtput : Chain.Recordable output)
    (h : Chain.Offered chain payloads c (output.cons identity) fn result step)
    (hvalue : result.value = output.cons identity) (hstep : step.output = output)
    (hhead : step.newHead = c) :
    step.record = handedRecord (chain.history.length + 1) output result.frames := by
  obtain ⟨_, _, _, index, ⟨prior, input, out, new⟩, frames, value⟩ := step
  have hindex : index = chain.history.length + 1 := h.index
  have hprior : prior = handingOnHead := h.prior.trans hn.text
  have hinput : input = (output.cons identity).encode :=
    Except.ok.inj (h.inputEncoding.symm.trans hpair.1)
  have hout : out = output.encode :=
    Except.ok.inj (h.outputEncoding.symm.trans (hstep ▸ houtput.1))
  have hnew : new = handingOnHead := h.newHead.trans (hhead ▸ hn.text)
  have hframes : frames = result.frames := h.frames
  have hresult : value = (output.cons identity).encode :=
    Except.ok.inj (h.resultEncoding.symm.trans (hvalue ▸ hpair.1))
  rw [hindex, hprior, hinput, hout, hnew, hframes, hresult]
  rfl

/-- A chain that stands at `handingOn` writes the line of a step with an input that hands an output
on; whether it makes the step is up to the disk. -/
theorem StandsAt.advance {refuses : Nat → Bool} (h : StandsAt refuses c identity s)
    (hn : Names handingOnHead c identity) {output : Value} {frames : List Frame}
    (hr : Handed (s.ledger.chain.history.length + 1) output frames)
    (hallowed : refuses s.disk.changes = false) :
    ∃ disk, After ["s"] 2 s.disk disk ∧ disk.contains (stepsFile ["s"]) = true ∧
      (refuses (s.disk.changes + 1) = false → ∃ step,
        Ledger.advance c (output.cons identity) s.ledger = (.ok step, { s.ledger with
          chain := s.ledger.chain.extend
            (handedRecord (s.ledger.chain.history.length + 1) output frames) c
          world := disk })) ∧
      (refuses (s.disk.changes + 1) = true → ∃ e,
        Ledger.advance c (output.cons identity) s.ledger
          = (.error e, { s.ledger with world := disk })) := by
  obtain ⟨lines, saved, hb⟩ := h.used.backed
  have hequipped := hb.kept.equipped
  obtain ⟨steps, heval⟩ := hr.evaluated
  rw [← hn.text, ← h.config, ← hequipped.evaluator] at heval
  have hstored : s.ledger.payloads.find? c = some ⟨identity, identity.encode⟩ := by
    rw [h.find?_eq, if_pos rfl]
  obtain ⟨step, rfl, houtput, hnext, hoffered⟩ := Chain.exists_offered_of_recordable c h.standing
    rfl hn.commitment ⟨_, hstored, rfl⟩ hr.pair heval rfl hr.recordable rfl hr.pair.1
  have hrecord := record_of_offered hn hr.pair hr.recordable hoffered rfl houtput rfl
  obtain ⟨_, htext⟩ := exists_canonical_of_commitmentOf hn.commits
  have hcommit : Payloads.commit step.next (s.ledger.payloads, s.ledger.world)
      = (.ok step.newHead, s.ledger.payloads, s.ledger.world) := by
    rw [hnext]
    exact Payloads.commit_taken hn.strict hn.commits htext hstored htext _
  obtain ⟨_, hwritten⟩ := hr.written
  obtain ⟨disk, hsave, hafter, hline⟩ := h.clear.saveStep (h.refuses ▸ hallowed)
    (hrecord ▸ hwritten) hoffered.newHead (h.unproven ▸ List.forall_mem_nil _)
  rw [h.refuses] at hsave
  have hheard : Action.all (s.ledger.chain.listeners.map fun listener =>
      listener step.record s.ledger.chain.proven) s.ledger.world
        = saveStep ["s"] step.record s.ledger.chain.proven s.disk := by
    rw [hequipped.hearSteps]
    exact all_singleton _ _
  rw [hsave] at hheard
  have hadvance := Chain.advance_of_offered hoffered hcommit hheard
  refine ⟨disk, hafter, hline, fun hgranted => ⟨step, ?_⟩, fun hrefused => ?_⟩
  · have hok := hadvance.1 () (by rw [hgranted, if_neg Bool.false_ne_true])
    rw [hrecord] at hok
    exact Action.on_eq.2 ⟨_, hok, rfl⟩
  · have herror := hadvance.2 _ (by rw [hrefused, if_pos rfl])
    exact ⟨_, Action.on_eq.2 ⟨_, herror, rfl⟩⟩

/-- If the disk refuses nothing, it makes the step. -/
theorem StandsAt.chain (h : StandsAt (fun _ => false) c identity s)
    (hn : Names handingOnHead c identity) {text : String} {output : Value} {frames : List Frame}
    (hv : evaluate .default text = .ok (output.cons identity))
    (hr : Handed (s.ledger.chain.history.length + 1) output frames) :
    ∃ s', (Directive.chain handingOnHead text).run s = (.ok (), s') ∧
      StandsAt (fun _ => false) c identity s' ∧
      s'.ledger.chain.history = s.ledger.chain.history
        ++ [handedRecord (s.ledger.chain.history.length + 1) output frames] := by
  obtain ⟨disk, hafter, _, hgranted, _⟩ := h.advance hn hr rfl
  obtain ⟨step, hledger⟩ := hgranted rfl
  obtain ⟨result, hshown, _⟩ := shown_eq hledger
  have hchain : (Directive.chain handingOnHead text).run s = (.ok (), _) :=
    Action.silent_eq.2 ⟨_, (chain_of_begun hn.commitmentOfText (h.config ▸ hv)
      (.standing (by simp [h.standing]))).trans hshown, rfl⟩
  exact ⟨_, hchain, {
    used := .ran h.used hchain (unhindered_ok _)
    config := h.config
    standing := rfl
    unproven := h.unproven
    entries := h.entries
    clear := hafter.clear
    refuses := hafter.refuses.trans h.refuses }, rfl⟩

theorem exists_names_handingOn : ∃ c, Names handingOnHead c identity :=
  exists_names rfl (by decide +kernel)

theorem evaluate_handingOn : evaluate .default handingOn = .ok identity :=
  toOption_eq_some.1 (by decide +kernel : (evaluate .default handingOn).toOption = _)

theorem evaluate_handedOn_nil : evaluate .default (handedOn "nil") = .ok (.cons .nil identity) :=
  toOption_eq_some.1 (by decide +kernel : (evaluate .default (handedOn "nil")).toOption = _)

/-- The frames of the call that hands an output on, if the machine gives the argument back. -/
def handedFrames (output : Value) : Option (List Frame) :=
  match Machine.evaluator Config.default.stepLimit identity [output.cons identity]
    (.str handingOnHead) with
  | .ok result => if result.value = output.cons identity then some result.frames else none
  | .error _ => none

theorem evaluated_of_handedFrames {output : Value} {frames : List Frame}
    (h : handedFrames output = some frames) : ∃ steps,
      Machine.evaluator Config.default.stepLimit identity [output.cons identity]
        (.str handingOnHead) = .ok ⟨⟨output.cons identity, steps⟩, frames⟩ := by
  unfold handedFrames at h
  split at h
  next result heval =>
    obtain ⟨hvalue, hframes⟩ := Option.ite_none_right_eq_some.1 h
    obtain ⟨⟨value, steps⟩, frames'⟩ := result
    cases hvalue
    cases hframes
    exact ⟨steps, heval⟩
  · exact absurd h (by simp)

/-- Whether the step with a number that hands an output on has a record that can be written, and
that can be read or cannot. -/
def handsOn (legible : Bool) (output : Value) (index : Nat) : Bool :=
  (handedFrames output).any fun frames =>
    let r := handedRecord index output frames
    r.toJson.canonical.toOption.isSome && decide r.Legible == legible

theorem exists_handed {legible : Bool} {output : Value} {index : Nat}
    (hpair : Chain.Recordable (output.cons identity)) (houtput : Chain.Recordable output)
    (h : handsOn legible output index = true) :
    ∃ frames, Handed index output frames ∧
      decide (handedRecord index output frames).Legible = legible := by
  obtain ⟨frames, hframes, h⟩ := (Option.any_eq_true _ _).1 h
  obtain ⟨hwritten, hlegible⟩ := Bool.and_eq_true_iff.1 h
  obtain ⟨text, htext⟩ := Option.isSome_iff_exists.1 hwritten
  exact ⟨frames, ⟨hpair, houtput, evaluated_of_handedFrames hframes, text,
    toOption_eq_some.1 htext⟩, beq_iff_eq.1 hlegible⟩

theorem recordable_pair : Chain.Recordable (.cons .nil identity) :=
  ⟨rfl, rfl⟩

/-- Two steps whose records can be read. -/
theorem exists_legible_steps : ∃ s, Used ["s"] Unhindered s ∧
    s.ledger.chain.history.length = 2 ∧ ∀ r ∈ s.ledger.chain.history, r.Legible := by
  obtain ⟨c, hn⟩ := exists_names_handingOn
  obtain ⟨s, _, hs, hempty, _⟩ := exists_standsAt (fun _ => false) rfl rfl evaluate_handingOn hn
    ⟨_, rfl⟩
  obtain ⟨_, hfirst, hlegible⟩ := exists_handed recordable_pair Chain.recordable_nil
    (by decide +kernel : handsOn true .nil 1 = true)
  obtain ⟨_, hsecond, hlegible'⟩ := exists_handed recordable_pair Chain.recordable_nil
    (by decide +kernel : handsOn true .nil 2 = true)
  obtain ⟨s₁, _, hs₁, hone⟩ := hs.chain hn evaluate_handedOn_nil (by rw [hempty]; exact hfirst)
  obtain ⟨s₂, _, hs₂, htwo⟩ := hs₁.chain hn evaluate_handedOn_nil
    (by rw [hone, hempty]; exact hsecond)
  rw [hone, hempty] at htwo
  refine ⟨s₂, hs₂.used, by rw [htwo]; rfl, ?_⟩
  rw [htwo]
  exact List.forall_mem_cons.2
    ⟨of_decide_eq_true hlegible, List.forall_mem_singleton.2 (of_decide_eq_true hlegible')⟩

/-! ## A record that cannot be read -/

end Session

end CommitChain
