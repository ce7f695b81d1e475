import CommitChain.Proofs.Session.Live

/-!
# Steps that fail

A step that fails neither because of the disk nor because the chain is faulted leaves the chain and
its files as they were, but for one thing.  A step of a fresh chain starts the chain before it is
made, so if the first head is stored and the input can be evaluated, the chain stands at its first
head afterwards (`failed_step_leaves_chain`).
-/

namespace CommitChain

namespace Archive

variable {root : Option Path} {dir : Path} {disk disk' disk'' : Disk} {l l' : Ledger Disk}

/-! ## The files of the chain -/

/-- The files of the chain are as they were. -/
structure SameFiles (dir : Path) (disk disk' : Disk) : Prop where
  chain : disk'.find? (chainFile dir) = disk.find? (chainFile dir)
  steps : disk'.find? (stepsFile dir) = disk.find? (stepsFile dir)

theorem SameFiles.refl (dir : Path) (disk : Disk) : SameFiles dir disk disk :=
  ⟨rfl, rfl⟩

theorem SameFiles.trans (h : SameFiles dir disk disk') (h' : SameFiles dir disk' disk'') :
    SameFiles dir disk disk'' :=
  ⟨h'.chain.trans h.chain, h'.steps.trans h.steps⟩

theorem sameFiles_commit {s s' : Payloads Disk} {v : Value} {r : Except Failure Commitment}
    (h : Payloads.commit v (s, disk) = (r, s', disk')) (hl : s.listeners = [savePayload dir]) :
    SameFiles dir disk disk' := by
  rcases commit_cases h hl with ⟨_, rfl, _⟩ | ⟨x, c, _, _, _, _, hs, _, _⟩
  · exact .refl dir _
  · have hleaves := savePayload_leaves hs
    have hne : ∀ p ∈ [stepsFile dir, chainFile dir], p ∉ [commitmentFile dir c] := by
      intro p hp hm
      rw [List.mem_singleton.1 hm] at hp
      exact commitmentFile_not_mem c hp
    exact ⟨hleaves _ .chain (hne _ (by simp)), hleaves _ .steps (hne _ (by simp))⟩

/-- Saving a step that can be written fails because of the disk, or before anything is written. -/
theorem sameFiles_saveStep {r : StepRecord} {head : Commitment} {proven : List Int} {e : Failure}
    (hs : saveStep dir r proven disk = (.error e, disk')) (hhead : r.claim.newHead = head.text)
    (hproven : ∀ i ∈ proven, 1 ≤ i ∧ i < (r.index : Int)) (he : ∀ fault, e ≠ .disk fault) :
    SameFiles dir disk disk' := by
  rw [saveStep_eq hhead] at hs
  rcases Action.bind_eq_error.1 hs with hs | ⟨_, disk₁, hline, hs⟩
  · obtain ⟨⟨hb, hsteps⟩, _⟩ := Disk.appendJson_eq_error OwnFile.steps.ne_nil hs
    exact ⟨OwnFile.steps.others .chain hb (by simp [stepsFile, chainFile]), hsteps⟩
  · -- the number of the record has been written, so those of the steps before can be
    obtain ⟨bytes, hbytes, _⟩ := Disk.appendJson_eq_ok OwnFile.steps.ne_nil hline
    obtain ⟨text, htext, _⟩ := Disk.jsonLine_eq_ok.1 hbytes
    have hindex := StepRecord.index_lt_of_canonical htext
    have hbound : ∀ i ∈ proven, i.natAbs < Text.integerBound := by
      intro i hi
      obtain ⟨hlow, hhigh⟩ := hproven i hi
      omega
    obtain ⟨bytes', hbytes'⟩ := exists_jsonLine_chainJson head.text hbound
    rcases (Disk.saveJson_eq_error OwnFile.chain.ne_nil hs).2 with hnone | ⟨fault, hdisk⟩
    · exact absurd (hbytes'.symm.trans hnone) (by simp)
    · exact absurd hdisk (he fault)

/-- A step that fails leaves the chain and its files, which nothing but the directory hears of. -/
theorem Wired.unchanged (h : Wired root l) {expected : Commitment} {input : Value} {e : Failure}
    (ha : Ledger.advance expected input l = (.error e, l')) (hdisk : ∀ fault, e ≠ .disk fault)
    (hfault : ∀ fault, e ≠ .chainFaulted fault) :
    l'.chain = l.chain ∧ ∀ dir, root = some dir → SameFiles dir l.world l'.world := by
  obtain ⟨c, payloads, world, hadvance, rfl⟩ := advance_eq ha
  obtain ⟨rfl, hstopped⟩ := Chain.unchanged_of_not_faulted hadvance hfault
  refine ⟨rfl, fun dir hdir => ?_⟩
  subst hdir
  have hpayloads : l.payloads.listeners = [savePayload dir] := h.hearPayloads
  cases hstopped with
  | early => exact .refl dir l.world
  | commit _ committed _ => exact sameFiles_commit committed hpayloads
  | heard offered committed refused =>
    rcases h.hearSteps with hsteps | hsteps
    · rw [hsteps] at refused
      change Action.all [saveStep dir _ _] _ = _ at refused
      rw [all_singleton] at refused
      refine (sameFiles_commit committed hpayloads).trans ?_
      refine sameFiles_saveStep refused offered.newHead (fun i hi => ?_) hdisk
      obtain ⟨hlow, hhigh⟩ := h.marked.recorded i hi
      have hindex := offered.index
      omega
    · rw [hsteps] at refused
      exact absurd (congrArg Prod.fst refused) (by simp [Action.all, Action.done])

end Archive

/-! ## Sessions -/

namespace Session

open Archive

variable {s s' s₁ : Session} {commitment input : String} {genesis : Commitment} {e : Failure}

/-- The chain and its files are as they were. -/
structure Unmoved (s s' : Session) : Prop where
  chain : s'.ledger.chain = s.ledger.chain
  files : ∀ dir, s.root = some dir → SameFiles dir s.disk s'.disk

/-- The chain, which was fresh, stands at its first head without a step, and so its file says. -/
structure Founded (genesis : Commitment) (s s' : Session) : Prop where
  chain : s'.ledger.chain = { s.ledger.chain with standing := .active genesis }
  history : s'.ledger.chain.history = []
  proven : s'.ledger.chain.proven = []
  chainFile : ∀ dir, s.root = some dir → ∃ bytes,
    Disk.jsonLine (chainJson genesis.text []) = .ok bytes ∧
      s'.disk.find? (chainFile dir) = some (.file bytes)
  stepsFile : ∀ dir, s.root = some dir →
    s'.disk.find? (stepsFile dir) = s.disk.find? (stepsFile dir)

/-- Whether a step of a fresh chain gets so far as to start it. -/
structure Begins (s : Session) (commitment input : String) (genesis : Commitment) : Prop where
  fresh : s.ledger.chain.standing = .fresh
  named : commitmentOfText commitment = .ok genesis
  evaluated : ∃ v, evaluate s.config input = .ok v
  stored : ∃ p, s.ledger.payloads.find? genesis = some p

/-- A fresh chain that is started stands at its first head. -/
theorem founded_of_startAt (h : Heard s) (hs : startAt genesis s = (.ok (), s₁)) :
    Founded genesis s s₁ ∧ s₁.root = s.root ∧ ∃ p, s.ledger.payloads.find? genesis = some p := by
  cases starting hs with
  | begun fresh stored persisted =>
    have hhistory := h.unstarted fresh
    have hproven := h.marked.proven_eq_nil hhistory
    cases persisting persisted with
    | idle nothing =>
      refine ⟨⟨rfl, hhistory, hproven, fun dir hdir => ?_, fun dir hdir => ?_⟩, rfl, stored⟩
      · exact absurd rfl (nothing dir genesis hdir)
      · exact absurd rfl (nothing dir genesis hdir)
    | @wrote dir head _ world root standing saved =>
      obtain rfl : genesis = head := Option.some.inj standing
      obtain ⟨bytes, hbytes, hb, _, hentry⟩ := Disk.saveJson_eq_ok OwnFile.chain.ne_nil saved
      have hnumbers : (s.started genesis).ledger.chain.proven = [] := hproven
      rw [hnumbers] at hbytes
      refine ⟨⟨rfl, hhistory, hproven, fun dir' hdir => ?_, fun dir' hdir => ?_⟩, rfl, stored⟩
      · obtain rfl : dir = dir' := Option.some.inj (root.symm.trans hdir)
        exact ⟨bytes, hbytes, hentry⟩
      · obtain rfl : dir = dir' := Option.some.inj (root.symm.trans hdir)
        exact OwnFile.chain.others .steps hb (by simp [Archive.stepsFile, Archive.chainFile])

/-- Starting a chain fails because of the disk, or before anything is done. -/
theorem unstarted_of_startAt (h : Heard s)
    (hs : startAt genesis s = (.error e, s₁)) (hdisk : ∀ fault, e ≠ .disk fault) :
    s₁ = s ∧ ¬(s.ledger.chain.standing = .fresh ∧
      ∃ p, s.ledger.payloads.find? genesis = some p) := by
  cases starting hs with
  | early _ hindered => exact ⟨rfl, hindered⟩
  | begun fresh stored persisted =>
    have hproven := h.marked.proven_eq_nil (h.unstarted fresh)
    cases persisting persisted with
    | @wrote dir head _ world root standing saved =>
      have hnumbers : (s.started genesis).ledger.chain.proven = [] := hproven
      rw [hnumbers] at saved
      obtain ⟨bytes, hbytes⟩ : ∃ bytes, Disk.jsonLine (chainJson head.text []) = .ok bytes :=
        exists_jsonLine_chainJson _ fun i hi => absurd hi List.not_mem_nil
      rcases (Disk.saveJson_eq_error OwnFile.chain.ne_nil saved).2 with hline | ⟨fault, hfault⟩
      · exact absurd (hbytes.symm.trans hline) (by simp)
      · exact absurd hfault (hdisk fault)

/-- A step that fails once the chain has begun leaves the chain and its files. -/
theorem unmoved_of_begun (h : Heard s₁) {v : Value}
    (hn : commitmentOfText commitment = .ok genesis) (hv : evaluate s.config input = .ok v)
    (hb : Begun s genesis s₁) (hc : chain commitment input s = (.error e, s'))
    (hdisk : ∀ fault, e ≠ .disk fault) (hfault : ∀ fault, e ≠ .chainFaulted fault) :
    Unmoved s₁ s' := by
  rw [chain_of_begun hn hv hb] at hc
  cases ha : Ledger.advance genesis v s₁.ledger with
  | mk r l =>
    cases r with
    | ok step =>
      obtain ⟨result, hshown, _⟩ := shown_eq ha
      exact absurd (congrArg Prod.fst (hshown.symm.trans hc)) (by simp)
    | error e' =>
      have hon : onLedger (Ledger.advance genesis v) s₁ = (.error e', s₁.withLedger l) :=
        onLedger_eq.2 ⟨l, ha, rfl⟩
      rw [Action.bind_error hon] at hc
      obtain ⟨he, rfl⟩ := Prod.ext_iff.1 hc
      obtain rfl : e' = e := Except.error.inj he
      obtain ⟨hchain, hfiles⟩ := h.unchanged ha hdisk hfault
      exact ⟨hchain, hfiles⟩

theorem Founded.unmoved (h : Founded genesis s s₁) (hroot : s₁.root = s.root)
    (hu : Unmoved s₁ s') : Founded genesis s s' where
  chain := hu.chain.trans h.chain
  history := hu.chain ▸ h.history
  proven := hu.chain ▸ h.proven
  chainFile dir hdir := by
    obtain ⟨bytes, hbytes, hentry⟩ := h.chainFile dir hdir
    exact ⟨bytes, hbytes, ((hu.files dir (hroot.trans hdir)).chain).trans hentry⟩
  stepsFile dir hdir := ((hu.files dir (hroot.trans hdir)).steps).trans (h.stepsFile dir hdir)

/-- A step that fails neither because of the disk nor because the chain is faulted leaves the chain
and its files as they were, unless the chain is fresh, the commitment is that of a stored payload,
and the input can be evaluated; then the chain stands at that head without a step. -/
theorem failed_step_leaves_chain (h : Live s) (hc : chain commitment input s = (.error e, s'))
    (hdisk : ∀ fault, e ≠ .disk fault) (hfault : ∀ fault, e ≠ .chainFaulted fault) :
    ((∀ genesis, ¬Begins s commitment input genesis) → Unmoved s s') ∧
      ∀ genesis, Begins s commitment input genesis → Founded genesis s s' := by
  have hheard := h.heard
  constructor
  · intro hnot
    cases chaining hc with
    | early => exact ⟨rfl, fun dir _ => .refl dir s.disk⟩
    | unstarted _ start =>
      obtain ⟨rfl, _⟩ := unstarted_of_startAt hheard start hdisk
      exact ⟨rfl, fun dir _ => .refl dir _⟩
    | @failed expected v _ s₁ l named evaluated begun advance =>
      cases begun with
      | standing started =>
        exact unmoved_of_begun hheard named evaluated (.standing started) hc hdisk hfault
      | started fresh start =>
        obtain ⟨_, _, hstored⟩ := founded_of_startAt hheard start
        exact absurd ⟨fresh, named, ⟨v, evaluated⟩, hstored⟩ (hnot expected)
  · intro genesis hb
    obtain ⟨v, hv⟩ := hb.evaluated
    cases hs : startAt genesis s with
    | mk r s₁ =>
      cases r with
      | ok u =>
        have hbegun : Begun s genesis s₁ := .started hb.fresh hs
        obtain ⟨hfounded, hroot, _⟩ := founded_of_startAt hheard hs
        have hheard' : Heard s₁ := (keeps_startAt lasting_wired genesis).after hs hheard
        exact hfounded.unmoved hroot
          (unmoved_of_begun hheard' hb.named hv hbegun hc hdisk hfault)
      | error e' =>
        have hfails : chain commitment input s = (.error e', s₁) := by
          rw [chain, hb.named, Action.of_ok_bind, Action.state_bind, hv, Action.of_ok_bind,
            if_pos hb.fresh]
          exact Action.bind_error hs
        obtain rfl : e' = e := by
          rw [hfails] at hc
          exact Except.error.inj (congrArg Prod.fst hc)
        obtain ⟨_, hhindered⟩ := unstarted_of_startAt hheard hs hdisk
        exact absurd ⟨hb.fresh, hb.stored⟩ hhindered

/-! ## A first step that fails -/

/-- The commitment to nil, which is not a function. -/
def nilHead : String :=
  "0x00c8710e1fea46201bb9db59d73b613b6fdc5577229b1f5c2144b4d0af8e981e"

/-- Commits to nil. -/
def withNil : Option Session :=
  followAll [.commit "nil"] (onEmptyDisk fun _ => false)

/-- What a failure is reported as. -/
def reported {α : Type} : Except Failure α → Option Failure.Kind
  | .ok _ => none
  | .error e => some e.statedKind

theorem reported_eq_some {α : Type} {r : Except Failure α} {kind : Failure.Kind} :
    reported r = some kind ↔ ∃ e, r = .error e ∧ e.statedKind = kind := by
  cases r <;> simp [reported]

/-- A failure to evaluate is neither one of the disk nor a fault of the chain. -/
theorem ne_of_evaluation (h : e.statedKind = .engine .evaluation) :
    (∀ fault, e ≠ .disk fault) ∧ ∀ fault, e ≠ .chainFaulted fault := by
  constructor
  · rintro fault rfl
    cases fault <;> exact absurd h (by simp [Failure.statedKind])
  · rintro fault rfl
    exact absurd h (by simp [Failure.statedKind])

set_option maxRecDepth 100000 in
theorem withNil_eq : (withNil.map fun s =>
    let first := chain nilHead "nil" s
    let second := chain nilHead "nil" first.2
    ((decide (s.ledger.chain.standing = .fresh), s.disk.contains (chainFile ["s"])),
      (decide (first.2.ledger.chain.standing = .fresh), first.2.disk.contains (chainFile ["s"])),
      reported first.1, reported second.1))
    = some ((true, false), (false, true), some (.engine .evaluation),
      some (.engine .evaluation)) := by
  decide +kernel

/-- The chain is started by a step that cannot be made, and a second one fails like the first. -/
theorem exists_failed_first_step : ∃ s s' s'' e e', Live s ∧ s.ledger.chain.standing = .fresh ∧
    s.disk.contains (chainFile ["s"]) = false ∧ chain nilHead "nil" s = (.error e, s') ∧
    e.statedKind = .engine .evaluation ∧ s'.ledger.chain.standing ≠ .fresh ∧
    s'.disk.contains (chainFile ["s"]) = true ∧ chain nilHead "nil" s' = (.error e', s'') ∧
    e'.statedKind = .engine .evaluation := by
  obtain ⟨s, hs, hout⟩ := Option.map_eq_some_iff.1 withNil_eq
  simp only [Prod.mk.injEq, decide_eq_true_eq, decide_eq_false_iff_not] at hout
  obtain ⟨⟨hfresh, habsent⟩, ⟨hstarted, hpresent⟩, hfirst, hsecond⟩ := hout
  obtain ⟨e, he, hkind⟩ := reported_eq_some.1 hfirst
  obtain ⟨e', he', hkind'⟩ := reported_eq_some.1 hsecond
  have hused : Used ["s"] (fun _ => True) s :=
    (used_onEmptyDisk _ _).followAll trivial (show followAll _ _ = some s from hs)
  exact ⟨s, _, _, e, e', hused.live, hfresh, habsent, Prod.ext he rfl, hkind, hstarted, hpresent,
    Prod.ext he' rfl, hkind'⟩

/-- A first step that fails may leave a chain that has started, with its file. -/
theorem failed_first_step_starts_chain : ∃ s s' e, Live s ∧
    chain nilHead "nil" s = (.error e, s') ∧ (∀ fault, e ≠ .disk fault) ∧
    (∀ fault, e ≠ .chainFaulted fault) ∧ s.ledger.chain.standing = .fresh ∧
    s'.ledger.chain.standing ≠ .fresh ∧ s.disk.contains (chainFile ["s"]) = false ∧
    s'.disk.contains (chainFile ["s"]) = true := by
  obtain ⟨s, s', _, e, _, hlive, hfresh, habsent, hc, hkind, hstarted, hpresent, _⟩ :=
    exists_failed_first_step
  obtain ⟨hdisk, hfault⟩ := ne_of_evaluation hkind
  exact ⟨s, s', e, hlive, hc, hdisk, hfault, hfresh, hstarted, habsent, hpresent⟩

/-- The step founds the chain, and the second one leaves it. -/
theorem failed_step_leaves_chain_at_nil : ∃ s s' s'' e e' genesis, Live s ∧
    chain nilHead "nil" s = (.error e, s') ∧ Founded genesis s s' ∧
    chain nilHead "nil" s' = (.error e', s'') ∧ Unmoved s' s'' := by
  obtain ⟨s, s', s'', e, e', hlive, hfresh, _, hc, hkind, hstarted, _, hc', hkind'⟩ :=
    exists_failed_first_step
  obtain ⟨hdisk, hfault⟩ := ne_of_evaluation hkind
  obtain ⟨hdisk', hfault'⟩ := ne_of_evaluation hkind'
  obtain ⟨hleaves, hfounds⟩ := failed_step_leaves_chain hlive hc hdisk hfault
  have hlive' : Live s' :=
    .ran (d := .chain nilHead "nil") hlive (Action.silent_eq.2 ⟨_, hc, rfl⟩)
  obtain ⟨genesis, hb⟩ : ∃ genesis, Begins s nilHead "nil" genesis := by
    by_contra hnone
    have hunmoved := hleaves fun genesis hb => hnone ⟨genesis, hb⟩
    rw [hunmoved.chain] at hstarted
    exact hstarted hfresh
  refine ⟨s, s', s'', e, e', genesis, hlive, hc, hfounds genesis hb, hc', ?_⟩
  have hleaves' := (failed_step_leaves_chain hlive' hc' hdisk' hfault').1
  exact hleaves' fun _ hb' => hstarted hb'.fresh

end Session

end CommitChain
