import CommitChain.Proofs.Chain.Coded
import CommitChain.Proofs.Session.Live

/-!
# Sessions in memory

Nobody listens to a session without a directory, and its ledger stays sound whatever directives come
to.  So it fails with a code, if it fails, with one exception: an evaluation without a trace makes
numbers of any size, and if it stops at a fault whose wording shows one that is too long to print,
there is no wording and no code (`failsCoded_iff`).
-/

namespace CommitChain

namespace Session

/-! ## Ledgers that nobody listens to -/

/-- The ledger of a session without a directory: sound, with regular values, evaluated by the
machine, and without listeners. -/
structure Quiet (root : Option Path) (l : Ledger Disk) : Prop where
  root : root = none
  sound : l.Sound
  regular : ∀ e ∈ l.payloads.entries, e.2.value.Regular
  evaluator : ∃ limit, l.chain.evaluator = Machine.evaluator limit
  payloads : l.payloads.listeners = []
  steps : l.chain.listeners = []

variable {root : Option Path} {l l' : Ledger Disk}

theorem keeps_quiet_commit {v : Value} (hv : v.Regular) :
    Action.Keeps (Quiet root) (Ledger.commit v) := by
  intro l h
  exact {
    root := h.root
    sound := Ledger.keeps_sound_commit v l h.sound
    regular := Payloads.keeps_regular_commit hv (l.payloads, l.world) h.regular
    evaluator := h.evaluator
    payloads := Payloads.keeps_listeners_commit v [] (l.payloads, l.world) h.payloads
    steps := h.steps }

theorem keeps_quiet_start (genesis : Commitment) :
    Action.Keeps (Quiet root) (Ledger.start genesis) := by
  intro l h
  have hsound := Ledger.keeps_sound_start genesis l h.sound
  unfold Ledger.start at hsound ⊢
  split at hsound
  next c hc =>
    obtain ⟨_, _, rfl⟩ := Chain.start_eq_ok.1 hc
    exact ⟨h.root, hsound, h.regular, h.evaluator, h.payloads, h.steps⟩
  next => exact h

theorem keeps_quiet_advance (expected : Commitment) {v : Value} (hv : v.Regular) :
    Action.Keeps (Quiet root) (Ledger.advance expected v) := by
  intro l h
  have hsound := Ledger.keeps_sound_advance expected v l h.sound
  obtain ⟨limit, hlimit⟩ := h.evaluator
  cases ha : Ledger.advance expected v l with
  | mk r l' =>
    rw [ha] at hsound
    obtain ⟨c, payloads, world, hadvance, rfl⟩ := Archive.advance_eq ha
    have after : ∀ {P : Payloads Disk → Prop}, (∀ v : Value, v.Regular →
        Action.Keeps (fun s : Payloads Disk × Disk => P s.1) (Payloads.commit v)) →
          P l.payloads → P payloads :=
      fun hP => Chain.payloads_after_advance hP h.sound.chain hlimit h.regular hv hadvance
    have hregular : ∀ e ∈ payloads.entries, e.2.value.Regular :=
      after (P := fun s => ∀ e ∈ s.entries, e.2.value.Regular)
        (fun _ => Payloads.keeps_regular_commit) h.regular
    have hpayloads : payloads.listeners = [] :=
      after (P := fun s => s.listeners = [])
        (fun v _ => Payloads.keeps_listeners_commit v []) h.payloads
    cases r with
    | ok step =>
      obtain ⟨fn, result, hc, _⟩ := Chain.advance_eq_ok hadvance
      obtain rfl : c = l.chain.extend step.record step.newHead := hc
      exact ⟨h.root, hsound, hregular, ⟨limit, hlimit⟩, hpayloads, h.steps⟩
    | error e =>
      obtain ⟨rfl, _⟩ := h.sound.chain.unchanged hadvance
      exact ⟨h.root, hsound, hregular, ⟨limit, hlimit⟩, hpayloads, h.steps⟩

theorem lasting_quiet (root : Option Path) : Lasting (Quiet root) where
  commit _ hv := keeps_quiet_commit hv
  start := keeps_quiet_start
  advance expected _ hv := keeps_quiet_advance expected hv
  putProof _ _ _ h :=
    ⟨h.root, ⟨h.sound.payloads, h.sound.chain⟩, h.regular, h.evaluator, h.payloads, h.steps⟩
  markProven _ r h _ :=
    ⟨h.root, h.sound.markProven r.index, h.regular, h.evaluator, h.payloads, h.steps⟩
  world _ _ h :=
    ⟨h.root, ⟨h.sound.payloads, h.sound.chain⟩, h.regular, h.evaluator, h.payloads, h.steps⟩

/-! ## Sessions in memory -/

/-- A session that was opened without a directory and has followed directives and other calls with
any outcomes.  A client adds no listener, evaluates on the machine, and commits to regular values,
as all are that the reader, the decoder and the machine make. -/
inductive InMemory : Session → Prop
  | made {config : Config} {disk : Disk} {s : Session} (make : make config none disk = .ok s) :
      InMemory s
  | ran {s s' : Session} {d : Directive} {r : Except Failure Unit} (before : InMemory s)
      (run : d.run s = (r, s')) : InMemory s'
  | next {s : Session} {l : Ledger Disk} (before : InMemory s) (next : Ledger.Next s.ledger l)
      (regular : ∀ e ∈ l.payloads.entries, e.2.value.Regular)
      (evaluator : ∃ limit, l.chain.evaluator = Machine.evaluator limit)
      (payloads : l.payloads.listeners = []) (steps : l.chain.listeners = []) :
      InMemory (s.withLedger l)

theorem exists_inMemory (config : Config) : ∃ s, InMemory s ∧ s.config = config :=
  ⟨_, .made (show make config none .empty = .ok _ from rfl), rfl⟩

variable {s : Session}

theorem InMemory.quiet (h : InMemory s) : Quiet s.root s.ledger := by
  induction h with
  | made make =>
    cases make
    exact {
      root := rfl
      sound := Ledger.sound_fresh _ _
      regular := fun e he => absurd he List.not_mem_nil
      evaluator := ⟨_, rfl⟩
      payloads := rfl
      steps := rfl }
  | ran _ run ih => exact (keeps_run lasting_quiet _).after run ih
  | next _ next regular evaluator payloads steps ih =>
    exact ⟨ih.root, next.sound ih.sound, regular, evaluator, payloads, steps⟩

/-! ## Evaluations -/

/-- The evaluation of an expression stops at a fault that shows a value with a number too long to
print. -/
def Unprintable (config : Config) (text : String) : Prop :=
  ∃ fault v, evaluate config text = .error (.evaluation fault) ∧ fault.shown? = some v ∧
    v.print? = none

variable {config : Config} {text : String}

theorem evaluate_eq_error {f : Failure} (h : evaluate config text = .error f) :
    (∃ fault, f = .read fault) ∨ ∃ fault, f = .evaluation fault := by
  rcases bind_eq_error.1 h with h | ⟨expr, _, h⟩
  · cases hr : Value.read text with
    | ok expr => rw [hr] at h; cases h
    | error fault => rw [hr] at h; cases h; exact .inl ⟨fault, rfl⟩
  · rcases bind_eq_error.1 h with h | ⟨_, _, h⟩
    · cases hr : Machine.evaluate config.stepLimit expr .empty with
      | ok r => rw [hr] at h; cases h
      | error fault => rw [hr] at h; cases h; exact .inr ⟨fault, rfl⟩
    · cases h

/-- An evaluation that fails has a code unless it cannot print what it shows. -/
theorem coded_iff_of_evaluate {f : Failure} (h : evaluate config text = .error f) :
    f.Coded ↔ ¬Unprintable config text := by
  rcases evaluate_eq_error h with ⟨fault, rfl⟩ | ⟨fault, rfl⟩
  · refine iff_of_true ⟨.read, rfl⟩ ?_
    rintro ⟨_, _, h', _⟩
    exact absurd (h.symm.trans h') (by simp)
  · rw [Failure.coded_iff rfl]
    show fault.message?.isSome ↔ _
    rw [Machine.Fault.message?_isSome_iff]
    constructor
    · rintro hall ⟨_, v, h', hv, hnone⟩
      cases h.symm.trans h'
      exact absurd (hall v hv) (by simp [hnone])
    · intro hnot v hv
      rw [Option.isSome_iff_ne_none]
      exact fun hnone => hnot ⟨fault, v, h, hv, hnone⟩

/-- A fault without a wording is a failure about the number, and without a code. -/
theorem Unprintable.exists_failure (h : Unprintable config text) :
    ∃ f, evaluate config text = .error f ∧ f.kind = .value := by
  obtain ⟨fault, v, he, hv, hnone⟩ := h
  refine ⟨_, he, ?_⟩
  have hmessage : ¬fault.message?.isSome := fun hsome =>
    absurd (Machine.Fault.message?_isSome_iff.1 hsome v hv) (by simp [hnone])
  exact if_neg hmessage

/-! ## Directives -/

theorem commit_of_evaluate_error {f : Failure} (h : evaluate s.config text = .error f) :
    commit text s = (.error f, s) := by
  rw [commit, Action.state_bind, h, Action.of_error_bind]

theorem chain_of_evaluate_error {commitment : String} {expected : Commitment}
    (he : commitmentOfText commitment = .ok expected) {f : Failure}
    (h : evaluate s.config text = .error f) : chain commitment text s = (.error f, s) := by
  rw [chain, he, Action.of_ok_bind, Action.state_bind, h, Action.of_error_bind]

theorem failsCoded_printed {v : Value} (h : v.encode.Writable) : FailsCoded (printed v) := by
  obtain ⟨text, htext⟩ := Option.isSome_iff_exists.1 (Value.render_isSome false v h)
  rw [printed, Value.print?, htext]
  exact failsCoded_ok text

theorem Quiet.failsCoded_commit (h : Quiet s.root s.ledger) {v : Value}
    (hv : evaluate s.config text = .ok v) : FailsCoded (commit text s).1 := by
  rw [commit, Action.state_bind, hv, Action.of_ok_bind]
  refine Action.failsCoded_bind (failsCoded_serialization _) fun c _ h' => ?_
  obtain ⟨hc, rfl⟩ := Action.of_eq.1 h'
  refine Action.failsCoded_bind (x := onLedger _) ?_ fun _ s' _ => ?_
  · exact Payloads.failsCoded_commit h.sound.payloads h.payloads v s.ledger.world
  · have hw := Value.writable_of_commitment (orFail_eq_ok.1 hc)
    exact Action.failsCoded_bind (failsCoded_printed hw) fun _ _ _ => failsCoded_ok _

theorem failsCoded_start (l : Ledger Disk) (genesis : Commitment) :
    FailsCoded (Ledger.start genesis l).1 := by
  unfold Ledger.start
  split
  · exact failsCoded_ok ()
  next he => exact failsCoded_error.2 (Chain.failsCoded_start _ genesis _ he)

theorem Quiet.failsCoded_startAt (h : Quiet s.root s.ledger) (genesis : Commitment) :
    FailsCoded (startAt genesis s).1 := by
  refine Action.failsCoded_bind (failsCoded_start s.ledger genesis) fun _ s' hs' => ?_
  obtain ⟨l, _, rfl⟩ := onLedger_eq.1 hs'
  cases hp : persistChain (s.withLedger l) with
  | mk r t =>
    cases persisting hp with
    | idle => exact failsCoded_ok ()
    | wrote root => exact absurd (h.root.symm.trans root) (by simp)

theorem Quiet.failsCoded_advance (h : Quiet s.root s.ledger) (expected : Commitment) {v : Value}
    (hv : v.Regular) : FailsCoded ((onLedger (Ledger.advance expected v) >>= shown) s).1 := by
  obtain ⟨limit, hlimit⟩ := h.evaluator
  refine Action.failsCoded_bind (x := onLedger _) ?_ fun step s' hs' => ?_
  · exact Chain.failsCoded_advance hlimit h.steps h.sound.payloads h.payloads h.regular hv _
  · obtain ⟨l, hl, rfl⟩ := onLedger_eq.1 hs'
    obtain ⟨result, hshown, _⟩ := shown_eq hl
    rw [Action.bind_ok hs'] at hshown
    rw [hshown]
    exact failsCoded_ok result

theorem Quiet.failsCoded_chain (h : Quiet s.root s.ledger) {commitment : String}
    {expected : Commitment} (he : commitmentOfText commitment = .ok expected) {v : Value}
    (hv : evaluate s.config text = .ok v) : FailsCoded (chain commitment text s).1 := by
  have hregular := regular_of_evaluate hv
  by_cases hfresh : s.ledger.chain.standing = .fresh
  · rw [chain, he, Action.of_ok_bind, Action.state_bind, hv, Action.of_ok_bind, if_pos hfresh]
    refine Action.failsCoded_bind (h.failsCoded_startAt expected) fun _ s₁ hs₁ => ?_
    have hquiet : Quiet s₁.root s₁.ledger := (keeps_startAt lasting_quiet expected).after hs₁ h
    exact hquiet.failsCoded_advance expected hregular
  · rw [chain_of_begun he hv (.standing hfresh)]
    exact h.failsCoded_advance expected hregular

/-- Committing, and making a step under the text of a commitment, fail with a code or not at all in
a session in memory, unless the expression stops at a fault that shows a number too long to print.
In that case they fail about that number, and nothing is done. -/
theorem failsCoded_iff (h : InMemory s) (text : String) :
    (FailsCoded (commit text s).1 ↔ ¬Unprintable s.config text) ∧
    (∀ commitment, (∃ expected, commitmentOfText commitment = .ok expected) →
      (FailsCoded (chain commitment text s).1 ↔ ¬Unprintable s.config text)) ∧
    (Unprintable s.config text → ∃ f, f.kind = .value ∧ commit text s = (.error f, s) ∧
      ∀ commitment, (∃ expected, commitmentOfText commitment = .ok expected) →
        chain commitment text s = (.error f, s)) := by
  have evaluated : ∀ {v : Value}, evaluate s.config text = .ok v →
      ¬Unprintable s.config text := by
    rintro v hv ⟨_, _, hf, _⟩
    exact absurd (hv.symm.trans hf) (by simp)
  refine ⟨?_, ?_, ?_⟩
  · cases hv : evaluate s.config text with
    | ok v => exact iff_of_true (h.quiet.failsCoded_commit hv) (evaluated hv)
    | error f =>
      rw [commit_of_evaluate_error hv, failsCoded_error]
      exact coded_iff_of_evaluate hv
  · rintro commitment ⟨expected, he⟩
    cases hv : evaluate s.config text with
    | ok v => exact iff_of_true (h.quiet.failsCoded_chain he hv) (evaluated hv)
    | error f =>
      rw [chain_of_evaluate_error he hv, failsCoded_error]
      exact coded_iff_of_evaluate hv
  · intro hu
    obtain ⟨f, hf, hkind⟩ := hu.exists_failure
    exact ⟨f, hkind, commit_of_evaluate_error hf, fun _ ⟨_, he⟩ => chain_of_evaluate_error he hf⟩

/-- A number that is taken for a pair is a failure with a code. -/
theorem failsCoded_car_number : ∃ s, InMemory s ∧ ¬Unprintable s.config "(car 1)" ∧
    FailsCoded (commit "(car 1)" s).1 ∧
    ∀ c : Commitment, FailsCoded (chain c.text "(car 1)" s).1 := by
  obtain ⟨s, hs, hconfig⟩ := exists_inMemory .default
  have hfault : evaluate .default "(car 1)" = .error (.evaluation (.notPair .car (.num 1))) := by
    rfl
  have hprints : ¬Unprintable s.config "(car 1)" := by
    rw [hconfig]
    exact (coded_iff_of_evaluate hfault).1 ⟨.evaluation, by decide +kernel⟩
  obtain ⟨hcommit, hchain, _⟩ := failsCoded_iff hs "(car 1)"
  refine ⟨s, hs, hprints, hcommit.2 hprints, fun c => (hchain c.text ⟨c, ?_⟩).2 hprints⟩
  rw [commitmentOfText, Commitment.ofText?_text]

/-! ## A number too long to print -/

/-- Squares a number nine times, and takes it for a pair. -/
def carOfSquares : String :=
  "(let ((a 10000000000) (b (* a a)) (c (* b b)) (d (* c c)) (e (* d d)) (f (* e e)) " ++
    "(g (* f f)) (h (* g g)) (i (* h h)) (j (* i i))) (car j))"

set_option maxRecDepth 100000 in
theorem fault_carOfSquares : (match evaluate .default carOfSquares with
    | .error (.evaluation (.notPair .car v)) => v.print?.isNone
    | _ => false) = true := by
  decide +kernel

theorem unprintable_carOfSquares : Unprintable .default carOfSquares := by
  have h := fault_carOfSquares
  split at h
  next v he => exact ⟨_, v, he, rfl, Option.isNone_iff_eq_none.1 h⟩
  next => cases h

/-- Directives of a session in memory may fail without a code. -/
theorem not_forall_failsCoded : ¬∀ s, InMemory s → ∀ text, FailsCoded (commit text s).1 ∧
    ∀ commitment, (∃ expected, commitmentOfText commitment = .ok expected) →
      FailsCoded (chain commitment text s).1 := by
  intro hall
  obtain ⟨s, hs, hconfig⟩ := exists_inMemory .default
  have hlong : Unprintable s.config carOfSquares := hconfig ▸ unprintable_carOfSquares
  obtain ⟨f, hf, hkind⟩ := hlong.exists_failure
  have hcoded := (hall s hs carOfSquares).1
  rw [commit_of_evaluate_error hf, failsCoded_error] at hcoded
  obtain ⟨sort, hsort⟩ := hcoded
  exact absurd (hkind.symm.trans hsort) (by simp)

end Session

end CommitChain
