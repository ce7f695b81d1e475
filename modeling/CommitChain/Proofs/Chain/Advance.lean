import CommitChain.Proofs.Chain.Linked
import CommitChain.Proofs.Commitment

/-!
# Steps of a chain

What a step that succeeds was made of (`Advanced`), and what one that fails did before (`Stopped`).
-/

namespace CommitChain.Chain

variable {ω : Type} {c : Chain ω} {payloads : Payloads ω} {world : ω} {expected : Commitment}
  {input : Value}

/-! ## The function of the head -/

/-- The function of the head was found: it hashes to the head, which is the expected one. -/
theorem headFunction_eq_ok {fn : Value} {s : Chain ω × Payloads ω × ω}
    (h : headFunction expected (c, payloads, world) = (.ok fn, s)) :
    s = (c, payloads, world) ∧ c.standing = .active expected ∧ fn.isFunction = true ∧
      fn.commitment = .ok expected ∧ ∃ p, payloads.find? expected = some p ∧ p.value = fn := by
  simp only [headFunction] at h
  split at h
  · cases h
  · cases h
  next head hs =>
    split at h
    · cases h
    next he =>
      split at h
      · cases h
      next p hp =>
        split at h
        · cases h
        next actual ha =>
          split at h
          · cases h
          next hh =>
            split at h
            next hf =>
              cases h
              obtain rfl := not_not.1 he
              obtain rfl := not_not.1 hh
              exact ⟨rfl, hs, hf, ha, p, Payloads.fetch_eq_ok.1 hp, rfl⟩
            · cases h

theorem headFunction_of_stored {fn : Value} (hs : c.standing = .active expected)
    (hfunction : fn.isFunction = true) (hcommitment : fn.commitment = .ok expected)
    (hstored : ∃ q, payloads.find? expected = some q ∧ q.value = fn) :
    headFunction expected (c, payloads, world) = (.ok fn, c, payloads, world) := by
  obtain ⟨q, hq, hvalue⟩ := hstored
  simp only [headFunction, hs, Payloads.fetch, hq, hvalue, hcommitment, hfunction, ne_eq,
    not_true_eq_false, if_false, if_true]

/-- The function of the head was not found: nothing has changed, or the payload of the head does not
hash to it and the chain is faulted. -/
theorem headFunction_eq_error {e : Failure} {s : Chain ω × Payloads ω × ω}
    (h : headFunction expected (c, payloads, world) = (.error e, s)) :
    s = (c, payloads, world) ∨
      ∃ head p actual, c.standing = .active head ∧ payloads.find? head = some p ∧
        p.value.commitment = .ok actual ∧ actual ≠ head ∧
        s = ({ c with standing := .faulted head }, payloads, world) := by
  simp only [headFunction] at h
  split at h
  · cases h
    exact .inl rfl
  · cases h
    exact .inl rfl
  next head hs =>
    split at h
    · cases h
      exact .inl rfl
    · split at h
      · cases h
        exact .inl rfl
      next p hp =>
        split at h
        · cases h
          exact .inl rfl
        next actual ha =>
          split at h
          next hh =>
            cases h
            exact .inr ⟨head, p, actual, hs, Payloads.fetch_eq_ok.1 hp, ha, hh, rfl⟩
          · split at h
            · cases h
            · cases h
              exact .inl rfl

/-! ## Steps -/

/-- The chain with one more record and its new head. -/
def extend (c : Chain ω) (r : StepRecord) (newHead : Commitment) : Chain ω :=
  { c with history := c.history ++ [r], standing := .active newHead }

/-- What a step computed: the function `fn` of the head gave an output and the next function. -/
structure Produced (c : Chain ω) (payloads : Payloads ω) (expected : Commitment)
    (input fn : Value) (result : Machine.TracedEvaluation) (output next : Value) : Prop where
  standing : c.standing = .active expected
  isFunction : fn.isFunction = true
  commitment : fn.commitment = .ok expected
  stored : ∃ p, payloads.find? expected = some p ∧ p.value = fn
  evaluated : c.evaluator fn [input] (.str expected.text) = .ok result
  split : splitResult result.value = .ok (output, next)

/-- The record that a step made of what it computed. -/
structure Offered (c : Chain ω) (payloads : Payloads ω) (expected : Commitment)
    (input fn : Value) (result : Machine.TracedEvaluation) (step : Step) : Prop extends
    Produced c payloads expected input fn result step.output step.next where
  inputEncoding : input.encodeStrict = .ok step.record.claim.input
  outputEncoding : step.output.encodeStrict = .ok step.record.claim.output
  resultEncoding : result.value.encodeStrict = .ok step.record.trace.result
  index : step.record.index = c.history.length + 1
  prior : step.record.claim.prior = expected.text
  newHead : step.record.claim.newHead = step.newHead.text
  frames : step.record.trace.frames = result.frames
  checked : recordIssues step.record = []

/-- A step that succeeded: the next function is committed, and every listener accepted the
record. -/
structure Advanced (c : Chain ω) (payloads : Payloads ω) (world : ω) (expected : Commitment)
    (input fn : Value) (result : Machine.TracedEvaluation) (step : Step) (payloads' : Payloads ω)
    (world' : ω) : Prop extends Offered c payloads expected input fn result step where
  committed : ∃ world₁, Payloads.commit step.next (payloads, world)
      = (.ok step.newHead, payloads', world₁) ∧
    Action.all (c.listeners.map fun listener => listener step.record c.proven) world₁
      = (.ok (), world')

/-- What a step that failed with `e` did before: nothing that lasts, or it committed to the next
function, and then perhaps a listener refused the record. -/
inductive Stopped (c : Chain ω) (payloads : Payloads ω) (world : ω) (expected : Commitment)
    (input : Value) (e : Failure) : Payloads ω → ω → Prop
  | early : Stopped c payloads world expected input e payloads world
  | commit {fn : Value} {result : Machine.TracedEvaluation} {output next : Value}
      {r : Except Failure Commitment} {payloads' : Payloads ω} {world' : ω}
      (produced : Produced c payloads expected input fn result output next)
      (committed : Payloads.commit next (payloads, world) = (r, payloads', world'))
      (outcome : ∀ e', r = .error e' → e' = e) :
      Stopped c payloads world expected input e payloads' world'
  | heard {fn : Value} {result : Machine.TracedEvaluation} {step : Step} {payloads' : Payloads ω}
      {world₁ world' : ω}
      (offered : Offered c payloads expected input fn result step)
      (committed : Payloads.commit step.next (payloads, world)
        = (.ok step.newHead, payloads', world₁))
      (refused : Action.all (c.listeners.map fun listener => listener step.record c.proven) world₁
        = (.error e, world')) :
      Stopped c payloads world expected input e payloads' world'

theorem advance_eq_ok {step : Step} {s : Chain ω × Payloads ω × ω}
    (h : advance expected input (c, payloads, world) = (.ok step, s)) :
    ∃ fn result, s.1 = c.extend step.record step.newHead ∧
      Advanced c payloads world expected input fn result step s.2.1 s.2.2 := by
  unfold advance at h
  obtain ⟨fn, s₁, hfn, h⟩ := Action.bind_eq_ok.1 h
  obtain ⟨rfl, hs, hf, hc, hstored⟩ := headFunction_eq_ok hfn
  obtain ⟨_, _, hstate, h⟩ := Action.bind_eq_ok.1 h
  obtain ⟨rfl, rfl⟩ := Action.state_eq_ok.1 hstate
  obtain ⟨inputEncoding, _, h₁, h⟩ := Action.bind_eq_ok.1 h
  obtain ⟨hi, rfl⟩ := Action.of_eq.1 h₁
  obtain ⟨result, _, h₁, h⟩ := Action.bind_eq_ok.1 h
  obtain ⟨hr, rfl⟩ := Action.of_eq.1 h₁
  obtain ⟨⟨output, next⟩, _, h₁, h⟩ := Action.bind_eq_ok.1 h
  obtain ⟨hsplit, rfl⟩ := Action.of_eq.1 h₁
  obtain ⟨outputEncoding, _, h₁, h⟩ := Action.bind_eq_ok.1 h
  obtain ⟨ho, rfl⟩ := Action.of_eq.1 h₁
  obtain ⟨resultEncoding, _, h₁, h⟩ := Action.bind_eq_ok.1 h
  obtain ⟨hre, rfl⟩ := Action.of_eq.1 h₁
  obtain ⟨newHead, _, h₁, h⟩ := Action.bind_eq_ok.1 h
  obtain ⟨t, hcommit, rfl⟩ := Action.on_eq.1 h₁
  split at h
  next hissues =>
    obtain ⟨_, _, h₁, h⟩ := Action.bind_eq_ok.1 h
    obtain ⟨world', hl, rfl⟩ := Action.on_eq.1 h₁
    obtain ⟨_, _, hu, h⟩ := Action.bind_eq_ok.1 h
    obtain ⟨_, rfl⟩ := Prod.ext_iff.1 hu
    obtain ⟨rfl, rfl⟩ := Action.pure_eq_ok.1 h
    exact ⟨fn, result, rfl, {
      standing := hs
      isFunction := hf
      commitment := hc
      stored := hstored
      evaluated := hr
      split := hsplit
      inputEncoding := orFail_eq_ok.1 hi
      outputEncoding := orFail_eq_ok.1 ho
      resultEncoding := orFail_eq_ok.1 hre
      index := rfl
      prior := rfl
      newHead := rfl
      frames := rfl
      checked := List.isEmpty_iff.1 hissues
      committed := ⟨t.2, hcommit, hl⟩ }⟩
  · exact absurd (congrArg Prod.fst h) (by simp [Action.fail])

/-- A step that fails leaves the chain as it was, but for a head whose payload does not hash to
it. -/
theorem advance_eq_error {e : Failure} {s : Chain ω × Payloads ω × ω}
    (h : advance expected input (c, payloads, world) = (.error e, s)) :
    (∃ head p actual, c.standing = .active head ∧ payloads.find? head = some p ∧
        p.value.commitment = .ok actual ∧ actual ≠ head ∧
        s = ({ c with standing := .faulted head }, payloads, world)) ∨
      s.1 = c ∧ Stopped c payloads world expected input e s.2.1 s.2.2 := by
  unfold advance at h
  rcases Action.bind_eq_error.1 h with hfn | ⟨fn, s₁, hfn, h⟩
  · refine (headFunction_eq_error hfn).symm.imp_right fun hs => ?_
    rw [hs]
    exact ⟨rfl, .early⟩
  obtain ⟨rfl, hs, hf, hc, hstored⟩ := headFunction_eq_ok hfn
  rcases Action.bind_eq_error.1 h with h | ⟨_, _, hstate, h⟩
  · exact absurd (congrArg Prod.fst h) (by simp [Action.state])
  obtain ⟨rfl, rfl⟩ := Action.state_eq_ok.1 hstate
  right
  have stopped : ∀ {α : Type} {r : Except Failure α},
      Action.of r (c, payloads, world) = (.error e, s) →
        s.1 = c ∧ Stopped c payloads world expected input e s.2.1 s.2.2 := by
    intro α r h
    obtain ⟨_, rfl⟩ := Action.of_eq.1 h
    exact ⟨rfl, .early⟩
  rcases Action.bind_eq_error.1 h with h | ⟨inputEncoding, _, h₁, h⟩
  · exact stopped h
  obtain ⟨hi, rfl⟩ := Action.of_eq.1 h₁
  rcases Action.bind_eq_error.1 h with h | ⟨result, _, h₁, h⟩
  · exact stopped h
  obtain ⟨hr, rfl⟩ := Action.of_eq.1 h₁
  rcases Action.bind_eq_error.1 h with h | ⟨⟨output, next⟩, _, h₁, h⟩
  · exact stopped h
  obtain ⟨hsplit, rfl⟩ := Action.of_eq.1 h₁
  rcases Action.bind_eq_error.1 h with h | ⟨outputEncoding, _, h₁, h⟩
  · exact stopped h
  obtain ⟨ho, rfl⟩ := Action.of_eq.1 h₁
  rcases Action.bind_eq_error.1 h with h | ⟨resultEncoding, _, h₁, h⟩
  · exact stopped h
  obtain ⟨hre, rfl⟩ := Action.of_eq.1 h₁
  have produced : Produced c payloads expected input fn result output next :=
    ⟨hs, hf, hc, hstored, hr, hsplit⟩
  rcases Action.bind_eq_error.1 h with h | ⟨newHead, _, h₁, h⟩
  · obtain ⟨t, hcommit, rfl⟩ := Action.on_eq.1 h
    exact ⟨rfl, .commit produced hcommit fun _ he => (Except.error.inj he).symm⟩
  obtain ⟨t, hcommit, rfl⟩ := Action.on_eq.1 h₁
  split at h
  next hissues =>
    rcases Action.bind_eq_error.1 h with h | ⟨_, _, _, h⟩
    · obtain ⟨world', hl, rfl⟩ := Action.on_eq.1 h
      have offered : Offered c payloads expected input fn result ⟨output, next, newHead,
          ⟨c.history.length + 1, ⟨expected.text, inputEncoding, outputEncoding, newHead.text⟩,
            ⟨result.frames, resultEncoding⟩⟩⟩ := {
        toProduced := produced
        inputEncoding := orFail_eq_ok.1 hi
        outputEncoding := orFail_eq_ok.1 ho
        resultEncoding := orFail_eq_ok.1 hre
        index := rfl
        prior := rfl
        newHead := rfl
        frames := rfl
        checked := List.isEmpty_iff.1 hissues }
      exact ⟨rfl, .heard offered hcommit hl⟩
    · rcases Action.bind_eq_error.1 h with h | ⟨_, _, _, h⟩
      · exact absurd (congrArg Prod.fst h) (by simp [Action.update])
      · exact absurd h Action.pure_ne_error
  · obtain ⟨_, rfl⟩ := Prod.ext_iff.1 h
    exact ⟨rfl, .commit produced hcommit fun _ he => absurd he (by simp)⟩

/-- Any other commitment than the head is refused. -/
theorem advance_of_mismatch {head : Commitment} (hs : c.standing = .active head)
    (hne : expected ≠ head) (input : Value) :
    advance expected input (c, payloads, world)
      = (.error (.headMismatch expected head), c, payloads, world) := by
  have hfn : headFunction expected (c, payloads, world)
      = (.error (.headMismatch expected head), c, payloads, world) := by
    simp only [headFunction, hs]
    exact if_pos hne
  rw [advance, Action.bind_error hfn]

/-- A step that fails without finding a fault in the chain leaves the chain as it was. -/
theorem unchanged_of_not_faulted {e : Failure} {s : Chain ω × Payloads ω × ω}
    (h : advance expected input (c, payloads, world) = (.error e, s))
    (he : ∀ fault, e ≠ .chainFaulted fault) :
    s.1 = c ∧ Stopped c payloads world expected input e s.2.1 s.2.2 := by
  rcases advance_eq_error h with ⟨head, p, actual, hs, hp, ha, hne, rfl⟩ | hstopped
  · by_cases hexpected : expected = head
    · have hfn : headFunction expected (c, payloads, world)
          = (.error (.chainFaulted (.payloadMismatch head)),
            { c with standing := .faulted head }, payloads, world) := by
        simp only [headFunction, hs, Payloads.fetch, hp, ha, hexpected, ne_eq, not_true_eq_false,
          if_false, hne, not_false_eq_true, if_true]
      rw [advance, Action.bind_error hfn] at h
      exact absurd (Except.error.inj (congrArg Prod.fst h)).symm (he _)
    · rw [advance_of_mismatch hs hexpected] at h
      have hstanding : c.standing = .faulted head :=
        congrArg (fun out => out.2.1.standing) h
      exact absurd (hs.symm.trans hstanding) (by simp)
  · exact hstopped

/-- The record of a step in its parts. -/
theorem Offered.record_eq {fn : Value} {result : Machine.TracedEvaluation} {step : Step}
    (h : Offered c payloads expected input fn result step) :
    (⟨c.history.length + 1, ⟨expected.text, step.record.claim.input, step.record.claim.output,
      step.newHead.text⟩, ⟨result.frames, step.record.trace.result⟩⟩ : StepRecord)
      = step.record := by
  rw [← h.index, ← h.prior, ← h.newHead, ← h.frames]

/-- A record that was offered comes to a step if the listeners accept it. -/
theorem advance_of_offered {fn : Value} {result : Machine.TracedEvaluation} {step : Step}
    {payloads' : Payloads ω} {world₁ world' : ω} {r : Except Failure Unit}
    (h : Offered c payloads expected input fn result step)
    (hc : Payloads.commit step.next (payloads, world) = (.ok step.newHead, payloads', world₁))
    (hl : Action.all (c.listeners.map fun listener => listener step.record c.proven) world₁
      = (r, world')) :
    (∀ u, r = .ok u → advance expected input (c, payloads, world)
        = (.ok step, c.extend step.record step.newHead, payloads', world')) ∧
      ∀ e, r = .error e →
        advance expected input (c, payloads, world) = (.error e, c, payloads', world') := by
  have hfn : headFunction expected (c, payloads, world) = (.ok fn, c, payloads, world) :=
    headFunction_of_stored h.standing h.isFunction h.commitment h.stored
  have hcommit : Action.on Prod.snd (fun (s : Chain ω × Payloads ω × ω) t => (s.1, t))
      (Payloads.commit step.next) (c, payloads, world)
        = (.ok step.newHead, c, payloads', world₁) :=
    Action.on_eq.2 ⟨(payloads', world₁), hc, rfl⟩
  have hlisteners : Action.on (fun s : Chain ω × Payloads ω × ω => s.2.2)
      (fun s w => (s.1, s.2.1, w))
      (Action.all (c.listeners.map fun listener => listener step.record c.proven))
      (c, payloads', world₁) = (r, c, payloads', world') :=
    Action.on_eq.2 ⟨world', hl, rfl⟩
  rw [advance, Action.bind_ok hfn, Action.state_bind, h.inputEncoding]
  dsimp only
  rw [orFail, Action.of_ok_bind, h.evaluated, Action.of_ok_bind, h.split, Action.of_ok_bind]
  dsimp only
  rw [h.outputEncoding, orFail, Action.of_ok_bind, h.resultEncoding, orFail, Action.of_ok_bind,
    Action.bind_ok hcommit, h.record_eq, h.checked, List.isEmpty_nil, if_pos rfl]
  constructor
  · rintro u rfl
    rw [Action.bind_ok hlisteners]
    rfl
  · rintro e rfl
    rw [Action.bind_error hlisteners]

/-! ## Steps that can be foreseen -/

/-- A value that a record can hold: its encoding is strict, is read back and can be written. -/
def Recordable (v : Value) : Prop :=
  v.encodeStrict = .ok v.encode ∧ encodingProblem? v.encode = none

theorem recordable_nil : Recordable .nil :=
  ⟨rfl, rfl⟩

/-- What an evaluator answers with an output that a record can hold and a function is offered as a
step, under any new head. -/
theorem exists_offered_of_recordable {fn next output : Value} {result : Machine.TracedEvaluation}
    (newHead : Commitment) (hs : c.standing = .active expected) (hfunction : fn.isFunction = true)
    (hcommitment : fn.commitment = .ok expected)
    (hstored : ∃ q, payloads.find? expected = some q ∧ q.value = fn) (hinput : Recordable input)
    (heval : c.evaluator fn [input] (.str expected.text) = .ok result)
    (hvalue : result.value = .cons output next) (houtput : Recordable output)
    (hnext : next.isFunction = true)
    (hpair : (output.cons next).encodeStrict = .ok (output.cons next).encode) :
    ∃ step, step.newHead = newHead ∧ step.output = output ∧ step.next = next ∧
      Offered c payloads expected input fn result step := by
  obtain ⟨hinput, hinputProblem⟩ := hinput
  obtain ⟨houtput, houtputProblem⟩ := houtput
  let step : Step := ⟨output, next, newHead, ⟨c.history.length + 1,
    ⟨expected.text, input.encode, output.encode, newHead.text⟩,
    ⟨result.frames, (output.cons next).encode⟩⟩⟩
  have hissues : recordIssues step.record = [] := by
    simp [recordIssues, step, hinputProblem, houtputProblem]
  have hsplit : splitResult result.value = .ok (output, next) := by
    rw [hvalue, splitResult, if_pos hnext]
  exact ⟨step, rfl, rfl, rfl, {
    standing := hs
    isFunction := hfunction
    commitment := hcommitment
    stored := hstored
    evaluated := heval
    split := hsplit
    inputEncoding := hinput
    outputEncoding := houtput
    resultEncoding := hvalue ▸ hpair
    index := rfl
    prior := rfl
    newHead := rfl
    frames := rfl
    checked := hissues }⟩

/-- A chain without listeners makes the step that its evaluator answers with an output that a record
can hold and a function that can be committed. -/
theorem advance_of_recordable {fn next output : Value} {result : Machine.TracedEvaluation}
    {newHead : Commitment} {payloads' : Payloads ω} {world' : ω}
    (hs : c.standing = .active expected) (hsilent : c.listeners = [])
    (hfunction : fn.isFunction = true) (hcommitment : fn.commitment = .ok expected)
    (hstored : ∃ q, payloads.find? expected = some q ∧ q.value = fn) (hinput : Recordable input)
    (heval : c.evaluator fn [input] (.str expected.text) = .ok result)
    (hvalue : result.value = .cons output next) (houtput : Recordable output)
    (hnext : next.isFunction = true)
    (hpair : (output.cons next).encodeStrict = .ok (output.cons next).encode)
    (hcommit : Payloads.commit next (payloads, world) = (.ok newHead, payloads', world')) :
    ∃ step, step.newHead = newHead ∧ step.output = output ∧
      advance expected input (c, payloads, world)
        = (.ok step, c.extend step.record newHead, payloads', world') := by
  obtain ⟨step, rfl, rfl, rfl, hoffered⟩ := exists_offered_of_recordable newHead hs hfunction
    hcommitment hstored hinput heval hvalue houtput hnext hpair
  have hlisteners : Action.all (c.listeners.map fun listener => listener step.record c.proven)
      world' = (.ok (), world') := by
    rw [hsilent]
    rfl
  exact ⟨step, rfl, rfl, (advance_of_offered hoffered hcommit hlisteners).1 () rfl⟩

/-- What an evaluator answers with `nil` and a function is offered as a step, under any new
head. -/
theorem exists_offered {fn next : Value} {result : Machine.TracedEvaluation}
    (newHead : Commitment) (hs : c.standing = .active expected) (hfunction : fn.isFunction = true)
    (hcommitment : fn.commitment = .ok expected)
    (hstored : ∃ q, payloads.find? expected = some q ∧ q.value = fn)
    (heval : c.evaluator fn [.nil] (.str expected.text) = .ok result)
    (hvalue : result.value = .cons .nil next) (hnext : next.isFunction = true)
    (hpair : (Value.nil.cons next).encodeStrict = .ok (Value.nil.cons next).encode) :
    ∃ step, step.newHead = newHead ∧ step.next = next ∧
      Offered c payloads expected .nil fn result step := by
  obtain ⟨step, hhead, _, hstep⟩ := exists_offered_of_recordable newHead hs hfunction hcommitment
    hstored recordable_nil heval hvalue recordable_nil hnext hpair
  exact ⟨step, hhead, hstep⟩

/-- A chain without listeners makes the step that its evaluator answers with `nil` and a function
that can be committed. -/
theorem advance_of_answer {fn next : Value} {result : Machine.TracedEvaluation}
    {newHead : Commitment} {payloads' : Payloads ω} {world' : ω}
    (hs : c.standing = .active expected) (hsilent : c.listeners = [])
    (hfunction : fn.isFunction = true) (hcommitment : fn.commitment = .ok expected)
    (hstored : ∃ q, payloads.find? expected = some q ∧ q.value = fn)
    (heval : c.evaluator fn [.nil] (.str expected.text) = .ok result)
    (hvalue : result.value = .cons .nil next) (hnext : next.isFunction = true)
    (hpair : (Value.nil.cons next).encodeStrict = .ok (Value.nil.cons next).encode)
    (hcommit : Payloads.commit next (payloads, world) = (.ok newHead, payloads', world')) :
    ∃ step, step.newHead = newHead ∧ advance expected .nil (c, payloads, world)
      = (.ok step, c.extend step.record newHead, payloads', world') := by
  obtain ⟨step, hhead, _, hstep⟩ := advance_of_recordable hs hsilent hfunction hcommitment hstored
    recordable_nil heval hvalue recordable_nil hnext hpair hcommit
  exact ⟨step, hhead, hstep⟩

end CommitChain.Chain
