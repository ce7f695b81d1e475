import CommitChain.Proof.HashFold
import CommitChain.Proofs.Chain.Sound
import CommitChain.Proofs.Machine.Faults
import CommitChain.Proofs.Record
import CommitChain.Proofs.Trace
import CommitChain.Proofs.Value.Encoding

/-!
# Records of evaluated steps

A step whose function ran on the machine leaves a record that a prover can use
(`Offered.record_evaluated`): its claim is proper, its frames lead from the call that the claim
names to the result, and the result is the pair of the claimed output and a function under the new
head.
-/

namespace CommitChain

open CommitChain.Machine

/-- What a record shows when its trace was made by the machine. -/
structure StepRecord.Evaluated (r : StepRecord) : Prop where
  claim : r.claim.Proper
  settled : r.trace.result.Settled
  writable : ∃ text, r.trace.result.canonical = .ok text
  split : ∃ next head, r.trace.result = .arr [.str "cons", .arr [r.claim.output], next] ∧
    HashFold.isFunctionEncoding next = true ∧ commitmentOf next = .ok head ∧
    r.claim.newHead = head.text
  leads : ∃ z w, r.claim.start = .ok z ∧ stateDigest (haltState r.trace.result) = .ok w ∧
    Leads z r.trace.frames w
  numbered : r.trace.frames.map Frame.index = List.range' 0 r.trace.frames.length
  family : ∀ f ∈ r.trace.frames, ∃ family : Family, f.family = family.name
  nonempty : r.trace.frames ≠ []

theorem StepRecord.Evaluated.same_self {r : StepRecord} (h : r.Evaluated) : r.same r = true := by
  simp only [StepRecord.same, beq_self_eq_true, h.claim.same_self, h.settled.same_self,
    Bool.and_self]

namespace Machine

theorem digest_eq_ok {s : State} {d : Hash.Digest} :
    s.digest = .ok d ↔ stateDigest s.encode = .ok d := by
  rw [State.digest]
  cases stateDigest s.encode <;> simp

theorem evaluator_eq_ok {limit : Int} {fn : Value} {args : List Value} {ref : Json}
    {result : TracedEvaluation} (h : evaluator limit fn args ref = .ok result) :
    ∃ before, stateDigest (callState ref (args.map Value.encode)) = .ok before ∧
      Runs 0 before (.call fn args ref) result.frames result.value ∧
      result.frames.length ≤ limit.toNat := by
  obtain ⟨before, hd, hr, _, hl⟩ := traced_eq_ok (orFail_eq_ok.1 h)
  exact ⟨before, digest_eq_ok.1 hd, hr, hl⟩

theorem writable_of_haltState {result : Json} {w : Hash.Digest}
    (h : stateDigest (haltState result) = .ok w) : result.Writable :=
  (writable_stateJson.1 (Json.digest_eq_ok.1 h).2.1).1 result (by simp)

end Machine

namespace Value

theorem isFunctionEncoding_encode {v : Value} (h : v.isFunction = true) :
    HashFold.isFunctionEncoding v.encode = true := by
  cases v with
  | closure params body env => simp [encode, parts, pack, HashFold.isFunctionEncoding]
  | fix name params body env => simp [encode, parts, pack, HashFold.isFunctionEncoding]
  | _ => exact absurd h (by simp [isFunction])

theorem encode_cons_function {output next : Value} (h : next.isFunction = true) :
    (cons output next).encode = .arr [.str "cons", .arr [output.encode], next.encode] := by
  cases next with
  | closure params body env => simp [encode, parts, pack]
  | fix name params body env => simp [encode, parts, pack]
  | _ => exact absurd h (by simp [isFunction])

end Value

namespace Chain

theorem splitResult_eq_ok {v output next : Value} (h : splitResult v = .ok (output, next)) :
    v = .cons output next ∧ next.isFunction = true := by
  unfold splitResult at h
  split at h
  next a b =>
    split at h
    next hf =>
      cases h
      exact ⟨rfl, hf⟩
    next => exact absurd h (by simp)
  next => exact absurd h (by simp)

variable {ω : Type} {c : Chain ω} {payloads : Payloads ω} {expected : Commitment}
  {input fn output next : Value} {result : TracedEvaluation} {step : Step} {limit : Int}

/-- What the machine computes of regular values is regular. -/
theorem Produced.regular (h : Produced c payloads expected input fn result output next)
    (he : c.evaluator = Machine.evaluator limit) (hf : fn.Regular) (hi : input.Regular) :
    output.Regular ∧ next.Regular := by
  obtain ⟨_, _, hrun, _⟩ := evaluator_eq_ok (he ▸ h.evaluated)
  obtain ⟨hvalue, _⟩ := splitResult_eq_ok h.split
  have hregular : (Value.cons output next).Regular :=
    hvalue ▸ hrun.regular ⟨hf, List.forall_mem_singleton.2 hi⟩
  exact hregular

/-- The function of the head is regular if the store holds regular values. -/
theorem Produced.regular_function (h : Produced c payloads expected input fn result output next)
    (hs : ∀ e ∈ payloads.entries, e.2.value.Regular) : fn.Regular := by
  obtain ⟨p, hfind, rfl⟩ := h.stored
  exact hs _ (Store.mem_of_findEntry? hfind)

/-- What committing to regular values keeps of a store outlasts a step with a regular input. -/
theorem payloads_after_advance {P : Payloads ω → Prop}
    (hP : ∀ v : Value, v.Regular →
      Action.Keeps (fun s : Payloads ω × ω => P s.1) (Payloads.commit v))
    (h : c.Sound payloads) (he : c.evaluator = Machine.evaluator limit)
    (hs : ∀ e ∈ payloads.entries, e.2.value.Regular) (hi : input.Regular)
    {r : Except Failure Step} {c' : Chain ω} {payloads' : Payloads ω} {world world' : ω}
    (ha : advance expected input (c, payloads, world) = (r, c', payloads', world'))
    (hp : P payloads) : P payloads' := by
  have regular : ∀ {fn output next : Value} {result : TracedEvaluation},
      Produced c payloads expected input fn result output next → next.Regular :=
    fun produced => (produced.regular he (produced.regular_function hs) hi).2
  cases r with
  | ok step =>
    obtain ⟨fn, result, _, hadvanced⟩ := advance_eq_ok ha
    obtain ⟨world₁, hcommit, _⟩ := hadvanced.committed
    exact (hP _ (regular hadvanced.toProduced)).after hcommit hp
  | error e =>
    obtain ⟨_, hstopped⟩ := h.unchanged ha
    cases hstopped with
    | early => exact hp
    | commit produced committed _ => exact (hP _ (regular produced)).after committed hp
    | heard offered committed _ => exact (hP _ (regular offered.toProduced)).after committed hp

theorem Offered.length_frames_le (h : Offered c payloads expected input fn result step)
    (he : c.evaluator = Machine.evaluator limit) :
    step.record.trace.frames.length ≤ limit.toNat := by
  obtain ⟨_, _, _, hlength⟩ := evaluator_eq_ok (he ▸ h.evaluated)
  exact h.frames ▸ hlength

theorem Offered.encodings_ok (h : Offered c payloads expected input fn result step) :
    encodingProblem? step.record.claim.input = none ∧
      encodingProblem? step.record.claim.output = none := by
  have hc := List.filterMap_eq_nil_iff.1 h.checked
  constructor
  · simpa using hc ("input", step.record.claim.input) (by simp)
  · simpa using hc ("output", step.record.claim.output) (by simp)

/-- The record that a step offers, under the commitment to the next function. -/
theorem Offered.record_evaluated (h : Offered c payloads expected input fn result step)
    (hnext : step.next.commitment = .ok step.newHead)
    (he : c.evaluator = Machine.evaluator limit) (hf : fn.Regular) (hi : input.Regular) :
    step.record.Evaluated := by
  obtain ⟨before, hstart, hrun, _⟩ := evaluator_eq_ok (he ▸ h.evaluated)
  obtain ⟨hvalue, hfunction⟩ := splitResult_eq_ok h.split
  obtain ⟨hroutput, hrnext⟩ := h.regular he hf hi
  have hregular : (Value.cons step.output step.next).Regular := ⟨hroutput, hrnext⟩
  obtain ⟨_, _, hinput⟩ := Value.encodeStrict_eq_ok.1 h.inputEncoding
  obtain ⟨_, _, houtput⟩ := Value.encodeStrict_eq_ok.1 h.outputEncoding
  obtain ⟨_, _, hresult⟩ := Value.encodeStrict_eq_ok.1 h.resultEncoding
  have hcall : stateDigest (callState (.str expected.text) [input.encode]) = .ok before := hstart
  have hdigest : (State.call fn [input] (.str expected.text)).digest = .ok before :=
    digest_eq_ok.2 hcall
  obtain ⟨w, hw, hleads⟩ := hrun.leads hdigest
  have hhalt : stateDigest (haltState step.record.trace.result) = .ok w := by
    rw [← hresult]
    exact digest_eq_ok.1 hw
  have hsettled : step.record.trace.result.Settled :=
    hresult ▸ Value.settled_encode (hvalue ▸ hregular)
  exact {
    claim := {
      prior := ⟨expected, h.prior⟩
      newHead := ⟨step.newHead, h.newHead⟩
      input := hinput ▸ Value.settled_encode hi
      input_ok := h.encodings_ok.1
      output := houtput ▸ Value.settled_encode hroutput
      output_ok := h.encodings_ok.2 }
    settled := hsettled
    writable := ⟨_, Json.canonical_eq_ok.2
      ⟨hsettled.floatPath?_eq "", writable_of_haltState hhalt, rfl⟩⟩
    split := by
      obtain ⟨encoding, hencoding, hhead⟩ := bind_eq_ok.1 hnext
      obtain ⟨_, _, rfl⟩ := Value.encodeStrict_eq_ok.1 hencoding
      refine ⟨step.next.encode, step.newHead, ?_, Value.isFunctionEncoding_encode hfunction, hhead,
        h.newHead⟩
      rw [← hresult, hvalue, Value.encode_cons_function hfunction, houtput]
    leads := by
      refine ⟨before, w, ?_, hhalt, h.frames ▸ hleads⟩
      rw [Claim.start, h.prior, ← hinput]
      exact hcall
    numbered := h.frames ▸ hrun.numbered
    family := h.frames ▸ hrun.family
    nonempty := h.frames ▸ hrun.ne_nil fun v hv => by cases hv }

end Chain

end CommitChain
