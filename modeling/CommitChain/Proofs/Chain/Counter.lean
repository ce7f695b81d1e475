import CommitChain.Proofs.Json.Digest
import CommitChain.Proofs.Machine.Numbers
import CommitChain.Proofs.Reached
import CommitChain.Proofs.Record.Valid
import Mathlib

/-!
# A chain that counts

`counter n` is the function that adds its argument to `n` and gives back the sum and `counter` of
the sum, as the machine makes it of a recursive definition.  A chain that starts at `counter 0` gives
the sums of its inputs, and its head is the commitment of `counter` of the last one
(`counter_chain_sums`): the environments of all steps hold the same two bindings, of which only the
number changes.

Two sums whose functions have one commitment by a collision of the hash would stop the chain, so
that case is named.
-/

namespace CommitChain.Ledger

open Machine Json Hash CommitChain.Text

variable {ω : Type}

/-! ## The function -/

/-- The definition of the counter, started at zero. -/
def counterSource : String :=
  "(letrec ((counter (lambda (state) (lambda (x) (let ((n (+ state x))) (cons n (counter n)))))))
     (counter 0))"

def counterBody : Value :=
  .ofList [.sym "let", .ofList [.ofList [.sym "n", .ofList [.sym "+", .sym "state", .sym "x"]]],
    .ofList [.sym "cons", .sym "n", .ofList [.sym "counter", .sym "n"]]]

/-- The recursive function that makes a counter of its state. -/
def counterMaker : Value :=
  .fix "counter" ["state"] (.ofList [.sym "lambda", .ofList [.sym "x"], counterBody]) []

/-- The counter that has come to a number. -/
def counter (n : Int) : Value :=
  .closure ["x"] counterBody [("counter", counterMaker), ("state", .num n)]

theorem evaluate_counterSource : Session.evaluate .default counterSource = .ok (counter 0) := by
  rfl

/-- One call, for any numbers: the result does not depend on how the function is referred to. -/
theorem run_counter (n x : Int) (ref : Json) :
    run defaultLimit defaultLimit.toNat 0 (.call (counter n) [.num x] ref)
      = .ok ⟨.cons (.num (n + x)) (counter (n + x)), 19⟩ := by
  cbv

theorem returned_counter (n x : Int) (ref : Json) :
    returned defaultLimit.toNat (.call (counter n) [.num x] ref)
      = [n, x, n + x, n + x, n + x] := by
  cbv

theorem numbersFit_counter {n : Int} (h : n.natAbs < integerBound) : (counter n).NumbersFit := by
  simp [counter, counterBody, counterMaker, Value.numbersFit_closure, Env.NumbersFit,
    Value.numbersFit_ofList, Value.NumbersFit, Value.BindingsFit, h]

theorem evaluator_counter {n x : Int} (hn : n.natAbs < integerBound)
    (hx : x.natAbs < integerBound) (hsum : (n + x).natAbs < integerBound) (ref : String) :
    ∃ result, evaluator defaultLimit (counter n) [.num x] (.str ref) = .ok result ∧
      result.value = .cons (.num (n + x)) (counter (n + x)) := by
  have hargs : ∀ v ∈ [Value.num x], v.NumbersFit := List.forall_mem_singleton.2 hx
  refine evaluator_eq_ok_of_returned ⟨⟨numbersFit_counter hn, hargs⟩, plain_str ref⟩ ?_ ?_
  · rw [returned_counter]
    simp [hn, hx, hsum]
  · rw [run_counter]
    rfl

/-! ## Commitments of counters -/

theorem encodeStrict_counter (n : Int) : (counter n).encodeStrict = .ok (counter n).encode :=
  rfl

theorem regular_counter (n : Int) : (counter n).Regular := by
  have hnames : ∀ name ∈ ["x", "n", "state", "counter", "let", "lambda", "cons", "+"],
      IsNormal name := by decide
  simp only [List.forall_mem_cons, List.not_mem_nil, false_imp_iff, implies_true, and_true]
    at hnames
  have hbody : counterBody.Regular := by
    simp [counterBody, Value.regular_ofList, Value.Regular, hnames]
  have hmaker : counterMaker.Regular := by
    refine Value.regular_fix.2 ⟨?_, ?_, ?_, Env.regular_empty⟩ <;>
      simp [Value.regular_ofList, Value.Regular, hnames, hbody]
  have hlt : "counter" < "state" := by decide
  refine Value.regular_closure.2 ⟨?_, hbody, List.pairwise_pair.2 hlt, ?_⟩ <;>
    simp [Value.Regular, hnames, hmaker]

theorem encode_counter : ∃ params body maker, ∀ n, (counter n).encode
    = .arr [.str "fun", params, body, .obj [("counter", maker), ("state", (Value.num n).encode)]] :=
  ⟨_, _, _, fun _ => rfl⟩

/-- Counters of one canonical form have come to one number. -/
theorem eq_of_canonicalForm_counter {m n : Int}
    (h : (counter m).encode.canonicalForm = (counter n).encode.canonicalForm) : m = n := by
  rw [(Value.settled_encode (regular_counter m)).canonicalForm_eq,
    (Value.settled_encode (regular_counter n)).canonicalForm_eq] at h
  obtain ⟨params, body, maker, hencode⟩ := encode_counter
  rw [hencode, hencode] at h
  simpa [Value.encode, Value.parts, Value.pack] using h

/-- Whether the functions of two numbers that have a property have one commitment though they
differ. -/
def CountersCollide (P : Int → Prop) : Prop :=
  ∃ m n, P m ∧ P n ∧ Collide (Hashed commitDomain (counter m).encode)
    (Hashed commitDomain (counter n).encode)

theorem eq_or_collide_of_commitment {P : Int → Prop} {m n : Int} {c : Commitment} (hm : P m)
    (hn : P n) (hc : commitmentOf (counter m).encode = .ok c)
    (hc' : commitmentOf (counter n).encode = .ok c) : m = n ∨ CountersCollide P := by
  have hform := canonicalForm_eq_or_collide (commitmentOf_eq_ok.1 hc) (commitmentOf_eq_ok.1 hc')
  exact hform.imp eq_of_canonicalForm_counter fun h => ⟨m, n, hm, hn, h⟩

/-! ## Chains of counters -/

/-- A ledger whose chain has come to the counter of `n`, and whose payloads are counters of numbers
that have the property `P`. -/
structure Counting (P : Int → Prop) (l : Ledger ω) (n : Int) (head : Commitment) : Prop where
  evaluator : l.chain.evaluator = Machine.evaluator defaultLimit
  silent : l.chain.listeners = [] ∧ l.payloads.listeners = []
  standing : l.chain.standing = .active head
  commitment : commitmentOf (counter n).encode = .ok head
  stored : l.payloads.find? head = some ⟨counter n, (counter n).encode⟩
  counters : ∀ e ∈ l.payloads.entries, ∃ m, P m ∧ e.2 = ⟨counter m, (counter m).encode⟩ ∧
    commitmentOf (counter m).encode = .ok e.1

/-- Committing to a counter, over payloads that are counters. -/
theorem commit_counter {P : Int → Prop} {s : Payloads ω} {n : Int} (world : ω)
    (hsilent : s.listeners = []) (hP : P n) (hn : n.natAbs < integerBound)
    (hs : ∀ e ∈ s.entries, ∃ m, P m ∧ e.2 = ⟨counter m, (counter m).encode⟩ ∧
      commitmentOf (counter m).encode = .ok e.1) :
    (∃ c s', Payloads.commit (counter n) (s, world) = (.ok c, s', world) ∧
      commitmentOf (counter n).encode = .ok c ∧ s'.listeners = [] ∧
      s'.find? c = some ⟨counter n, (counter n).encode⟩ ∧
      ∀ e ∈ s'.entries, ∃ m, P m ∧ e.2 = ⟨counter m, (counter m).encode⟩ ∧
        commitmentOf (counter m).encode = .ok e.1) ∨ CountersCollide P := by
  have htext := (numbersFit_counter hn).plain_encode.canonical
  obtain ⟨c, hc⟩ := exists_commitmentOf htext
  cases hfind : s.find? c with
  | none =>
    have hannounce : s.announce c ⟨counter n, (counter n).encode⟩ world = (.ok (), world) := by
      rw [Store.announce, hsilent]
      rfl
    have hcommit := Payloads.commit_new (encodeStrict_counter n) hc hfind world
    rw [hannounce] at hcommit
    exact .inl ⟨c, _, hcommit, hc, hsilent, Store.find?_added _ hfind,
      List.forall_mem_append.2 ⟨hs, List.forall_mem_singleton.2 ⟨n, hP, rfl, hc⟩⟩⟩
  | some p =>
    obtain ⟨m, hm, rfl, hc'⟩ := hs _ (Store.mem_of_findEntry? hfind)
    obtain rfl | hcollide := eq_or_collide_of_commitment hm hP hc' hc
    · exact .inl ⟨c, s, Payloads.commit_taken (encodeStrict_counter m) hc htext hfind htext world,
        hc, hsilent, hfind, hs⟩
    · exact .inr hcollide

theorem recordable_num {n : Int} (h : n.natAbs < integerBound) : Chain.Recordable (.num n) := by
  have hplain : (Value.num n).encode.Plain := Value.NumbersFit.plain_encode h
  exact ⟨rfl, encodingProblem?_eq_none.2 ⟨⟨.num n, rfl⟩, _, hplain.canonical⟩⟩

/-- One step: the output is the sum, and the chain has come to the counter of the sum. -/
theorem Counting.advance {P : Int → Prop} {l : Ledger ω} {n x : Int} {head : Commitment}
    (h : Counting P l n head) (hn : n.natAbs < integerBound) (hx : x.natAbs < integerBound)
    (hP : P (n + x)) (hsum : (n + x).natAbs < integerBound) :
    (∃ step l', advance head (.num x) l = (.ok step, l') ∧ step.output = .num (n + x) ∧
      l'.chain.history = l.chain.history ++ [step.record] ∧
      Counting P l' (n + x) step.newHead) ∨ CountersCollide P := by
  obtain ⟨payloads, proofs, c, attached, world⟩ := l
  obtain ⟨hsilent, hunheard⟩ := h.silent
  obtain ⟨result, hresult, hvalue⟩ := evaluator_counter hn hx hsum head.text
  obtain ⟨c', payloads', hcommit, hc', hunheard', hstored, hcounters⟩ | hcollide :=
    commit_counter world hunheard hP hsum h.counters
  swap
  · exact .inr hcollide
  left
  have hcommitment : (counter n).commitment = .ok head := by
    rw [Value.commitment, encodeStrict_counter]
    exact h.commitment
  have heval : c.evaluator (counter n) [.num x] (.str head.text) = .ok result := by
    rw [show c.evaluator = Machine.evaluator defaultLimit from h.evaluator]
    exact hresult
  obtain ⟨step, rfl, houtput, hadvance⟩ := Chain.advance_of_recordable h.standing hsilent rfl
    hcommitment ⟨_, h.stored, rfl⟩ (recordable_num hx) heval hvalue (recordable_num hsum) rfl rfl
    hcommit
  refine ⟨step, _, Action.on_eq.2 ⟨_, hadvance, rfl⟩, houtput, rfl, ?_⟩
  exact ⟨h.evaluator, ⟨hsilent, hunheard'⟩, rfl, hc', hstored, hcounters⟩

/-! ## Runs -/

/-- Makes a step with each input, each at the head that the one before left. -/
def advanceAll (head : Commitment) : List Value → Action (Ledger ω) (List Chain.Step)
  | [] => return []
  | input :: rest => do
    let step ← advance head input
    let steps ← advanceAll step.newHead rest
    return step :: steps

/-- Commits to the value of an expression, starts the chain there and makes a step with each
input. -/
def runChain (config : Config) (text : String) (inputs : List Value) :
    Action (Ledger ω) (Commitment × List Chain.Step) := do
  let fn ← Action.of (Session.evaluate config text)
  let genesis ← commit fn
  start genesis
  let steps ← advanceAll genesis inputs
  return (genesis, steps)

/-- Committing to a function on a fresh ledger and starting the chain there. -/
theorem bind_start {α : Type} {evaluator : Evaluator} {fn : Value} {c : Commitment}
    {payloads : Payloads ω} {world world' : ω}
    (hcommit : Payloads.commit fn (.empty, world) = (.ok c, payloads, world'))
    (hstored : ∃ p, payloads.find? c = some p) (f : Commitment → Action (Ledger ω) α) :
    (do
      let genesis ← commit fn
      start genesis
      f genesis) (fresh evaluator world)
      = f c ⟨payloads, .empty, ⟨evaluator, .active c, [], [], []⟩, true, world'⟩ := by
  rw [Action.bind_ok (commit_fresh hcommit), Action.bind_ok (start_fresh hstored)]

/-- The outputs of some steps are these totals, and their new heads are the commitments of the
counters of the totals. -/
def Counted (total : Nat → Int) (steps : List Chain.Step) : Prop :=
  ∀ k (h : k < steps.length), steps[k].output = .num (total (k + 1)) ∧
    (counter (total (k + 1))).commitment = .ok steps[k].newHead

theorem Counted.cons {total : Nat → Int} {step : Chain.Step} {steps : List Chain.Step}
    (houtput : step.output = .num (total 1))
    (hhead : (counter (total 1)).commitment = .ok step.newHead)
    (h : Counted (fun k => total (k + 1)) steps) : Counted total (step :: steps) := by
  intro k hk
  cases k with
  | zero => exact ⟨houtput, hhead⟩
  | succ k => exact h k (Nat.lt_of_succ_lt_succ hk)

/-- A run of steps with some inputs, by induction on them: the totals go on from the number that the
chain has come to. -/
theorem Counting.advanceAll {P : Int → Prop} (hfit : ∀ n, P n → n.natAbs < integerBound)
    {xs : List Int} (hxs : ∀ x ∈ xs, x.natAbs < integerBound) {l : Ledger ω} {n : Int}
    {head : Commitment} (h : Counting P l n head) (hsums : ∀ k, P (n + (xs.take k).sum)) :
    (∃ steps l' head', advanceAll head (xs.map .num) l = (.ok steps, l') ∧
      steps.length = xs.length ∧ Counted (fun k => n + (xs.take k).sum) steps ∧
      l'.chain.history = l.chain.history ++ steps.map Chain.Step.record ∧
      Counting P l' (n + xs.sum) head') ∨ CountersCollide P := by
  induction xs generalizing l n head with
  | nil =>
    refine .inl ⟨[], l, head, rfl, rfl, fun k hk => absurd hk (Nat.not_lt_zero k), ?_, ?_⟩
    · rw [List.map_nil, List.append_nil]
    · rwa [List.sum_nil, Int.add_zero]
  | cons x xs ih =>
    obtain ⟨hx, hxs⟩ := List.forall_mem_cons.1 hxs
    have htotal : ∀ k, n + ((x :: xs).take (k + 1)).sum = n + x + (xs.take k).sum := by
      intro k
      rw [List.take_succ_cons, List.sum_cons, Int.add_assoc]
    have hn : P n := by simpa using hsums 0
    have hnx : P (n + x) := by simpa using hsums 1
    obtain ⟨step, l₁, hstep, houtput, hhistory, hcounting⟩ | hcollide :=
      h.advance (hfit n hn) hx hnx (hfit _ hnx)
    swap
    · exact .inr hcollide
    refine (ih hxs hcounting fun k => htotal k ▸ hsums (k + 1)).imp_left ?_
    rintro ⟨steps, l', head', hsteps, hlength, hcounted, hhistory', hcounting'⟩
    refine ⟨step :: steps, l', head', ?_, congrArg (· + 1) hlength, ?_, ?_, ?_⟩
    · rw [List.map_cons, Ledger.advanceAll, Action.bind_ok hstep, Action.bind_ok hsteps]
      rfl
    · have hhead : (counter (n + x)).commitment = .ok step.newHead := by
        rw [Value.commitment, encodeStrict_counter]
        exact hcounting.commitment
      refine .cons ?_ ?_ ?_
      · simpa using houtput
      · simpa using hhead
      · simpa only [htotal] using hcounted
    · rw [hhistory', hhistory, List.map_cons, List.append_assoc, List.singleton_append]
    · rwa [List.sum_cons, ← Int.add_assoc]

/-! ## The main result -/

/-- A chain that starts at the counter and steps with some numbers. -/
def countUp (world : ω) (xs : List Int) :
    Except Failure (Commitment × List Chain.Step) × Ledger ω :=
  runChain .default counterSource (xs.map .num)
    (fresh (Machine.evaluator Config.default.stepLimit) world)

def IsPartialSum (xs : List Int) (n : Int) : Prop :=
  ∃ k, n = (xs.take k).sum

/-- Numbers that can be written, and so can all their partial sums. -/
structure Countable (xs : List Int) : Prop where
  inputs : ∀ x ∈ xs, x.natAbs < integerBound
  sums : ∀ n, IsPartialSum xs n → n.natAbs < integerBound

/-- The steps of a chain give the partial sums and leave it at the counters of them. -/
structure CountsUp (xs : List Int) (genesis : Commitment) (steps : List Chain.Step)
    (l : Ledger ω) : Prop where
  genesis : (counter 0).commitment = .ok genesis
  length : steps.length = xs.length
  counted : Counted (fun k => (xs.take k).sum) steps
  history : l.chain.history = steps.map Chain.Step.record
  head : ∃ head, l.chain.standing = .active head ∧ (counter xs.sum).commitment = .ok head

theorem countsUp_or_collide (world : ω) {xs : List Int} (h : Countable xs) :
    (∃ genesis steps l, countUp world xs = (.ok (genesis, steps), l) ∧
      CountsUp xs genesis steps l) ∨ CountersCollide (IsPartialSum xs) := by
  have hzero : IsPartialSum xs 0 := ⟨0, by simp⟩
  obtain ⟨genesis, payloads, hcommit, hgenesis, hsilent, hstored, hcounters⟩ | hcollide :=
    commit_counter (s := Store.empty) world rfl hzero (h.sums 0 hzero)
      fun e he => absurd he List.not_mem_nil
  swap
  · exact .inr hcollide
  let started : Ledger ω := ⟨payloads, .empty,
    ⟨Machine.evaluator defaultLimit, .active genesis, [], [], []⟩, true, world⟩
  have hcounting : Counting (IsPartialSum xs) started 0 genesis :=
    ⟨rfl, ⟨rfl, hsilent⟩, rfl, hgenesis, hstored, hcounters⟩
  refine (hcounting.advanceAll h.sums h.inputs fun k => ⟨k, Int.zero_add _⟩).imp_left ?_
  rintro ⟨steps, l, head, hsteps, hlength, hcounted, hhistory, hcounting'⟩
  have hcommitment : ∀ {n c}, commitmentOf (counter n).encode = .ok c →
      (counter n).commitment = .ok c := by
    intro n c hc
    rw [Value.commitment, encodeStrict_counter]
    exact hc
  refine ⟨genesis, steps, l, ?_, hcommitment hgenesis, hlength, ?_, hhistory, head,
    hcounting'.standing, ?_⟩
  · have hlimit : (Config.default.stepLimit : Int) = defaultLimit := rfl
    rw [countUp, hlimit, runChain, evaluate_counterSource, Action.of_ok_bind,
      bind_start hcommit ⟨_, hstored⟩]
    exact Action.bind_ok hsteps
  · simpa only [Int.zero_add] using hcounted
  · simpa only [Int.zero_add] using hcommitment hcounting'.commitment

/-- Whatever numbers a chain of counters steps with, it gives their partial sums, as long as the
numbers and the sums can be written, and two chains that have come to the same sum have the same
head.  The only exceptions are sums whose counters have one commitment by a collision. -/
theorem counter_chain_sums (world world' : ω) {xs ys : List Int} (hxs : Countable xs)
    (hys : Countable ys) :
    ((∃ genesis steps l, countUp world xs = (.ok (genesis, steps), l) ∧
        CountsUp xs genesis steps l) ∨ CountersCollide (IsPartialSum xs)) ∧
      (xs.sum = ys.sum →
        (∃ head, (countUp world xs).2.chain.standing = .active head ∧
          (countUp world' ys).2.chain.standing = .active head) ∨
        CountersCollide (IsPartialSum xs) ∨ CountersCollide (IsPartialSum ys)) := by
  refine ⟨countsUp_or_collide world hxs, fun hsum => ?_⟩
  obtain ⟨_, _, l, hrun, hcounts⟩ | hcollide := countsUp_or_collide world hxs
  swap
  · exact .inr (.inl hcollide)
  obtain ⟨_, _, l', hrun', hcounts'⟩ | hcollide := countsUp_or_collide world' hys
  swap
  · exact .inr (.inr hcollide)
  obtain ⟨head, hstanding, hhead⟩ := hcounts.head
  obtain ⟨head', hstanding', hhead'⟩ := hcounts'.head
  obtain rfl : head = head' := Except.ok.inj (hhead.symm.trans (hsum ▸ hhead'))
  rw [hrun, hrun']
  exact .inl ⟨head, hstanding, hstanding'⟩

theorem countable_one_two_three : Countable [1, 2, 3] := by
  have hsmall : ∀ n : Int, n.natAbs < 10 → n.natAbs < integerBound := fun _ => lt_integerBound
  refine ⟨fun x hx => hsmall x ?_, ?_⟩
  · revert x
    decide
  · rintro _ ⟨k, rfl⟩
    refine hsmall _ ?_
    rcases k with _ | _ | _ | k <;> simp

theorem countable_six : Countable [6] := by
  have hsmall : ∀ n : Int, n.natAbs < 10 → n.natAbs < integerBound := fun _ => lt_integerBound
  refine ⟨List.forall_mem_singleton.2 (hsmall 6 (by decide)), ?_⟩
  rintro _ ⟨k, rfl⟩
  refine hsmall _ ?_
  rcases k with _ | k <;> simp

/-- Three steps with one, two and three come to where one step with six does. -/
theorem counter_chain_sums_one_two_three :
    Countable [1, 2, 3] ∧ Countable [6] ∧
    ((∃ genesis steps l, countUp () [1, 2, 3] = (.ok (genesis, steps), l) ∧
        CountsUp [1, 2, 3] genesis steps l) ∨ CountersCollide (IsPartialSum [1, 2, 3])) ∧
      (([1, 2, 3] : List Int).sum = [6].sum →
        (∃ head, (countUp () [1, 2, 3]).2.chain.standing = .active head ∧
          (countUp () [6]).2.chain.standing = .active head) ∨
        CountersCollide (IsPartialSum [1, 2, 3]) ∨ CountersCollide (IsPartialSum [6])) :=
  ⟨countable_one_two_three, countable_six,
    counter_chain_sums () () countable_one_two_three countable_six⟩

end CommitChain.Ledger
