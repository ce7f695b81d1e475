import CommitChain.Proofs.Chain.Evaluated
import CommitChain.Proofs.Failure
import CommitChain.Proofs.Value.Decoding

/-!
# Steps fail with a code

A step of a chain that nobody listens to fails with a code, if it fails: what is shown of a value
has been hashed before, so it can be printed, and what goes into the record has been hashed as well,
so its check finds nothing (`Chain.failsCoded_advance`).
-/

namespace CommitChain

variable {ω : Type}

/-! ## Values that have been hashed -/

namespace Value

theorem writable_of_commitment {v : Value} {c : Commitment} (h : v.commitment = .ok c) :
    v.encode.Writable := by
  obtain ⟨x, hx, hc⟩ := bind_eq_ok.1 h
  obtain ⟨_, _, rfl⟩ := encodeStrict_eq_ok.1 hx
  exact (Json.digest_eq_ok.1 (commitmentOf_eq_ok.1 hc)).2.1

theorem encodingProblem?_eq_none_of_writable {v : Value} {x : Json} (hv : v.Regular)
    (hw : v.encode.Writable) (hx : v.encodeStrict = .ok x) : encodingProblem? x = none := by
  have hdecode := decode_encode hv hx
  obtain ⟨_, _, rfl⟩ := encodeStrict_eq_ok.1 hx
  exact encodingProblem?_eq_none.2 ⟨⟨_, hdecode⟩, _,
    Json.canonical_eq_ok.2 ⟨(settled_encode hv).floatPath?_eq "", hw, rfl⟩⟩

end Value

namespace Machine

/-- The arguments and the value of a traced call have been hashed. -/
theorem writable_of_evaluator {limit : Int} {fn : Value} {args : List Value} {ref : Json}
    {result : TracedEvaluation} (h : evaluator limit fn args ref = .ok result) :
    (∀ v ∈ args, v.encode.Writable) ∧ result.value.encode.Writable := by
  obtain ⟨before, hcall, hrun, _⟩ := evaluator_eq_ok h
  have hcontrol := (writable_stateJson.1 (Json.digest_eq_ok.1 hcall).2.1).1
  have hargs := Json.writable_arr.1 (hcontrol (.arr (args.map Value.encode)) (by simp))
  obtain ⟨after, hhalt, _⟩ := hrun.leads (digest_eq_ok.2 hcall)
  exact ⟨List.forall_mem_map.1 hargs, writable_of_haltState (digest_eq_ok.1 hhalt)⟩

end Machine

/-! ## The store -/

theorem Payloads.failsCoded_fetch (s : Payloads ω) (c : Commitment) : FailsCoded (s.fetch c) := by
  unfold fetch
  split
  · exact failsCoded_ok _
  · exact failsCoded_error.2 ⟨.unknownCommitment, rfl⟩

/-- Committing to a value in a sound store that nobody listens to. -/
theorem Payloads.failsCoded_commit {s : Payloads ω} (h : s.Sound) (hsilent : s.listeners = [])
    (v : Value) (world : ω) : FailsCoded (commit v (s, world)).1 := by
  rw [commit_eq]
  split
  · exact failsCoded_error.2 ⟨.serialization, rfl⟩
  next encoding hencoding =>
    split
    · exact failsCoded_error.2 ⟨.serialization, rfl⟩
    next c hc =>
      obtain ⟨text, htext⟩ := exists_canonical_of_commitmentOf hc
      cases hf : s.find? c with
      | none =>
        rw [put, Store.put_new hf, Store.announce, hsilent]
        exact failsCoded_ok c
      | some p =>
        obtain ⟨text', htext'⟩ :=
          exists_canonical_of_commitmentOf (h _ (Store.mem_of_findEntry? hf)).2
        have hsame : p.same ⟨v, encoding⟩ = .ok (text' == text) := by
          simp only [Payload.same, htext, htext', orFail, bind, Except.bind]
        rw [put, Store.put_taken hf, hsame]
        cases text' == text with
        | true => exact failsCoded_ok c
        | false => exact failsCoded_error.2 ⟨.storeConflict, rfl⟩

/-! ## Steps -/

namespace Chain

variable {c : Chain ω} {payloads : Payloads ω} {expected : Commitment} {input : Value}

theorem failsCoded_start (payloads : Payloads ω) (genesis : Commitment) :
    FailsCoded (c.start payloads genesis) := by
  unfold start
  split
  · exact failsCoded_error.2 ⟨.alreadyStarted, rfl⟩
  · exact failsCoded_error.2 ⟨.alreadyStarted, rfl⟩
  · exact failsCoded_bind (payloads.failsCoded_fetch genesis) fun _ _ => failsCoded_ok _

/-- A head that is no function is shown, and it has been hashed just before. -/
theorem failsCoded_headFunction (world : ω) :
    FailsCoded (headFunction expected (c, payloads, world)).1 := by
  simp only [headFunction]
  split
  · exact failsCoded_error.2 ⟨.notStarted, rfl⟩
  · exact failsCoded_error.2 ⟨.chainFaulted, rfl⟩
  next head _ =>
    split
    · exact failsCoded_error.2 ⟨.headMismatch, rfl⟩
    · split
      next hfetch =>
        exact failsCoded_error.2 (payloads.failsCoded_fetch head _ hfetch)
      next p _ =>
        split
        · exact failsCoded_error.2 ⟨.serialization, rfl⟩
        next actual hactual =>
          split
          · exact failsCoded_error.2 ⟨.chainFaulted, rfl⟩
          · split
            · exact failsCoded_ok _
            · refine failsCoded_error.2 ((Failure.coded_iff rfl).2 ?_)
              have hprint :=
                Value.render_isSome false p.value (Value.writable_of_commitment hactual)
              simpa [Failure.message?, Value.print?] using hprint

theorem failsCoded_splitResult {v : Value} (h : v.encode.Writable) :
    FailsCoded (splitResult v) := by
  have hcoded : (Failure.noNextFunction v).Coded := by
    refine (Failure.coded_iff rfl).2 ?_
    simpa [Failure.message?, Value.print?] using Value.render_isSome false v h
  unfold splitResult
  split
  · split
    · exact failsCoded_ok _
    · exact failsCoded_error.2 hcoded
  · exact failsCoded_error.2 hcoded

/-- A step with regular values, on the machine, over a sound store, and with nobody listening. -/
theorem failsCoded_advance {limit : Int} (he : c.evaluator = Machine.evaluator limit)
    (hsilent : c.listeners = []) (hp : payloads.Sound) (hquiet : payloads.listeners = [])
    (hregular : ∀ e ∈ payloads.entries, e.2.value.Regular) (hi : input.Regular) (world : ω) :
    FailsCoded (advance expected input (c, payloads, world)).1 := by
  rw [advance]
  refine Action.failsCoded_bind (failsCoded_headFunction world) fun fn _ hfn => ?_
  obtain ⟨rfl, hs, hf, hc, hstored⟩ := headFunction_eq_ok hfn
  obtain ⟨p, hfind, rfl⟩ := hstored
  rw [Action.state_bind]
  dsimp only
  refine Action.failsCoded_bind (failsCoded_serialization _) fun inputEncoding _ h => ?_
  obtain ⟨hinput, rfl⟩ := Action.of_eq.1 h
  -- the function of the head is a function, so its traced call fails with a code
  refine Action.failsCoded_bind (x := Action.of _) ?_ fun result _ h => ?_
  · rw [he]
    exact failsCoded_orFail fun fault hfault =>
      (Failure.coded_iff rfl).2 (Machine.message_of_apply hf hfault)
  obtain ⟨heval, rfl⟩ := Action.of_eq.1 h
  obtain ⟨hargs, hresult⟩ := Machine.writable_of_evaluator (he ▸ heval)
  refine Action.failsCoded_bind (failsCoded_splitResult hresult) fun split _ h => ?_
  obtain ⟨output, next⟩ := split
  obtain ⟨hsplit, rfl⟩ := Action.of_eq.1 h
  have produced : Produced c payloads expected input p.value result output next :=
    ⟨hs, hf, hc, ⟨p, hfind, rfl⟩, heval, hsplit⟩
  have hor := (produced.regular he (produced.regular_function hregular) hi).1
  have how := (Value.writable_cons.1 ((splitResult_eq_ok hsplit).1 ▸ hresult)).1
  refine Action.failsCoded_bind (failsCoded_serialization _) fun outputEncoding _ h => ?_
  obtain ⟨houtput, rfl⟩ := Action.of_eq.1 h
  refine Action.failsCoded_bind (failsCoded_serialization _) fun resultEncoding _ h => ?_
  obtain ⟨_, rfl⟩ := Action.of_eq.1 h
  refine Action.failsCoded_bind (x := Action.on _ _ _)
    (Payloads.failsCoded_commit hp hquiet next world) fun newHead _ h => ?_
  obtain ⟨t, _, rfl⟩ := Action.on_eq.1 h
  have hinputOk := Value.encodingProblem?_eq_none_of_writable hi
    (hargs input List.mem_cons_self) (orFail_eq_ok.1 hinput)
  have houtputOk := Value.encodingProblem?_eq_none_of_writable hor how (orFail_eq_ok.1 houtput)
  simp only [recordIssues, hinputOk, houtputOk, hsilent, List.map_nil, Option.map_none,
    List.filterMap_cons_none, List.filterMap_nil, List.isEmpty_nil, if_true]
  exact failsCoded_ok _

end Chain

end CommitChain
