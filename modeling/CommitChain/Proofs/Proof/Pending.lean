import CommitChain.Proofs.Chain.Resuming
import CommitChain.Proofs.Proof.Proving

/-!
# Proving what is pending

Calls to the prover come one after the other (`serveAll`).  What they leave depends on the proofs that
they made and not on the order in which they made them (`Ran`).  The calls for whatever is pending
work through the steps from the last one to the first, as long as no other bytes are in the way of a
proof (`drains_iff_clear`).
-/

namespace CommitChain

variable {ω : Type}

/-! ## Pending steps -/

theorem Chain.pending_markProven (c : Chain ω) (r : StepRecord) :
    (c.markProven r.index).pending = c.pending.filter fun s => s.index ≠ r.index := by
  rw [pending, pending, List.filter_filter]
  refine List.filter_congr fun s _ => ?_
  rw [isProven, isProven, markProven, Bool.eq_iff_iff]
  simp only [Bool.and_eq_true, decide_eq_true_eq, Bool.not_eq_true', List.contains_iff_mem,
    Bool.eq_false_iff, Ne, mem_insertNumber, not_or, Int.natCast_inj]

/-- The last pending step is the only one that stops being pending when it is marked. -/
theorem Chain.pending_markProven_last {c : Chain ω} (hl : Linked c.history)
    {init : List StepRecord} {r : StepRecord} (h : c.pending = init ++ [r]) :
    (c.markProven r.index).pending = init := by
  have hlt : (init ++ [r]).Pairwise fun a b => a.index < b.index :=
    h ▸ hl.index_lt.sublist List.filter_sublist
  have hinit : ∀ s ∈ init, s.index < r.index := fun s hs =>
    (List.pairwise_append.1 hlt).2.2 s hs r (List.mem_singleton_self r)
  rw [pending_markProven, h, List.filter_append, List.filter_eq_self.2, List.filter_eq_nil_iff.2,
    List.append_nil]
  · exact List.forall_mem_singleton.2 (by simp)
  · exact fun s hs => decide_eq_true (Nat.ne_of_lt (hinit s hs))

/-- The pending steps are those whose numbers are not marked, in ascending order. -/
theorem Chain.index_pending {c : Chain ω} (hl : Linked c.history) :
    c.pending.map StepRecord.index
      = (List.range' 1 c.history.length).filter fun (i : Nat) => !c.isProven i := by
  rw [← hl.numbered, List.filter_map]
  rfl

namespace Ledger

/-! ## Calls -/

/-- A call to the prover: for one record, or for the last step that is not proved. -/
inductive ProofCall
  | record (r : StepRecord) (limit : Option Binary64)
  | pending (limit : Option Binary64)

def ProofCall.serve (backend : Backend) (call : ProofCall) : Action (Ledger ω) Proof :=
  match call with
  | .record r limit => prove backend limit r
  | .pending limit => provePending backend limit

/-- What calls come to, one after the other, whether they succeed or fail. -/
def serveAll (backend : Backend) :
    List ProofCall → Ledger ω → List (Except Failure Proof) × Ledger ω
  | [], l => ([], l)
  | call :: rest, l =>
    let (result, l) := call.serve backend l
    let (results, l) := serveAll backend rest l
    (result :: results, l)

theorem serveAll_cons {backend : Backend} {call : ProofCall} {rest : List ProofCall}
    {l l' : Ledger ω} {results : List (Except Failure Proof)} :
    serveAll backend (call :: rest) l = (results, l') ↔
      ∃ result l₁, call.serve backend l = (result, l₁) ∧
        ∃ after, serveAll backend rest l₁ = (after, l') ∧ results = result :: after := by
  rw [serveAll]
  constructor
  · intro h
    obtain ⟨rfl, rfl⟩ := Prod.ext_iff.1 h
    exact ⟨_, _, rfl, _, rfl, rfl⟩
  · rintro ⟨result, l₁, hcall, after, hafter, rfl⟩
    rw [hcall]
    dsimp only
    rw [hafter]

/-- The proofs among the results of calls. -/
def proofsIn (results : List (Except Failure Proof)) : List Proof :=
  results.filterMap Except.toOption

theorem mem_proofsIn {results : List (Except Failure Proof)} {proof : Proof} :
    proof ∈ proofsIn results ↔ .ok proof ∈ results := by
  simp only [proofsIn, List.mem_filterMap, toOption_eq_some, exists_eq_right]

/-- Listeners of the proofs that take whatever they hear, as long as the world is as they need it,
and that leave it so. -/
structure Heeding (fine : ω → Prop) (l : Ledger ω) : Prop where
  world : fine l.world
  takes : ∀ identifier bytes world, fine world →
    (l.proofs.announce identifier bytes world).1 = .ok () ∧
      fine (l.proofs.announce identifier bytes world).2

variable {fine : ω → Prop} {l l' : Ledger ω} {backend : Backend} {r : StepRecord} {proof : Proof}

theorem Heeding.heeds (h : Heeding fine l) (backend : Backend) (r : StepRecord) :
    l.Heeds backend r :=
  fun bytes _ _ => (h.takes _ bytes _ h.world).1

/-- Nobody has to take anything. -/
theorem heeding_of_unheard (h : l.proofs.listeners = []) : Heeding (fun _ => True) l :=
  ⟨trivial, fun identifier bytes world _ => by
    rw [Store.announce, h]
    exact ⟨rfl, trivial⟩⟩

theorem Proves.heeding (h : Proves backend r l proof l') (hl : Heeding fine l) :
    Heeding fine l' := by
  have htakes := hl.takes
  refine ⟨?_, fun identifier bytes world hw => ?_⟩
  · rcases h.world with hworld | ⟨_, hworld⟩
    · exact hworld ▸ hl.world
    · exact hworld ▸ (htakes _ _ _ hl.world).2
  · rw [h.rest]
    exact htakes identifier bytes world hw

theorem Proves.attached (h : Proves backend r l proof l') (ha : l.attached = true) :
    l'.attached = true := by
  rw [h.rest]
  exact ha

theorem Proves.history (h : Proves backend r l proof l') :
    l'.chain.history = l.chain.history := by
  rw [h.rest]
  rfl

theorem Proves.find?_iff (h : Proves backend r l proof l') {identifier : String}
    {bytes : ByteArray} : l'.proofs.find? identifier = some bytes ↔
      l.proofs.find? identifier = some bytes ∨
        proof.identifier = identifier ∧ proof.artifact = bytes := by
  by_cases hi : identifier = proof.identifier
  · rw [hi, h.stored]
    refine ⟨fun hb => .inr ⟨rfl, Option.some.inj hb⟩, ?_⟩
    rintro (hb | ⟨_, rfl⟩)
    · rw [h.free bytes hb]
    · rfl
  · rw [h.others identifier hi]
    exact ⟨.inl, fun hb => hb.resolve_right fun hp => hi hp.1.symm⟩

theorem owns_congr {c c' : Chain ω} (h : c'.history = c.history) (r : StepRecord) :
    c'.owns r = c.owns r := by
  rw [Chain.owns, Chain.owns, Chain.record?, Chain.record?, h]

/-- A call changes nothing, or it makes a proof of a record of the chain. -/
theorem unchanged_or_proves {call : ProofCall} {result : Except Failure Proof}
    (ha : l.attached = true) (hl : Heeding fine l) (h : call.serve backend l = (result, l')) :
    (∃ e, result = .error e) ∧ l' = l ∨
      ∃ r proof, result = .ok proof ∧ l.chain.owns r = true ∧ Proves backend r l proof l' := by
  have hprove : ∀ {limit r}, prove backend limit r l = (result, l') →
      (∃ e, result = .error e) ∧ l' = l ∨
        ∃ r proof, result = .ok proof ∧ l.chain.owns r = true ∧ Proves backend r l proof l' := by
    intro limit r h
    cases settles_of_prove ha (hl.heeds backend r) h with
    | proved owned proves => exact .inr ⟨r, _, rfl, owned, proves⟩
    | _ => exact .inl ⟨⟨_, rfl⟩, rfl⟩
  cases call with
  | record r limit => exact hprove h
  | pending limit =>
    rw [ProofCall.serve, provePending, Action.state_bind, if_pos ha] at h
    cases hlast : l.chain.pending.getLast? with
    | some r =>
      rw [hlast] at h
      exact hprove h
    | none =>
      rw [hlast] at h
      obtain ⟨rfl, rfl⟩ := Prod.ext_iff.1 h
      exact .inl ⟨⟨_, rfl⟩, rfl⟩

/-! ## Runs -/

/-- What calls leave that made some proofs: those are stored and their steps are marked, and nothing
else is new. -/
structure Ran (backend : Backend) (l : Ledger ω) (proofs : List Proof) (l' : Ledger ω) : Prop where
  history : l'.chain.history = l.chain.history
  ascending : l.chain.proven.Pairwise (· < ·) → l'.chain.proven.Pairwise (· < ·)
  proven : ∀ i, i ∈ l'.chain.proven ↔ i ∈ l.chain.proven ∨ ∃ p ∈ proofs, (p.index : Int) = i
  found : ∀ identifier bytes, l'.proofs.find? identifier = some bytes ↔
    l.proofs.find? identifier = some bytes ∨
      ∃ p ∈ proofs, p.identifier = identifier ∧ p.artifact = bytes
  made : ∀ p ∈ proofs, ∃ r, l.chain.owns r = true ∧ r.index = p.index ∧
    backend.prove r.claim r.trace = .artifact p.artifact ∧
      p.identifier = proofIdentifier p.artifact

theorem Ran.refl (backend : Backend) (l : Ledger ω) : Ran backend l [] l where
  history := rfl
  ascending := id
  proven := by simp
  found := by simp
  made := by simp

/-- A proof before a run. -/
theorem Proves.ran {proofs : List Proof} {l₁ : Ledger ω} (h : Proves backend r l proof l₁)
    (ho : l.chain.owns r = true) (hr : Ran backend l₁ proofs l') :
    Ran backend l (proof :: proofs) l' where
  history := hr.history.trans h.history
  ascending hl := hr.ascending (by
    rw [h.rest]
    exact ascending_insertNumber _ hl)
  proven i := by
    rw [hr.proven, h.proven, List.exists_mem_cons_iff, h.index]
    tauto
  found identifier bytes := by
    rw [hr.found, h.find?_iff, List.exists_mem_cons_iff, or_assoc]
  made := by
    refine List.forall_mem_cons.2 ⟨⟨r, ho, h.index.symm, h.made, h.identifier⟩, fun p hp => ?_⟩
    obtain ⟨s, hs, hmade⟩ := hr.made p hp
    exact ⟨s, owns_congr h.history s ▸ hs, hmade⟩

theorem ran_serveAll {calls : List ProofCall} {results : List (Except Failure Proof)}
    (ha : l.attached = true) (hl : Heeding fine l)
    (h : serveAll backend calls l = (results, l')) : Ran backend l (proofsIn results) l' := by
  induction calls generalizing l results with
  | nil =>
    obtain ⟨rfl, rfl⟩ := Prod.ext_iff.1 h
    exact .refl backend l
  | cons call rest ih =>
    obtain ⟨result, l₁, hcall, after, hafter, rfl⟩ := serveAll_cons.1 h
    rcases unchanged_or_proves ha hl hcall with
      ⟨⟨e, rfl⟩, rfl⟩ | ⟨r, proof, rfl, ho, hproves⟩
    · have hran : Ran backend l₁ (proofsIn after) l' := ih ha hl hafter
      exact hran
    · exact hproves.ran ho (ih (hproves.attached ha) (hproves.heeding hl) hafter)

/-! ## The order of calls -/

/-- A backend that makes the same of records that the chain takes for one. -/
def Respects (backend : Backend) (c : Chain ω) : Prop :=
  ∀ own ∈ c.history, ∀ r, own.same r = true →
    backend.prove r.claim r.trace = backend.prove own.claim own.trace

section

variable {l₁ l₂ : Ledger ω} {proofs others : List Proof}

theorem Ran.artifact_eq (h : Ran backend l proofs l₁) (h' : Ran backend l others l₂)
    (respects : Respects backend l.chain) {p q : Proof} (hp : p ∈ proofs) (hq : q ∈ others)
    (hi : p.index = q.index) : p.artifact = q.artifact ∧ p.identifier = q.identifier := by
  obtain ⟨r, hr, hri, hmade, hpi⟩ := h.made p hp
  obtain ⟨s, hs, hsi, hmade', hqi⟩ := h'.made q hq
  obtain ⟨own, _, hown, hsame⟩ := Chain.owns_iff.1 hr
  obtain ⟨own', _, hown', hsame'⟩ := Chain.owns_iff.1 hs
  rw [hri] at hown
  rw [hsi, ← hi] at hown'
  obtain rfl := Option.some.inj (hown.symm.trans hown')
  have hmem := List.mem_of_getElem? hown
  rw [respects own hmem r hsame] at hmade
  rw [respects own hmem s hsame'] at hmade'
  have hbytes := Attempt.artifact.inj (hmade.symm.trans hmade')
  exact ⟨hbytes, by rw [hpi, hqi, hbytes]⟩

/-- What is found after one run is found after another with proofs of the same steps. -/
theorem Ran.find?_mono (h : Ran backend l proofs l₁) (h' : Ran backend l others l₂)
    (respects : Respects backend l.chain) (hi : ∀ p ∈ proofs, ∃ q ∈ others, q.index = p.index)
    {identifier : String} {bytes : ByteArray} (hf : l₁.proofs.find? identifier = some bytes) :
    l₂.proofs.find? identifier = some bytes := by
  rw [h'.found]
  rcases (h.found _ _).1 hf with hf | ⟨p, hp, rfl, rfl⟩
  · exact .inl hf
  · obtain ⟨q, hq, hindex⟩ := hi p hp
    obtain ⟨hartifact, hidentifier⟩ := h'.artifact_eq h respects hq hp hindex
    exact .inr ⟨q, hq, hidentifier, hartifact⟩

/-- Runs with proofs of the same steps leave the same proofs and the same marks. -/
theorem Ran.agree (h : Ran backend l proofs l₁) (h' : Ran backend l others l₂)
    (respects : Respects backend l.chain) (ascending : l.chain.proven.Pairwise (· < ·))
    (hi : ∀ i, (∃ p ∈ proofs, p.index = i) ↔ ∃ q ∈ others, q.index = i) :
    (∀ identifier, l₁.proofs.find? identifier = l₂.proofs.find? identifier) ∧
      l₁.chain.proven = l₂.chain.proven := by
  refine ⟨fun identifier => Option.ext fun bytes => ⟨?_, ?_⟩, ?_⟩
  · exact h.find?_mono h' respects fun p hp => (hi p.index).1 ⟨p, hp, rfl⟩
  · exact h'.find?_mono h respects fun q hq => (hi q.index).2 ⟨q, hq, rfl⟩
  · refine (h.ascending ascending).eq_of_mem_iff (h'.ascending ascending) fun i => ?_
    rw [h.proven, h'.proven]
    refine or_congr_right ⟨?_, ?_⟩
    · rintro ⟨p, hp, rfl⟩
      obtain ⟨q, hq, hqi⟩ := (hi p.index).1 ⟨p, hp, rfl⟩
      exact ⟨q, hq, by rw [hqi]⟩
    · rintro ⟨q, hq, rfl⟩
      obtain ⟨p, hp, hpi⟩ := (hi q.index).2 ⟨q, hq, rfl⟩
      exact ⟨p, hp, by rw [hpi]⟩

end

/-! ## Working through what is pending -/

section

variable {artifact : StepRecord → ByteArray} {limit : Option Binary64}

/-- What the call number `i` comes to when steps are proved in turn: the proof of a step, or the
failure that there is nothing to prove. -/
def drainedAt (artifact : StepRecord → ByteArray) (steps : List StepRecord) (i : Nat) :
    Except Failure Proof :=
  match steps[i]? with
  | some r => .ok (proofOf r (artifact r))
  | none => .error (.nothingToProve true)

/-- Calls for whatever is pending prove the pending steps, the last one first, and then find nothing
to prove. -/
def Drains (backend : Backend) (limit : Option Binary64) (artifact : StepRecord → ByteArray)
    (l : Ledger ω) : Prop :=
  ∀ k, (serveAll backend (List.replicate k (.pending limit)) l).1
    = (List.range k).map (drainedAt artifact l.chain.pending.reverse)

/-- No other bytes are in the way of the proofs of pending steps: neither in the store nor among
these proofs. -/
structure Clear (artifact : StepRecord → ByteArray) (l : Ledger ω) : Prop where
  stored : ∀ r ∈ l.chain.pending, ∀ bytes ∈ l.proofs.find? (proofIdentifier (artifact r)),
    bytes = artifact r
  apart : ∀ r ∈ l.chain.pending, ∀ s ∈ l.chain.pending,
    proofIdentifier (artifact r) = proofIdentifier (artifact s) → artifact r = artifact s

theorem serveAll_pending_nil (ha : l.attached = true) (hnil : l.chain.pending = []) (k : Nat) :
    (serveAll backend (List.replicate k (.pending limit)) l).1
      = (List.range k).map (drainedAt artifact []) := by
  induction k with
  | zero => rfl
  | succ k ih =>
    rw [List.replicate_succ, serveAll, ProofCall.serve, provePending_eq_error ha hnil,
      List.range_succ_eq_map, List.map_cons, List.map_map]
    exact congrArg _ ih

variable (limit) in
/-- The last pending step is proved if no other bytes are in the way. -/
theorem Clear.prove_last (h : Clear artifact l) (ha : l.attached = true) (hl : Heeding fine l)
    {init : List StepRecord} (hp : l.chain.pending = init ++ [r])
    (owned : l.chain.owns r = true)
    (made : backend.prove r.claim r.trace = .artifact (artifact r)) :
    ∃ l', provePending backend limit l = (.ok (proofOf r (artifact r)), l') ∧
      Proves backend r l (proofOf r (artifact r)) l' := by
  have hmem : r ∈ l.chain.pending := by
    rw [hp]
    exact List.mem_append_right _ (List.mem_singleton_self r)
  rw [provePending_eq ha (by rw [hp, List.getLast?_concat])]
  cases hprove : prove backend limit r l with
  | mk result l' =>
    cases settles_of_prove ha (hl.heeds backend r) hprove with
    | foreign other => exact absurd owned (by simp [other])
    | unmade _ none => exact absurd made (none _)
    | taken _ made' found differs =>
      obtain rfl := Attempt.artifact.inj (made.symm.trans made')
      exact absurd (h.stored r hmem _ found) differs
    | proved _ proves =>
      obtain rfl := Attempt.artifact.inj (made.symm.trans proves.made)
      exact ⟨l', rfl, proves⟩

theorem Clear.after (h : Clear artifact l) (hr : r ∈ l.chain.pending)
    (hproves : Proves backend r l (proofOf r (artifact r)) l')
    (hp : ∀ s ∈ l'.chain.pending, s ∈ l.chain.pending) : Clear artifact l' where
  stored s hs bytes hb := by
    rcases hproves.find?_iff.1 hb with hb | ⟨hi, rfl⟩
    · exact h.stored s (hp s hs) bytes hb
    · exact h.apart r hr s (hp s hs) hi
  apart s hs t ht := h.apart s (hp s hs) t (hp t ht)

/-- Without other bytes in the way, calls work through what is pending. -/
theorem Clear.drains (h : Clear artifact l) (ha : l.attached = true) (hl : Heeding fine l)
    (linked : Chain.Linked l.chain.history) (owned : ∀ r ∈ l.chain.pending, l.chain.owns r = true)
    (made : ∀ r ∈ l.chain.pending, backend.prove r.claim r.trace = .artifact (artifact r)) :
    Drains backend limit artifact l := by
  intro k
  generalize hsteps : l.chain.pending.reverse = steps
  rw [List.reverse_eq_iff] at hsteps
  induction steps generalizing l k with
  | nil => exact serveAll_pending_nil ha hsteps k
  | cons r rest ih =>
    rw [List.reverse_cons] at hsteps
    have hmem : ∀ s ∈ rest.reverse ++ [r], s ∈ l.chain.pending := fun s hs => hsteps ▸ hs
    have hr := hmem r (List.mem_append_right _ (List.mem_singleton_self r))
    obtain ⟨l', hcall, hproves⟩ := h.prove_last limit ha hl hsteps (owned r hr) (made r hr)
    have hpending : l'.chain.pending = rest.reverse := by
      rw [hproves.rest]
      exact Chain.pending_markProven_last linked hsteps
    have hrest : ∀ s ∈ l'.chain.pending, s ∈ l.chain.pending := fun s hs =>
      hmem s (List.mem_append_left _ (hpending ▸ hs))
    cases k with
    | zero => rfl
    | succ k =>
      have hafter := ih (h.after hr hproves hrest) (hproves.attached ha) (hproves.heeding hl)
        (hproves.history ▸ linked)
        (fun s hs => (owns_congr hproves.history s).trans (owned s (hrest s hs)))
        (fun s hs => made s (hrest s hs)) k hpending
      rw [List.replicate_succ, serveAll, ProofCall.serve, hcall, List.range_succ_eq_map,
        List.map_cons, List.map_map]
      exact congrArg _ hafter

/-- Where calls work through what is pending, every proof of a pending step is stored in the end. -/
theorem Drains.find?_eq (h : Drains backend limit artifact l) (ha : l.attached = true)
    (hl : Heeding fine l) : ∃ proofs l', Ran backend l proofs l' ∧
      ∀ r ∈ l.chain.pending, l'.proofs.find? (proofIdentifier (artifact r)) = some (artifact r) := by
  have hresults := h l.chain.pending.length
  have hran := ran_serveAll ha hl
    (rfl : serveAll backend (List.replicate l.chain.pending.length (.pending limit)) l = _)
  refine ⟨_, _, hran, fun r hr => (hran.found _ _).2 (.inr ⟨proofOf r (artifact r), ?_, rfl, rfl⟩)⟩
  rw [mem_proofsIn, hresults, List.mem_map]
  obtain ⟨i, hi⟩ := List.mem_iff_getElem?.1 (List.mem_reverse.2 hr)
  refine ⟨i, List.mem_range.2 ?_, ?_⟩
  · obtain ⟨hlt, _⟩ := List.getElem?_eq_some_iff.1 hi
    rwa [List.length_reverse] at hlt
  · rw [drainedAt, hi]

theorem clear_of_drains (h : Drains backend limit artifact l) (ha : l.attached = true)
    (hl : Heeding fine l) : Clear artifact l := by
  obtain ⟨proofs, l', hran, hfound⟩ := h.find?_eq ha hl
  refine ⟨fun r hr bytes hb => ?_, fun r hr s hs hi => ?_⟩
  · have hkept := (hran.found _ _).2 (.inl hb)
    exact Option.some.inj (hkept.symm.trans (hfound r hr))
  · have hr := hfound r hr
    rw [hi] at hr
    exact Option.some.inj (hr.symm.trans (hfound s hs))

/-- Calls work through what is pending exactly if no other bytes are in the way. -/
theorem drains_iff_clear (ha : l.attached = true) (hl : Heeding fine l)
    (linked : Chain.Linked l.chain.history)
    (owned : ∀ r ∈ l.chain.pending, l.chain.owns r = true)
    (made : ∀ r ∈ l.chain.pending, backend.prove r.claim r.trace = .artifact (artifact r)) :
    Drains backend limit artifact l ↔ Clear artifact l :=
  ⟨fun h => clear_of_drains h ha hl, fun h => h.drains ha hl linked owned made⟩

end

end Ledger

/-! ## The main result -/

/-- In the trees of a record the names of each object are different, as in every tree that is read. -/
structure StepRecord.WellFormed (r : StepRecord) : Prop where
  input : r.claim.input.WellFormed
  output : r.claim.output.WellFormed
  result : r.trace.result.WellFormed

theorem StepRecord.WellFormed.same_self {r : StepRecord} (h : r.WellFormed) : r.same r = true := by
  simp only [StepRecord.same, Claim.same, beq_self_eq_true, h.input.same_self, h.output.same_self,
    h.result.same_self, Bool.and_self]

theorem StepRecord.Evaluated.wellFormed {r : StepRecord} (h : r.Evaluated) : r.WellFormed :=
  ⟨h.claim.input.wellFormed, h.claim.output.wellFormed, h.settled.wellFormed⟩

namespace Ledger

theorem Reached.owns {l : Ledger ω} (hl : Reached l)
    (wellFormed : ∀ r ∈ l.chain.history, r.WellFormed) :
    ∀ r ∈ l.chain.pending, l.chain.owns r = true := fun r hr =>
  have hmem := List.mem_of_mem_filter hr
  owns_of_same_self hl.sound hmem (wellFormed r hmem).same_self

/-- **Pending proofs drain in order, and order does not matter.**  In a chain that can be reached,
with a backend that makes something of every pending step and listeners that take it, calls for
whatever is pending prove the pending steps, whose numbers are those up to the number of steps that
are not marked, from the last one to the first, and then find nothing to prove; this happens exactly
if no other bytes are stored under the identifiers of these proofs.  Whatever calls there are, to
prove records or what is pending, those that prove the same steps leave the same proofs and the same
marks. -/
theorem pending_proofs_drain {fine : ω → Prop} {l : Ledger ω} (hl : Reached l)
    (wellFormed : ∀ r ∈ l.chain.history, r.WellFormed) (heeding : Heeding fine l)
    (backend : Backend) :
    (l.chain.pending.map StepRecord.index
      = (List.range' 1 l.chain.history.length).filter fun (i : Nat) => !l.chain.isProven i) ∧
    (∀ limit artifact,
      (∀ r ∈ l.chain.pending, backend.prove r.claim r.trace = .artifact (artifact r)) →
        (Drains backend limit artifact l ↔ Clear artifact l)) ∧
    (Respects backend l.chain → ∀ calls others results results' l₁ l₂,
      serveAll backend calls l = (results, l₁) → serveAll backend others l = (results', l₂) →
        (∀ i, (∃ p ∈ proofsIn results, p.index = i) ↔ ∃ p ∈ proofsIn results', p.index = i) →
          (∀ identifier, l₁.proofs.find? identifier = l₂.proofs.find? identifier) ∧
            l₁.chain.proven = l₂.chain.proven) := by
  have linked := hl.sound.chain.linked
  refine ⟨Chain.index_pending linked, fun limit artifact made => ?_, ?_⟩
  · exact drains_iff_clear hl.attached heeding linked (hl.owns wellFormed) made
  · intro respects calls others results results' l₁ l₂ h h' hi
    exact (ran_serveAll hl.attached heeding h).agree (ran_serveAll hl.attached heeding h') respects
      hl.marked.ascending hi

/-- A backend that makes the same bytes of everything. -/
def constantBackend (bytes : ByteArray) : Backend :=
  ⟨fun _ _ => .artifact bytes, fun _ _ => .ok .accepted⟩

/-- One step, which nobody has proved yet. -/
theorem exists_reached_pending : ∃ (l : Ledger Unit) (r : StepRecord), Reached l ∧
    (∀ r ∈ l.chain.history, r.WellFormed) ∧ l.chain.pending = [r] ∧ l.proofs = .empty := by
  obtain ⟨l, r, hl, hhistory, hproven, hproofs⟩ := exists_pending_step
  refine ⟨l, r, hl.reached, fun s hs => (hl.working.evaluated s hs).wellFormed, ?_, hproofs⟩
  rw [Chain.pending, hhistory]
  simp [Chain.isProven, hproven]

/-- A step is proved by a call for whatever is pending, or by a call for its record. -/
theorem pending_proofs_drain_after_step : ∃ (l l₁ l₂ : Ledger Unit) (r : StepRecord),
    Reached l ∧ l.chain.pending = [r] ∧ Drains (constantBackend .empty) none (fun _ => .empty) l ∧
      serveAll (constantBackend .empty) [.pending none] l = ([.ok (proofOf r .empty)], l₁) ∧
      serveAll (constantBackend .empty) [.record r none, .pending none] l
        = ([.ok (proofOf r .empty), .error (.nothingToProve true)], l₂) ∧
      (∀ identifier, l₁.proofs.find? identifier = l₂.proofs.find? identifier) ∧
        l₁.chain.proven = l₂.chain.proven := by
  obtain ⟨l, r, hl, wellFormed, hpending, hproofs⟩ := exists_reached_pending
  have heeding : Heeding (fun _ => True) l := heeding_of_unheard (by rw [hproofs]; rfl)
  have clear : Clear (fun _ => .empty) l := by
    refine ⟨fun _ _ bytes hb => ?_, fun _ _ _ _ _ => rfl⟩
    rw [hproofs] at hb
    cases hb
  have ho := hl.owns wellFormed r (by rw [hpending]; exact List.mem_singleton_self r)
  have hlast : l.chain.pending = [] ++ [r] := hpending
  have made : (constantBackend .empty).prove r.claim r.trace = .artifact .empty := rfl
  obtain ⟨l₁, hcall, hproves⟩ := clear.prove_last none hl.attached heeding hlast ho made
  have hrecord : prove (constantBackend .empty) none r l = (.ok (proofOf r .empty), l₁) := by
    rw [← provePending_eq hl.attached (by rw [hpending]; rfl), hcall]
  have hempty : l₁.chain.pending = [] := by
    rw [hproves.rest]
    exact Chain.pending_markProven_last hl.sound.chain.linked hlast
  have hnothing : provePending (constantBackend .empty) none l₁
      = (.error (.nothingToProve true), l₁) :=
    provePending_eq_error (hproves.attached hl.attached) hempty
  have hone : serveAll (constantBackend .empty) [.pending none] l
      = ([.ok (proofOf r .empty)], l₁) :=
    serveAll_cons.2 ⟨_, l₁, hcall, [], rfl, rfl⟩
  have htwo : serveAll (constantBackend .empty) [.record r none, .pending none] l
      = ([.ok (proofOf r .empty), .error (.nothingToProve true)], l₁) :=
    serveAll_cons.2 ⟨_, l₁, hrecord, _, serveAll_cons.2 ⟨_, l₁, hnothing, [], rfl, rfl⟩, rfl⟩
  obtain ⟨_, hdrains, hagree⟩ :=
    pending_proofs_drain hl wellFormed heeding (constantBackend .empty)
  exact ⟨l, l₁, l₁, r, hl, hpending, (hdrains none _ fun _ _ => rfl).2 clear, hone, htwo,
    hagree (fun _ _ _ _ => rfl) _ _ _ _ _ _ hone htwo fun _ => Iff.rfl⟩

/-- Other bytes under the identifier of its proof keep a pending step from being proved. -/
theorem not_pending_proofs_drain : ¬∀ (l : Ledger Unit), Reached l →
    (∀ r ∈ l.chain.history, r.WellFormed) → l.proofs.listeners = [] →
      ∀ (backend : Backend) (artifact : StepRecord → ByteArray),
        (∀ r ∈ l.chain.pending, backend.prove r.claim r.trace = .artifact (artifact r)) →
          Drains backend none artifact l := by
  intro h
  obtain ⟨l, r, hl, wellFormed, hpending, hproofs⟩ := exists_reached_pending
  have hnew : l.proofs.find? (proofIdentifier .empty) = none := by rw [hproofs]; rfl
  let other : ByteArray := ⟨#[0]⟩
  have htaken := hl.next (.putProof l (proofIdentifier .empty) other)
  rw [putProof_new hnew] at htaken
  have hunheard : l.proofs.listeners = [] := by rw [hproofs]; rfl
  have clear := clear_of_drains
    (h _ htaken wellFormed hunheard (constantBackend .empty) (fun _ => .empty) fun _ _ => rfl)
    htaken.attached (heeding_of_unheard hunheard)
  have hother : other = .empty :=
    clear.stored r (hpending ▸ List.mem_singleton_self r) other (by
      rw [hproofs]
      exact if_pos rfl)
  exact absurd (congrArg ByteArray.size hother) (by decide)

end Ledger

end CommitChain
