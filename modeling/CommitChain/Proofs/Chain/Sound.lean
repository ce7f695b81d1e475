import CommitChain.Proofs.Chain.Advance

/-!
# Sound chains

A chain is sound over a store if its records are linked up to its head, the head stands for a
payload that hashes to it, and no fault was found.  Starting, resuming and stepping give sound
chains over sound stores, and a step that fails leaves the chain sound.
-/

namespace CommitChain.Chain

variable {ω : Type}

structure Sound (payloads : Payloads ω) (c : Chain ω) : Prop where
  linked : Linked c.history
  last : ∀ r ∈ c.history.getLast?, c.head?.map Commitment.text = some r.claim.newHead
  stored : ∀ head, c.standing = .active head →
    ∃ p, payloads.find? head = some p ∧ p.value.commitment = .ok head
  running : ∀ head, c.standing ≠ .faulted head

/-- The last record leads to the head of an active chain. -/
theorem Sound.newHead_eq {payloads : Payloads ω} {c : Chain ω} (h : c.Sound payloads)
    {head : Commitment} (hs : c.standing = .active head) :
    ∀ r ∈ c.history.getLast?, r.claim.newHead = head.text := by
  intro r hr
  have hlast := h.last r hr
  rw [head?, hs, Standing.head?, Option.map_some, Option.some.injEq] at hlast
  exact hlast.symm

/-- A fresh chain has no records. -/
theorem Sound.history_of_fresh {payloads : Payloads ω} {c : Chain ω} (h : c.Sound payloads)
    (hs : c.standing = .fresh) : c.history = [] := by
  refine List.getLast?_eq_none_iff.1 ?_
  cases hl : c.history.getLast? with
  | none => rfl
  | some r => exact absurd (h.last r hl) (by simp [head?, hs, Standing.head?])

theorem sound_fresh (payloads : Payloads ω) (evaluator : Evaluator) :
    (fresh evaluator).Sound payloads where
  linked := linked_nil
  last := by simp [fresh]
  stored := by simp [fresh]
  running := by simp [fresh]

/-- A chain stays sound while the store keeps what it holds. -/
theorem Sound.mono {payloads payloads' : Payloads ω} {c : Chain ω} (h : c.Sound payloads)
    (hp : ∀ k p, payloads.find? k = some p → payloads'.find? k = some p) : c.Sound payloads' where
  linked := h.linked
  last := h.last
  stored head hs := by
    obtain ⟨p, hf, hc⟩ := h.stored head hs
    exact ⟨p, hp head p hf, hc⟩
  running := h.running

/-- A chain is started exactly if it is fresh and its first head is stored. -/
theorem start_eq_ok {payloads : Payloads ω} {c c' : Chain ω} {genesis : Commitment} :
    c.start payloads genesis = .ok c' ↔ c.standing = .fresh ∧
      (∃ p, payloads.find? genesis = some p) ∧ c' = { c with standing := .active genesis } := by
  unfold start
  split
  next head hs => exact iff_of_false (by simp) fun h => absurd (hs.symm.trans h.1) (by simp)
  next head hs => exact iff_of_false (by simp) fun h => absurd (hs.symm.trans h.1) (by simp)
  next hs =>
    rw [bind_eq_ok]
    constructor
    · rintro ⟨p, hp, hc⟩
      exact ⟨hs, ⟨p, Payloads.fetch_eq_ok.1 hp⟩, (Except.ok.inj hc).symm⟩
    · rintro ⟨_, ⟨p, hp⟩, rfl⟩
      exact ⟨p, Payloads.fetch_eq_ok.2 hp, rfl⟩

theorem sound_start {payloads : Payloads ω} {c c' : Chain ω} (h : c.Sound payloads)
    (hp : payloads.Sound) {genesis : Commitment} (hs : c.start payloads genesis = .ok c') :
    c'.Sound payloads := by
  obtain ⟨hfresh, ⟨p, hf⟩, rfl⟩ := start_eq_ok.1 hs
  refine ⟨h.linked, fun r hr => ?_, fun head hh => ?_, fun head hh => ?_⟩
  · exact absurd hr (by simp [h.history_of_fresh hfresh])
  · cases hh
    exact ⟨p, hf, hp.commitment_of_find? hf⟩
  · exact absurd hh (by simp)

/-! ## Resuming -/

/-- Records in the order of their numbers. -/
def ordered (records : List StepRecord) : List StepRecord :=
  records.mergeSort fun a b => decide (a.index ≤ b.index)

theorem ordered_eq {records : List StepRecord}
    (h : records.Pairwise fun a b => a.index ≤ b.index) : ordered records = records :=
  List.mergeSort_of_pairwise (h.imp fun hab => decide_eq_true hab)

/-- The numbers of a list that `count` records have, in ascending order. -/
def knownNumbers (proven : List Int) (count : Nat) : List Int :=
  (proven.filter fun i => 1 ≤ i && i ≤ (count : Int)).foldl (fun acc i => insertNumber i acc) []

/-- The records of a chain that is taken up have to be linked up to its head. -/
theorem resume_eq (payloads : Payloads ω) (evaluator : Evaluator) (head : Commitment)
    (records : List StepRecord) (proven : List Int) :
    ¬(Linked (ordered records) ∧
          ∀ r ∈ (ordered records).getLast?, r.claim.newHead = head.text) ∧
        (∃ fault, resume payloads evaluator head records proven = .error (.chainFaulted fault)) ∨
      (Linked (ordered records) ∧
          ∀ r ∈ (ordered records).getLast?, r.claim.newHead = head.text) ∧
        resume payloads evaluator head records proven
          = (payloads.fetch head >>= fun _ => .ok ⟨evaluator, .active head, ordered records,
              knownNumbers proven (ordered records).length, []⟩) := by
  rw [linked_iff, resume, show (records.mergeSort fun a b => decide (a.index ≤ b.index))
    = ordered records from rfl]
  cases hl : linkFault? 1 none (ordered records) with
  | some fault => exact .inl ⟨by simp, fault, rfl⟩
  | none =>
    cases hr : (ordered records).getLast? with
    | none => exact .inr ⟨⟨rfl, by simp⟩, rfl⟩
    | some r =>
      by_cases hh : r.claim.newHead = head.text
      · refine .inr ⟨⟨rfl, by simpa using hh⟩, ?_⟩
        dsimp only
        rw [if_neg (not_not.2 hh)]
        rfl
      · refine .inl ⟨by simpa using hh, .headNotLast head r.claim.newHead, ?_⟩
        dsimp only
        rw [if_pos hh]
        rfl

/-- A chain is taken up exactly if its records are linked up to a head that is stored. -/
theorem resume_eq_ok {payloads : Payloads ω} {evaluator : Evaluator} {head : Commitment}
    {records : List StepRecord} {proven : List Int} {c : Chain ω} :
    resume payloads evaluator head records proven = .ok c ↔
      Linked (ordered records) ∧ (∀ r ∈ (ordered records).getLast?, r.claim.newHead = head.text) ∧
        (∃ p, payloads.find? head = some p) ∧
        c = ⟨evaluator, .active head, ordered records,
          knownNumbers proven (ordered records).length, []⟩ := by
  rcases resume_eq payloads evaluator head records proven with
    ⟨hnot, fault, hr⟩ | ⟨⟨hlinked, hlast⟩, hr⟩
  · rw [hr]
    exact iff_of_false (by simp) fun h => hnot ⟨h.1, h.2.1⟩
  · rw [hr, bind_eq_ok]
    constructor
    · rintro ⟨p, hp, hc⟩
      exact ⟨hlinked, hlast, ⟨p, Payloads.fetch_eq_ok.1 hp⟩, (Except.ok.inj hc).symm⟩
    · rintro ⟨_, _, ⟨p, hp⟩, rfl⟩
      exact ⟨p, Payloads.fetch_eq_ok.2 hp, rfl⟩

/-- Taking up a chain finds a fault exactly if its records are not linked up to its head. -/
theorem resume_eq_faulted {payloads : Payloads ω} {evaluator : Evaluator} {head : Commitment}
    {records : List StepRecord} {proven : List Int} :
    (∃ fault, resume payloads evaluator head records proven = .error (.chainFaulted fault)) ↔
      ¬(Linked (ordered records) ∧
        ∀ r ∈ (ordered records).getLast?, r.claim.newHead = head.text) := by
  rcases resume_eq payloads evaluator head records proven with ⟨hnot, hr⟩ | ⟨hlinked, hr⟩
  · exact iff_of_true hr hnot
  · refine iff_of_false ?_ (not_not.2 hlinked)
    rintro ⟨fault, hf⟩
    rw [hr, Payloads.fetch] at hf
    cases hp : payloads.find? head <;> simp [hp, bind, Except.bind] at hf

theorem sound_resume {payloads : Payloads ω} (hp : payloads.Sound) {evaluator : Evaluator}
    {head : Commitment} {records : List StepRecord} {proven : List Int} {c : Chain ω}
    (h : resume payloads evaluator head records proven = .ok c) : c.Sound payloads := by
  obtain ⟨hlinked, hlast, ⟨p, hf⟩, rfl⟩ := resume_eq_ok.1 h
  refine ⟨hlinked, fun r hr => ?_, fun h hh => ?_, fun h hh => ?_⟩
  · rw [hlast r hr]
    rfl
  · cases hh
    exact ⟨p, hf, hp.commitment_of_find? hf⟩
  · exact absurd hh (by simp)

/-! ## Stepping -/

/-- A step that succeeds leaves the chain sound. -/
theorem sound_extend {payloads payloads' : Payloads ω} {world world' : ω} {c : Chain ω}
    {expected : Commitment} {input fn : Value} {result : Machine.TracedEvaluation} {step : Step}
    (h : c.Sound payloads) (hp : payloads'.Sound)
    (ha : Advanced c payloads world expected input fn result step payloads' world') :
    (c.extend step.record step.newHead).Sound payloads' := by
  refine ⟨h.linked.append ha.index fun r hr => ?_, fun r hr => ?_, fun head hh => ?_,
    fun head hh => ?_⟩
  · rw [ha.prior, h.newHead_eq ha.standing r hr]
  · rw [extend, List.getLast?_concat] at hr
    cases hr
    rw [ha.newHead]
    rfl
  · cases hh
    obtain ⟨world₁, hc, _⟩ := ha.committed
    obtain ⟨_, p, hf⟩ := Payloads.commit_eq_ok hc
    exact ⟨p, hf, hp.commitment_of_find? hf⟩
  · exact absurd hh (by simp [extend])

/-- The payload of the head hashes to the head, so a step finds no fault in a sound chain. -/
theorem Sound.unchanged {payloads payloads' : Payloads ω} {world world' : ω} {c c' : Chain ω}
    {expected : Commitment} {input : Value} {e : Failure} (h : c.Sound payloads)
    (ha : advance expected input (c, payloads, world) = (.error e, c', payloads', world')) :
    c' = c ∧ Stopped c payloads world expected input e payloads' world' := by
  rcases advance_eq_error ha with ⟨head, p, actual, hs, hf, hc, hne, _⟩ | hstopped
  · obtain ⟨p', hf', hc'⟩ := h.stored head hs
    obtain rfl : p = p' := Option.some.inj (hf.symm.trans hf')
    exact absurd (Except.ok.inj (hc.symm.trans hc')) hne
  · exact hstopped

/-- A step that fails commits to one value at most. -/
theorem Stopped.payloads_eq {c : Chain ω} {payloads payloads' : Payloads ω} {world world' : ω}
    {expected : Commitment} {input : Value} {e : Failure}
    (h : Stopped c payloads world expected input e payloads' world') :
    payloads' = payloads ∨ ∃ next, payloads' = (Payloads.commit next (payloads, world)).2.1 := by
  cases h with
  | early => exact .inl rfl
  | commit _ hc _ => exact .inr ⟨_, congrArg (fun x => x.2.1) hc.symm⟩
  | heard _ hc _ => exact .inr ⟨_, congrArg (fun x => x.2.1) hc.symm⟩

end CommitChain.Chain
