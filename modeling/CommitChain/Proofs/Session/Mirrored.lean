import CommitChain.Proofs.Session.Clear

/-!
# Sessions and their directories

As long as the disk refuses nothing, the directory of a session holds just its history, its head and
its stores (`Used.mirrored`).  Opening the directory then gives all of that back, if each record can
be read (`reopened_alike_iff_legible`).
-/

namespace CommitChain

namespace Session

open Archive

variable {dir : Path} {s s' t : Session} {config : Config}

/-! ## Directives -/

/-- A session whose directory holds its history, its head and its stores. -/
structure Mirrored (dir : Path) (s : Session) : Prop where
  backed : Backed dir s.ledger.chain.history
    (s.ledger.chain.head?.map fun head => (head, s.ledger.chain.proven)) s
  stored : Stored dir s.ledger

theorem Mirrored.commit (h : Mirrored dir s) {text : String} {r : Except Failure CommitResult}
    (hc : commit text s = (r, s')) (hr : Unhindered r) : Mirrored dir s' := by
  obtain ⟨hb, hchain, hg⟩ := h.backed.commit hc
  exact ⟨by rwa [hchain], hg.grown.stored hr h.stored⟩

theorem Mirrored.startAt (h : Mirrored dir s) {genesis : Commitment} {r : Except Failure Unit}
    (hs : startAt genesis s = (r, s')) (hr : Unhindered r) : Mirrored dir s' := by
  rcases h.backed.startAt hs with ⟨_, rfl⟩ | ⟨_, hchain, hg, ⟨_, hb⟩ | ⟨fault, rfl, _⟩⟩
  · exact h
  · refine ⟨?_, hg.grown.stored trivial h.stored⟩
    rw [hchain]
    exact hb
  · exact absurd hr (not_unhindered fault)

theorem Mirrored.begun (h : Mirrored dir s) {expected : Commitment} (hb : Begun s expected s') :
    Mirrored dir s' := by
  cases hb with
  | standing => exact h
  | started _ start => exact h.startAt start (unhindered_ok _)

theorem Mirrored.advance (h : Mirrored dir s) {expected : Commitment} {v : Value} (hv : v.Regular)
    {r : Except Failure Chain.Step} {l : Ledger Disk}
    (ha : Ledger.advance expected v s.ledger = (r, l)) (hr : Unhindered r) :
    Mirrored dir (s.withLedger l) := by
  obtain ⟨hg, hcases⟩ := h.backed.advance hv ha
  refine ⟨?_, hg.grown.stored hr h.stored⟩
  rcases hcases with ⟨e, rfl, hchain, hb | ⟨_, fault, rfl, _⟩⟩ | ⟨step, _, _, hchain, hb⟩
  · have hsame : (s.withLedger l).ledger.chain = s.ledger.chain := hchain
    rwa [hsame]
  · exact absurd hr (not_unhindered fault)
  · have hextended : (s.withLedger l).ledger.chain
        = s.ledger.chain.extend step.record step.newHead := hchain
    rw [hextended]
    exact hb

theorem Mirrored.chain (h : Mirrored dir s) {commitment input : String}
    {r : Except Failure ChainResult} (hc : chain commitment input s = (r, s'))
    (hr : Unhindered r) : Mirrored dir s' := by
  cases chaining hc with
  | early e => exact h
  | unstarted fresh start =>
    exact h.startAt start fun fault he => hr fault (by rw [Except.error.inj he])
  | failed _ evaluated begun advance =>
    exact (h.begun begun).advance (regular_of_evaluate evaluated) advance
      fun fault he => hr fault (by rw [Except.error.inj he])
  | done _ evaluated begun advance =>
    exact (h.begun begun).advance (regular_of_evaluate evaluated) advance (unhindered_ok _)

theorem Mirrored.prove (h : Mirrored dir s) {index : Option Int} {timeout : Option Binary64}
    {r : Except Failure ProveResult} (hp : prove index timeout s = (r, s')) (hr : Unhindered r) :
    Mirrored dir s' := by
  obtain ⟨hg, hcases⟩ := h.backed.prove hp
  refine ⟨?_, hg.grown.stored hr h.stored⟩
  rcases hcases with ⟨_, hchain, hb⟩ | ⟨record, head, _, hactive, hchain, hend⟩
  · rwa [hchain]
  · rcases hend with ⟨_, hb⟩ | ⟨fault, rfl, _⟩
    · have hhead : s'.ledger.chain.head? = some head := by
        rw [hchain]
        show s.ledger.chain.standing.head? = _
        rw [hactive]
        rfl
      have hhistory : s'.ledger.chain.history = s.ledger.chain.history := by
        rw [hchain]
        rfl
      rw [hhistory, hhead]
      exact hb
    · exact absurd hr (not_unhindered fault)

theorem Mirrored.run (h : Mirrored dir s) {d : Directive} {r : Except Failure Unit}
    (hd : d.run s = (r, s')) (hr : Unhindered r) : Mirrored dir s' := by
  cases d with
  | commit text =>
    obtain ⟨r', hc, rfl⟩ := Action.silent_eq.1 hd
    exact h.commit hc (unhindered_map.1 hr)
  | start text =>
    rcases start_eq hd with ⟨_, rfl⟩ | ⟨genesis, _, hs⟩
    · exact h
    · exact h.startAt hs hr
  | chain commitment input =>
    obtain ⟨r', hc, rfl⟩ := Action.silent_eq.1 hd
    exact h.chain hc (unhindered_map.1 hr)
  | prove index timeout =>
    obtain ⟨r', hp, rfl⟩ := Action.silent_eq.1 hd
    exact h.prove hp (unhindered_map.1 hr)

/-! ## Opening the directory again -/

/-- Whether a session has all that another has; payloads may have lost what their encodings do not
show. -/
structure Alike (s t : Session) : Prop where
  standing : t.ledger.chain.standing = s.ledger.chain.standing
  history : t.ledger.chain.history = s.ledger.chain.history
  proven : t.ledger.chain.proven = s.ledger.chain.proven
  pending : t.ledger.chain.pending = s.ledger.chain.pending
  payloads : ∀ c, t.ledger.payloads.find? c
    = (s.ledger.payloads.find? c).map fun p => ⟨p.value.prune, p.encoding⟩
  proofs : ∀ i, t.ledger.proofs.find? i = s.ledger.proofs.find? i

/-- Chains with the same records and numbers have the same steps left to prove. -/
theorem pending_congr {ω : Type} {c c' : Chain ω} (hh : c'.history = c.history)
    (hp : c'.proven = c.proven) : c'.pending = c.pending := by
  rw [Chain.pending, Chain.pending, hh]
  exact List.filter_congr fun r _ => by rw [Chain.isProven, Chain.isProven, hp]

/-- The payloads of a session are filled again with their values pruned. -/
theorem Mirrored.find?_payloads (h : Mirrored dir s) {payloads : Payloads Disk}
    {proofs : Proofs Disk} (hf : Filled dir s.disk payloads proofs) (c : Commitment) :
    payloads.find? c
      = (s.ledger.payloads.find? c).map fun p => ⟨p.value.prune, p.encoding⟩ := by
  have hkept := h.backed.kept
  cases hp : s.ledger.payloads.find? c with
  | none =>
    cases hq : payloads.find? c with
    | none => rfl
    | some q =>
      have hfile := hf.stored c
      rw [hq, Option.isSome_some] at hfile
      obtain ⟨p, _, hp', _⟩ := hkept.filed.payloads c hfile.symm
      exact absurd (hp.symm.trans hp') (by simp)
  | some p =>
    have hfile := h.stored.payloads c p hp
    obtain ⟨q, hq⟩ := Option.isSome_iff_exists.1 ((hf.stored c).trans hfile)
    obtain ⟨p', bytes, hp', hentry, hbytes⟩ := hkept.filed.payloads c hfile
    obtain rfl : p = p' := Option.some.inj (hp.symm.trans hp')
    have hmem := Store.mem_of_findEntry? hp
    obtain ⟨hencoding, hcommitment⟩ := hkept.equipped.sound.payloads _ hmem
    have hwritten : PayloadFile (c.hex ++ ".json") (.file bytes) c p.value p.encoding :=
      ⟨rfl, hkept.equipped.regular _ hmem, hencoding, hcommitment, bytes, rfl, hbytes⟩
    have hstands := hf.restored.stands _ (Store.mem_of_findEntry? hq)
    rw [hq, Option.map_some]
    exact congrArg some (hstands.unique (hwritten.stands hentry))

/-- The proofs of a session are filled again. -/
theorem Mirrored.find?_proofs (h : Mirrored dir s) {payloads : Payloads Disk}
    {proofs : Proofs Disk} (hf : Filled dir s.disk payloads proofs) (i : String) :
    proofs.find? i = s.ledger.proofs.find? i := by
  have hkept := h.backed.kept
  cases hb : s.ledger.proofs.find? i with
  | none =>
    cases hq : proofs.find? i with
    | none => rfl
    | some bytes =>
      have hi := hf.proofsRestored.identifiers _ (Store.mem_of_findEntry? hq)
      have hfile := hf.proved i hi
      rw [hq, Option.isSome_some] at hfile
      obtain ⟨b, hb', _⟩ := hkept.filed.proofs i hfile.symm
      exact absurd (hb.symm.trans hb') (by simp)
  | some bytes =>
    have hi := hkept.filed.identifiers _ (Store.mem_of_findEntry? hb)
    have hfile := h.stored.proofs i bytes hb
    obtain ⟨q, hq⟩ := Option.isSome_iff_exists.1 ((hf.proved i hi).trans hfile)
    obtain ⟨b, hb', hentry⟩ := hkept.filed.proofs i hfile
    obtain rfl : bytes = b := Option.some.inj (hb.symm.trans hb')
    have hentry' := hf.proofsRestored.files _ (Store.mem_of_findEntry? hq)
    cases hentry.symm.trans hentry'
    exact hq

/-- What a session finds in the directory of another, once its chain is known. -/
theorem Mirrored.alike (h : Mirrored dir s) {c : Chain Disk} (ho : Opened config dir s.disk c t)
    (hs : c.standing = s.ledger.chain.standing) (hh : c.history = s.ledger.chain.history)
    (hp : c.proven = s.ledger.chain.proven) : Alike s t := by
  obtain ⟨payloads, proofs, hf, rfl⟩ := ho.ledger
  have hpayloads : ∀ k, payloads.find? k = _ := h.find?_payloads hf
  have hproofs : ∀ i, proofs.find? i = _ := h.find?_proofs hf
  exact ⟨hs, hh, hp, pending_congr hh hp, hpayloads, hproofs⟩

/-- The directory of a session gives a session that is like it, exactly if its records can be
read. -/
theorem Mirrored.make_iff (h : Mirrored dir s) (config : Config) :
    (∃ t, make config (some dir) s.disk = .ok t ∧ Alike s t) ↔
      ∀ r ∈ s.ledger.chain.history, r.Legible := by
  have hkept := h.backed.kept
  have hchain := hkept.equipped.sound.chain
  refine ⟨fun ⟨t, hm, _⟩ => legible_of_make hkept.holds hm, fun hl => ?_⟩
  have hfile : ∀ head, s.ledger.chain.standing = .active head →
      s.disk.contains (commitmentFile dir head) = true := fun head ha => by
    obtain ⟨p, hp, _⟩ := hchain.stored head ha
    exact h.stored.payloads head p hp
  obtain ⟨c, t, ho, hs, hh, hp⟩ := exists_opened hkept.holds
    (restores_head hchain hkept.holds.written) hchain hkept.equipped.marked hfile hl config
  exact ⟨t, ho.made, h.alike ho hs hh hp⟩

/-- A session that is opened on the directory of another is like it, and mirrored in turn. -/
theorem Mirrored.reopened (h : Mirrored dir s) (hm : make config (some dir) s.disk = .ok t) :
    Alike s t ∧ Mirrored dir t := by
  have hkept := h.backed.kept
  obtain ⟨t', hm', halike⟩ := (h.make_iff config).2 (legible_of_make hkept.holds hm)
  obtain rfl : t' = t := Except.ok.inj (hm'.symm.trans hm)
  obtain ⟨_, _, _, hb, hstored⟩ := backed_of_make hkept.holds hkept.matched.ascending hm
  refine ⟨halike, ?_, hstored⟩
  rw [halike.history, Chain.head?, halike.standing, halike.proven]
  exact hb

/-- As long as the disk refuses nothing, the directory of a session mirrors it. -/
theorem Used.mirrored (h : Used dir Unhindered s) : Mirrored dir s := by
  induction h with
  | opened vacant make =>
    obtain ⟨_, _, hhistory, hb, hstored⟩ := backed_of_make vacant.holds List.Pairwise.nil make
    obtain ⟨_, payloads, proofs, _, rfl⟩ := (make_of_unsaved vacant.holds make).2
    exact ⟨hb, hstored⟩
  | reopened _ make ih => exact (ih.reopened make).2
  | ran _ run outcome ih => exact ih.run run outcome

end Session

end CommitChain
