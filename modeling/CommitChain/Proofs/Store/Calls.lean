import CommitChain.Proofs.Commitment
import CommitChain.Proofs.Value.Decoded

/-!
# Calls on a store of payloads

A store is asked to commit to values, to restore them from their encodings, to tell commitments and
to open them.  One call adds at most the payload of one regular value, under its own commitment,
which was free (`Call.kept_or_added`), so a store that was empty at first stays tidy: its payloads
hold the encodings of their values, each under its own commitment and each commitment once.

Unless a listener fails, a call fails without a trace (`Call.run_eq_error`), and on a tidy store
there is a conflict only between two texts of one digest (`Tidy.collision`).
-/

namespace CommitChain.Payloads

variable {ω : Type}

/-- What a store of payloads is asked for. -/
inductive Call
  | commit (v : Value) (regular : v.Regular)
  | restore (encoding : Json)
  | commitmentFor (v : Value)
  | fetch (c : Commitment)

/-- What a call gives. -/
inductive Answer
  | commitment (c : Commitment)
  | value (v : Value)

namespace Call

def run : Call → Action (Payloads ω × ω) Answer
  | commit v _ => do return .commitment (← Payloads.commit v)
  | restore encoding => do return .commitment (← Payloads.restore encoding)
  | commitmentFor v => do return .commitment (← Action.of (orFail .serialization v.commitment))
  | fetch c => do
    let (s, _) ← Action.state
    let p ← Action.of (s.fetch c)
    return .value p.value

/-- The value that a call commits to. -/
def value? : Call → Option Value
  | commit v _ => some v
  | restore encoding => (Value.decode encoding).toOption
  | commitmentFor _ | fetch _ => none

/-- Whether the listeners take what a call adds, if it adds something. -/
def Undisturbed (call : Call) (s : Payloads ω × ω) : Prop :=
  ∀ v encoding c, call.value? = some v → v.encodeStrict = .ok encoding →
    commitmentOf encoding = .ok c → s.1.find? c = none →
      (s.1.announce c ⟨v, encoding⟩ s.2).1 = .ok ()

end Call

/-- The store and the world after some calls. -/
def serve (calls : List Call) (s : Payloads ω × ω) : Payloads ω × ω :=
  calls.foldl (fun s call => (call.run s).2) s

/-! ## One call -/

namespace Call

theorem run_fetch (c : Commitment) (s : Payloads ω × ω) :
    (fetch c).run s = ((s.1.fetch c).map fun p => .value p.value, s) := by
  show Action.andThen (Action.of (s.1.fetch c)) _ s = _
  rw [Action.andThen, Action.of]
  cases s.1.fetch c <;> rfl

/-- A call commits to a regular value, or it leaves everything as it is and meets no conflict. -/
theorem commits_or_reads (call : Call) (s : Payloads ω × ω) :
    (∃ v, v.Regular ∧ call.value? = some v ∧
      call.run s = ((Payloads.commit v s).1.map .commitment, (Payloads.commit v s).2)) ∨
    (call.value? = none ∧ (call.run s).2 = s ∧
      ∀ text, (call.run s).1 ≠ .error (.storeConflict text)) := by
  have named : ∀ x : Action (Payloads ω × ω) Commitment,
      (x >>= fun c => pure (Answer.commitment c)) s = ((x s).1.map .commitment, (x s).2) := by
    intro x
    show Action.andThen x _ s = _
    rw [Action.andThen]
    cases x s with
    | mk r t => cases r <;> rfl
  cases call with
  | commit v regular => exact .inl ⟨v, regular, rfl, named _⟩
  | restore encoding =>
    cases hx : Value.decode encoding with
    | ok v =>
      refine .inl ⟨v, Value.regular_of_decode hx, by rw [value?, hx]; rfl, ?_⟩
      rw [← restore_eq hx]
      exact named _
    | error fault =>
      have hrun : (restore encoding).run s = (.error (.serialization fault), s) := by
        rw [run, Payloads.restore, hx]
        rfl
      refine .inr ⟨by rw [value?, hx]; rfl, by rw [hrun], fun text => ?_⟩
      rw [hrun]
      simp
  | commitmentFor v =>
    refine .inr ⟨rfl, ?_⟩
    have hrun := named (Action.of (orFail .serialization v.commitment))
    rw [run, hrun]
    refine ⟨rfl, fun text => ?_⟩
    cases v.commitment <;> simp [Action.of, orFail, Except.map]
  | fetch c =>
    refine .inr ⟨rfl, ?_⟩
    rw [run_fetch]
    refine ⟨rfl, fun text => ?_⟩
    unfold Payloads.fetch
    cases s.1.find? c <;> simp [Except.map]

/-- At most the payload of a regular value is added, and nothing else is changed. -/
theorem kept_or_added (call : Call) (s : Payloads ω × ω) :
    (call.run s).2.1 = s.1 ∨ ∃ v : Value, v.Regular ∧ Added v s.1 (call.run s).2.1 := by
  rcases call.commits_or_reads s with ⟨v, hv, _, hrun⟩ | ⟨_, hs, _⟩
  · rw [hrun]
    exact (eq_or_added_of_commit (v := v) rfl).imp_right fun h => ⟨v, hv, h⟩
  · exact .inl (congrArg Prod.fst hs)

theorem run_extends (call : Call) (s : Payloads ω × ω) :
    s.1.entries <+: (call.run s).2.1.entries := by
  rcases call.kept_or_added s with h | ⟨v, _, encoding, c, _, _, _, h⟩
  · exact h ▸ List.prefix_refl _
  · rw [h]
    exact List.prefix_append _ _

/-- A call that no listener disturbs fails without a trace.  If it meets a conflict, then with the
payload under the commitment of its value. -/
theorem run_eq_error {call : Call} {e : Failure} {s t : Payloads ω × ω}
    (hu : call.Undisturbed s) (hr : call.run s = (.error e, t)) :
    t = s ∧ ((∀ text, e ≠ .storeConflict text) ∨
      ∃ v encoding c p, call.value? = some v ∧ v.encodeStrict = .ok encoding ∧
        commitmentOf encoding = .ok c ∧ s.1.find? c = some p ∧
          (p.same ⟨v, encoding⟩ = .error e ∨ p.same ⟨v, encoding⟩ = .ok false)) := by
  rcases call.commits_or_reads s with ⟨v, _, hvalue, hrun⟩ | ⟨_, hs, hne⟩
  · cases hcommit : Payloads.commit v s with
    | mk r u =>
      rw [hrun, hcommit] at hr
      cases r with
      | ok c => exact absurd (congrArg Prod.fst hr) (by simp [Except.map])
      | error e' =>
        cases hr
        rcases commit_eq_error hcommit with
          ⟨_, rfl, hus⟩ | ⟨x, c, hx, hc, ⟨hfree, hfails⟩ | ⟨p, hp, hus, hsame⟩⟩
        · exact ⟨hus, .inl fun text => by simp⟩
        · exact absurd (hfails.symm.trans (hu v x c hvalue hx hc hfree)) (by simp)
        · exact ⟨hus, .inr ⟨v, x, c, p, hvalue, hx, hc, hp, hsame.imp_right And.left⟩⟩
  · rw [hr] at hs hne
    exact ⟨hs, .inl fun text he => hne text (congrArg Except.error he)⟩

end Call

/-- The store of an empty one that was only called: its payloads are sound and of regular values,
and each commitment is there once. -/
structure Tidy (s : Payloads ω) : Prop where
  sound : s.Sound
  regular : ∀ e ∈ s.entries, e.2.value.Regular
  once : s.keys.Nodup

namespace Tidy

variable {s : Payloads ω × ω}

theorem empty (listeners : List (Commitment → Payload → Action ω Unit)) :
    Tidy ⟨[], listeners⟩ :=
  ⟨fun _ h => absurd h List.not_mem_nil, fun _ h => absurd h List.not_mem_nil, List.nodup_nil⟩

theorem added {s s' : Payloads ω} (h : s.Tidy) {v : Value} (hv : v.Regular) (ha : Added v s s') :
    s'.Tidy := by
  obtain ⟨encoding, c, he, hc, free, rfl⟩ := ha
  exact ⟨List.forall_mem_append.2 ⟨h.sound, List.forall_mem_singleton.2 ⟨he, hc⟩⟩,
    List.forall_mem_append.2 ⟨h.regular, List.forall_mem_singleton.2 hv⟩,
    Store.nodup_keys_append h.once free _⟩

theorem run (h : s.1.Tidy) (call : Call) : (call.run s).2.1.Tidy := by
  rcases call.kept_or_added s with hs | ⟨v, hv, ha⟩
  · exact hs ▸ h
  · exact h.added hv ha

/-- What stands under the commitment of an encoding has a canonical text, and so has that. -/
theorem exists_texts (h : s.1.Tidy) {c : Commitment} {p : Payload} {encoding : Json}
    (hp : s.1.find? c = some p) (hc : commitmentOf encoding = .ok c) :
    ∃ a b, p.encoding.canonical = .ok a ∧ encoding.canonical = .ok b ∧
      Hash.taggedDigest Hash.commitDomain [a.toUTF8] = c ∧
      Hash.taggedDigest Hash.commitDomain [b.toUTF8] = c := by
  obtain ⟨_, hpc⟩ := h.sound _ (Store.mem_of_findEntry? hp)
  obtain ⟨a, ha⟩ := exists_canonical_of_commitmentOf hpc
  obtain ⟨b, hb⟩ := exists_canonical_of_commitmentOf hc
  exact ⟨a, b, ha, hb, taggedDigest_of_commitmentOf hpc ha, taggedDigest_of_commitmentOf hc hb⟩

/-- Under a commitment to a value that was made stands a value with the same strict encoding. -/
theorem encodeStrict_of_commit {t : Payloads ω × ω} (ht : t.1.Tidy) {v : Value} (hv : v.Regular)
    {c : Commitment} (h : commit v s = (.ok c, t)) :
    ∃ p, t.1.find? c = some p ∧ p.value.encodeStrict = v.encodeStrict := by
  obtain ⟨encoding, p, he, hc, hp, hsame⟩ := stored_of_commit h
  refine ⟨p, hp, ?_⟩
  rcases hsame with rfl | hsame
  · rfl
  · have hmem := Store.mem_of_findEntry? hp
    have hpe := (ht.sound _ hmem).1
    obtain ⟨_, text, _, htext, _⟩ := ht.exists_texts hp hc
    have hptext := (Payload.same_eq_true (q := ⟨v, encoding⟩) htext).1 hsame
    -- of regular values the encodings with one text are one tree
    have hsettled : p.encoding.Settled := by
      rw [← (Value.encodeStrict_eq_ok.1 hpe).2.2]
      exact Value.settled_encode (ht.regular _ hmem)
    have hsettled' : encoding.Settled := by
      rw [← (Value.encodeStrict_eq_ok.1 he).2.2]
      exact Value.settled_encode hv
    rw [hpe, he, hsettled.eq_of_canonical hsettled' hptext htext]

/-- A conflict shows two texts of one digest: that of a payload that is there and that of the value
that the call commits to. -/
theorem collision (h : s.1.Tidy) {call : Call} {text : String} {t : Payloads ω × ω}
    (hu : call.Undisturbed s) (hr : call.run s = (.error (.storeConflict text), t)) :
    ∃ v encoding c p a b, call.value? = some v ∧ v.encodeStrict = .ok encoding ∧
      s.1.find? c = some p ∧ p.encoding.canonical = .ok a ∧ encoding.canonical = .ok b ∧ a ≠ b ∧
      Hash.taggedDigest Hash.commitDomain [a.toUTF8] = c ∧
      Hash.taggedDigest Hash.commitDomain [b.toUTF8] = c := by
  rcases (Call.run_eq_error hu hr).2 with hne | ⟨v, x, c, p, hvalue, hx, hc, hp, hsame⟩
  · exact absurd rfl (hne text)
  · obtain ⟨a, b, ha, hb, hac, hbc⟩ := h.exists_texts hp hc
    rw [Payload.same_eq (q := ⟨v, x⟩) ha hb] at hsame
    refine ⟨v, x, c, p, a, b, hvalue, hx, hp, ha, hb, ?_, hac, hbc⟩
    rintro rfl
    simp at hsame

end Tidy

/-! ## Any number of calls -/

theorem tidy_serve {s : Payloads ω × ω} (h : s.1.Tidy) (calls : List Call) :
    (serve calls s).1.Tidy := by
  induction calls generalizing s with
  | nil => exact h
  | cons call calls ih => exact ih (h.run call)

theorem serve_extends (calls : List Call) (s : Payloads ω × ω) :
    s.1.entries <+: (serve calls s).1.entries := by
  induction calls generalizing s with
  | nil => exact List.prefix_refl _
  | cons call calls ih => exact (call.run_extends s).trans (ih _)

/-- Whatever is called for after committing to a value, one with its strict encoding is opened. -/
theorem Tidy.fetch_after_commit {s t : Payloads ω × ω} (h : s.1.Tidy) {v : Value}
    {regular : v.Regular} {c : Commitment}
    (hrun : (Call.commit v regular).run s = (.ok (.commitment c), t)) (calls : List Call) :
    ∃ w, (Call.fetch c).run (serve calls t) = (.ok (.value w), serve calls t) ∧
      w.encodeStrict = v.encodeStrict := by
  have ht : t.1.Tidy := by
    have hnext := h.run (Call.commit v regular)
    rwa [hrun] at hnext
  obtain ⟨c', t', hcommit, hdone⟩ := Action.bind_eq_ok.1 hrun
  obtain ⟨hc, rfl⟩ := Action.pure_eq_ok.1 hdone
  obtain rfl := Answer.commitment.inj hc
  obtain ⟨p, hp, hencode⟩ := ht.encodeStrict_of_commit regular hcommit
  have hlater := fetch_eq_ok.2 (Store.find?_mono (serve_extends calls t') hp)
  exact ⟨p.value, by rw [Call.run_fetch, hlater]; rfl, hencode⟩

/-- What is upheld by a store of payloads that was empty at first, whatever it was called for. -/
structure Upheld (s : Payloads ω × ω) : Prop where
  /-- Each payload holds the strict encoding of its value, under the commitment of that. -/
  sound : ∀ e ∈ s.1.entries,
    e.2.value.encodeStrict = .ok e.2.encoding ∧ commitmentOf e.2.encoding = .ok e.1
  once : s.1.keys.Nodup
  /-- Further calls replace no entry and take none away. -/
  kept : ∀ calls, s.1.entries <+: (serve calls s).1.entries
  /-- Whatever is called for after committing to a value, one with its strict encoding is opened. -/
  opened : ∀ v regular c t, (Call.commit v regular).run s = (.ok (.commitment c), t) →
    ∀ calls, ∃ w, (Call.fetch c).run (serve calls t) = (.ok (.value w), serve calls t) ∧
      w.encodeStrict = v.encodeStrict
  traceless : ∀ (call : Call) e t, call.Undisturbed s → call.run s = (.error e, t) → t = s
  collision : ∀ (call : Call) text t, call.Undisturbed s →
    call.run s = (.error (.storeConflict text), t) →
    ∃ v encoding c p a b, call.value? = some v ∧ v.encodeStrict = .ok encoding ∧
      s.1.find? c = some p ∧ p.encoding.canonical = .ok a ∧ encoding.canonical = .ok b ∧ a ≠ b ∧
      Hash.taggedDigest Hash.commitDomain [a.toUTF8] = c ∧
      Hash.taggedDigest Hash.commitDomain [b.toUTF8] = c

/-- **A store of payloads keeps its invariant**, over every sequence of calls. -/
theorem calls_uphold_store (listeners : List (Commitment → Payload → Action ω Unit)) (world : ω)
    (calls : List Call) : Upheld (serve calls (⟨[], listeners⟩, world)) := by
  have htidy := tidy_serve (s := (⟨[], listeners⟩, world)) (Tidy.empty listeners) calls
  generalize serve calls (⟨[], listeners⟩, world) = s at htidy
  exact ⟨htidy.sound, htidy.once, fun more => serve_extends more s,
    fun v regular c t => htidy.fetch_after_commit,
    fun call e t hu hr => (Call.run_eq_error hu hr).1, fun call text t => htidy.collision⟩

/-- A store that committed to `nil` opens it. -/
theorem calls_uphold_store_of_nil : ∃ (c : Commitment) (t : Payloads Unit × Unit) (w : Value),
    (Call.commit .nil trivial).run (Store.empty, ()) = (.ok (.commitment c), t) ∧
      (Call.fetch c).run t = (.ok (.value w), t) ∧
        w.encodeStrict = .ok (.arr [.str "nil"]) := by
  have htext : ∃ text, (Json.arr [.str "nil"]).canonical = .ok text :=
    ⟨_, Json.canonical_eq_ok.2 ⟨rfl, Json.writable_arr.2 (List.forall_mem_singleton.2 rfl), rfl⟩⟩
  obtain ⟨c, hc⟩ := exists_commitmentOf htext.choose_spec
  have hrun : (Call.commit .nil trivial).run ((Store.empty : Payloads Unit), ())
      = (.ok (.commitment c), ⟨[(c, ⟨.nil, .arr [.str "nil"]⟩)], []⟩, ()) :=
    Action.bind_ok (commit_new (v := .nil) rfl hc rfl ())
  obtain ⟨w, hw, hencode⟩ := (calls_uphold_store [] () []).opened .nil trivial c _ hrun []
  exact ⟨c, _, w, hrun, hw, hencode⟩

end CommitChain.Payloads
