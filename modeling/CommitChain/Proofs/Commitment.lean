import CommitChain.Commitment
import CommitChain.Proofs.Json.Canonical
import CommitChain.Proofs.Store
import CommitChain.Proofs.Value.Regular

/-!
# Payloads under their commitments

Whatever is committed or restored, each payload of a store holds the encoding of its value and
stands under the commitment of that encoding (`Payloads.Sound`), and it stays there.
-/

namespace CommitChain

theorem commitmentOf_eq_ok {x : Json} {c : Commitment} :
    commitmentOf x = .ok c ↔ x.digest Hash.commitDomain = .ok c := by
  unfold commitmentOf
  cases x.digest Hash.commitDomain <;> simp

/-- What has a canonical text has a commitment. -/
theorem exists_commitmentOf {x : Json} {text : String} (h : x.canonical = .ok text) :
    ∃ c, commitmentOf x = .ok c := by
  obtain ⟨hf, hw, _⟩ := Json.canonical_eq_ok.1 h
  exact ⟨_, commitmentOf_eq_ok.2 (Json.digest_eq_ok.2 ⟨hf, hw, rfl⟩)⟩

theorem exists_canonical_of_commitmentOf {x : Json} {c : Commitment} (h : commitmentOf x = .ok c) :
    ∃ text, x.canonical = .ok text := by
  obtain ⟨hf, hw, _⟩ := Json.digest_eq_ok.1 (commitmentOf_eq_ok.1 h)
  exact ⟨_, Json.canonical_eq_ok.2 ⟨hf, hw, rfl⟩⟩

/-- The commitment of a tree is the digest of its canonical text. -/
theorem taggedDigest_of_commitmentOf {x : Json} {c : Commitment} {text : String}
    (hc : commitmentOf x = .ok c) (h : x.canonical = .ok text) :
    Hash.taggedDigest Hash.commitDomain [text.toUTF8] = c :=
  Except.ok.inj ((Json.digest_of_canonical h _).symm.trans (commitmentOf_eq_ok.1 hc))

theorem Payload.same_eq {p q : Payload} {a b : String} (hp : p.encoding.canonical = .ok a)
    (hq : q.encoding.canonical = .ok b) : p.same q = .ok (a == b) := by
  rw [same, hp, hq]
  rfl

theorem Payload.same_eq_true {p q : Payload} {text : String}
    (h : q.encoding.canonical = .ok text) :
    p.same q = .ok true ↔ p.encoding.canonical = .ok text := by
  have hq : orFail .canonical q.encoding.canonical = .ok text := orFail_eq_ok.2 h
  rw [same, hq, bind_eq_ok]
  constructor
  · rintro ⟨s, hs, hst⟩
    have heq : s = text := by simpa [ok_bind] using hst
    exact heq ▸ orFail_eq_ok.1 hs
  · intro hp
    exact ⟨text, orFail_eq_ok.2 hp, by simp [ok_bind]⟩

theorem Payload.same_self {p : Payload} {text : String} (h : p.encoding.canonical = .ok text) :
    p.same p = .ok true :=
  (same_eq_true h).2 h

namespace Payloads

variable {ω : Type}

/-- Each payload holds the encoding of its value and stands under its commitment. -/
def Sound (s : Payloads ω) : Prop :=
  ∀ e ∈ s.entries, e.2.value.encodeStrict = .ok e.2.encoding ∧ commitmentOf e.2.encoding = .ok e.1

theorem sound_empty : Sound (Store.empty : Payloads ω) :=
  fun _ h => absurd h List.not_mem_nil

theorem Sound.commitment_of_find? {s : Payloads ω} (h : s.Sound) {c : Commitment} {p : Payload}
    (hp : s.find? c = some p) : p.value.commitment = .ok c := by
  obtain ⟨he, hc⟩ := h _ (Store.mem_of_findEntry? hp)
  rw [Value.commitment, he]
  exact hc

theorem fetch_eq_ok {s : Payloads ω} {c : Commitment} {p : Payload} :
    s.fetch c = .ok p ↔ s.find? c = some p := by
  unfold fetch
  cases s.find? c <;> simp

/-! ## Committing -/

theorem commit_eq (v : Value) (s : Payloads ω × ω) :
    commit v s
      = match v.encodeStrict with
        | .error e => (.error (.serialization e), s)
        | .ok encoding =>
          match commitmentOf encoding with
          | .error e => (.error (.serialization e), s)
          | .ok c =>
            match put c ⟨v, encoding⟩ s with
            | (.ok _, s) => (.ok c, s)
            | (.error e, s) => (.error e, s) := by
  show Action.andThen _ _ s = _
  rw [Action.andThen]
  cases he : v.encodeStrict with
  | error e => rfl
  | ok encoding =>
    show (Action.of (orFail .serialization (commitmentOf encoding)) >>= _) s = _
    cases hc : commitmentOf encoding with
    | error e =>
      simp only [hc]
      rfl
    | ok c =>
      simp only [hc]
      show Action.andThen (put c ⟨v, encoding⟩) _ s = _
      rw [Action.andThen]
      cases put c ⟨v, encoding⟩ s with
      | mk r t => cases r <;> rfl

/-- Under a free commitment the payload comes in, and the listeners hear of it. -/
theorem commit_new {v : Value} {encoding : Json} {c : Commitment} {s : Payloads ω}
    (he : v.encodeStrict = .ok encoding) (hc : commitmentOf encoding = .ok c)
    (free : s.find? c = none) (world : ω) :
    commit v (s, world)
      = ((s.announce c ⟨v, encoding⟩ world).1.map fun _ => c,
        { s with entries := s.entries ++ [(c, ⟨v, encoding⟩)] },
        (s.announce c ⟨v, encoding⟩ world).2) := by
  rw [commit_eq, he]
  simp only [hc, put, Store.put_new free]
  cases (s.announce c ⟨v, encoding⟩ world).1 <;> rfl

/-- A payload with the same text stays. -/
theorem commit_taken {v : Value} {encoding : Json} {c : Commitment} {s : Payloads ω}
    (he : v.encodeStrict = .ok encoding) (hc : commitmentOf encoding = .ok c) {text : String}
    (htext : encoding.canonical = .ok text) {p : Payload} (taken : s.find? c = some p)
    (hp : p.encoding.canonical = .ok text) (world : ω) :
    commit v (s, world) = (.ok c, s, world) := by
  have hsame : p.same ⟨v, encoding⟩ = .ok true := (Payload.same_eq_true htext).2 hp
  rw [commit_eq, he]
  simp only [hc, put, Store.put_taken taken, hsame]

/-- A store with one more payload: that of a value, under its own commitment, which was free. -/
def Added (v : Value) (s s' : Payloads ω) : Prop :=
  ∃ encoding c, v.encodeStrict = .ok encoding ∧ commitmentOf encoding = .ok c ∧
    s.find? c = none ∧ s' = { s with entries := s.entries ++ [(c, ⟨v, encoding⟩)] }

/-- However committing to a value ends, no entry is changed, and at most the value's is added. -/
theorem eq_or_added_of_commit {v : Value} {s s' : Payloads ω} {world world' : ω}
    {r : Except Failure Commitment} (h : commit v (s, world) = (r, s', world')) :
    s' = s ∨ Added v s s' := by
  rw [commit_eq] at h
  split at h
  · cases h
    exact .inl rfl
  next encoding he =>
    split at h
    · cases h
      exact .inl rfl
    next c hc =>
      obtain ⟨r', hput⟩ : ∃ r', put c ⟨v, encoding⟩ (s, world) = (r', s', world') := by
        split at h
        next hput =>
          cases h
          exact ⟨_, hput⟩
        next hput =>
          cases h
          exact ⟨_, hput⟩
      rcases Store.eq_or_added_of_put hput with hs | ⟨free, hs⟩
      · exact .inl hs
      · exact .inr ⟨encoding, c, he, hc, free, hs⟩

/-- What is kept by adding the payload of a value is kept by committing to a value. -/
theorem keeps_commit {P : Payloads ω → Prop} (v : Value)
    (h : ∀ s c encoding, v.encodeStrict = .ok encoding → commitmentOf encoding = .ok c → P s →
      P { s with entries := s.entries ++ [(c, ⟨v, encoding⟩)] }) :
    Action.Keeps (fun s : Payloads ω × ω => P s.1) (commit v) := by
  rintro ⟨s, world⟩ hs
  cases hcommit : commit v (s, world) with
  | mk r t =>
    rcases eq_or_added_of_commit hcommit with he | ⟨encoding, c, he, hc, _, hadded⟩
    · exact he ▸ hs
    · exact hadded ▸ h s c encoding he hc hs

/-- Restoring is committing to what a tree stands for. -/
theorem restore_eq {x : Json} {v : Value} (h : Value.decode x = .ok v) (s : Payloads ω × ω) :
    restore x s = commit v s := by
  rw [restore, h, orFail, Action.of_ok_bind]

theorem keeps_restore {P : Payloads ω × ω → Prop} (h : ∀ v, Action.Keeps P (commit v))
    (encoding : Json) : Action.Keeps P (restore encoding) :=
  (Action.keeps_of _).bind fun v => h v

/-- Committing keeps a store sound. -/
theorem sound_commit (v : Value) :
    Action.Keeps (fun s : Payloads ω × ω => s.1.Sound) (commit v) := by
  refine keeps_commit v fun s c encoding he hc hs => ?_
  exact List.forall_mem_append.2 ⟨hs, List.forall_mem_singleton.2 ⟨he, hc⟩⟩

/-- Committing leaves what is stored. -/
theorem find?_commit (v : Value) (c : Commitment) (p : Payload) :
    Action.Keeps (fun s : Payloads ω × ω => s.1.find? c = some p) (commit v) :=
  keeps_commit (P := fun s => s.find? c = some p) v fun _ _ _ _ _ hs =>
    Store.find?_mono (List.prefix_append _ _) hs

/-- Whether a store holds regular values outlasts committing to one more. -/
theorem keeps_regular_commit {v : Value} (hv : v.Regular) :
    Action.Keeps (fun s : Payloads ω × ω => ∀ e ∈ s.1.entries, e.2.value.Regular) (commit v) :=
  keeps_commit (P := fun s => ∀ e ∈ s.entries, e.2.value.Regular) v fun _ _ _ _ _ hs =>
    List.forall_mem_append.2 ⟨hs, List.forall_mem_singleton.2 hv⟩

/-! ## How committing ends -/

/-- Under a commitment that was made stands the payload of the value, or one of the same text. -/
theorem stored_of_commit {v : Value} {s s' : Payloads ω × ω} {c : Commitment}
    (h : commit v s = (.ok c, s')) : ∃ encoding p, v.encodeStrict = .ok encoding ∧
      commitmentOf encoding = .ok c ∧ s'.1.find? c = some p ∧
        (p = ⟨v, encoding⟩ ∨ p.same ⟨v, encoding⟩ = .ok true) := by
  rw [commit_eq] at h
  split at h
  · exact absurd (congrArg Prod.fst h) (by simp)
  next encoding he =>
    split at h
    · exact absurd (congrArg Prod.fst h) (by simp)
    next c' hc =>
      split at h
      next b t hput =>
        cases h
        obtain ⟨found, hf, hsame⟩ := Store.find?_of_put hput
        exact ⟨encoding, found, he, hc, hf, hsame⟩
      · exact absurd (congrArg Prod.fst h) (by simp)

/-- A commitment that was made is the value's own and has a payload. -/
theorem commit_eq_ok {v : Value} {s s' : Payloads ω × ω} {c : Commitment}
    (h : commit v s = (.ok c, s')) : v.commitment = .ok c ∧ ∃ p, s'.1.find? c = some p := by
  obtain ⟨encoding, p, he, hc, hfind, _⟩ := stored_of_commit h
  refine ⟨?_, p, hfind⟩
  rw [Value.commitment, he]
  exact hc

/-- Committing fails because there is no commitment, because a listener fails, or because of the
payload that stands under the commitment. -/
theorem commit_eq_error {v : Value} {s t : Payloads ω × ω} {e : Failure}
    (h : commit v s = (.error e, t)) :
    (∃ fault, e = .serialization fault ∧ t = s) ∨
    ∃ encoding c, v.encodeStrict = .ok encoding ∧ commitmentOf encoding = .ok c ∧
      ((s.1.find? c = none ∧ (s.1.announce c ⟨v, encoding⟩ s.2).1 = .error e) ∨
        ∃ p, s.1.find? c = some p ∧ t = s ∧ (p.same ⟨v, encoding⟩ = .error e ∨
          p.same ⟨v, encoding⟩ = .ok false ∧ e = .storeConflict c.text)) := by
  obtain ⟨s, world⟩ := s
  rw [commit_eq] at h
  split at h
  next fault _ =>
    cases h
    exact .inl ⟨fault, rfl, rfl⟩
  next encoding he =>
    split at h
    next fault _ =>
      cases h
      exact .inl ⟨fault, rfl, rfl⟩
    next c hc =>
      refine .inr ⟨encoding, c, he, hc, ?_⟩
      split at h
      · exact absurd (congrArg Prod.fst h) (by simp)
      next e' t' hput =>
        cases h
        cases hfind : s.find? c with
        | none =>
          rw [put, Store.put_new hfind] at hput
          obtain ⟨hr, _⟩ := Prod.ext_iff.1 hput
          refine .inl ⟨rfl, ?_⟩
          cases ha : (s.announce c ⟨v, encoding⟩ world).1 with
          | error e'' =>
            rw [ha] at hr
            exact congrArg Except.error (Except.error.inj hr)
          | ok u =>
            rw [ha] at hr
            exact absurd hr (by simp [Except.map])
        | some p =>
          rw [put, Store.put_taken hfind] at hput
          obtain ⟨hr, ht⟩ := Prod.ext_iff.1 hput
          refine .inr ⟨p, rfl, ht.symm, ?_⟩
          cases hsame : p.same ⟨v, encoding⟩ with
          | error e'' =>
            rw [hsame] at hr
            exact .inl hr
          | ok b =>
            rw [hsame] at hr
            cases b with
            | true => exact absurd hr (by simp)
            | false => exact .inr ⟨rfl, (Except.error.inj hr).symm⟩

end Payloads

end CommitChain
