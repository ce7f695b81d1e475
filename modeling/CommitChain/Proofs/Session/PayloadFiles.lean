import CommitChain.Proofs.Session.Loading

/-!
# Files of payloads

The text of a payload's file is read back as the encoding that it was made of, and storing what that
stands for gives the commitment and the encoding again (`commit_roundTrips`).  So the file of a
payload is taken up whatever other files were taken up before it.
-/

namespace CommitChain

open CommitChain.Text

/-! ## Restoring -/

namespace Payloads

variable {ω : Type} {v : Value} {c : Commitment} {text : String} {s : Payloads ω} {world : ω}

/-- Under a free commitment the payload comes in, and the listeners hear of it. -/
theorem restore_new (hv : v.Regular) (hencoding : v.encodeStrict = .ok v.encode)
    (hc : commitmentOf v.encode = .ok c) (free : s.find? c = none) :
    restore v.encode (s, world)
      = ((s.announce c ⟨v.prune, v.encode⟩ world).1.map fun _ => c,
        { s with entries := s.entries ++ [(c, ⟨v.prune, v.encode⟩)] },
        (s.announce c ⟨v.prune, v.encode⟩ world).2) := by
  rw [restore_eq (Value.decode_encode hv hencoding)]
  exact commit_new ((Value.encodeStrict_prune v).trans hencoding) hc free world

/-- A payload with the same text stays. -/
theorem restore_taken (hv : v.Regular) (hencoding : v.encodeStrict = .ok v.encode)
    (hc : commitmentOf v.encode = .ok c) (htext : v.encode.canonical = .ok text) {p : Payload}
    (taken : s.find? c = some p) (hp : p.encoding.canonical = .ok text) :
    restore v.encode (s, world) = (.ok c, s, world) := by
  rw [restore_eq (Value.decode_encode hv hencoding)]
  exact commit_taken ((Value.encodeStrict_prune v).trans hencoding) hc htext taken hp world

end Payloads

/-! ## Taking up files -/

namespace Archive

variable {dir : Path} {disk : Disk}

theorem Restored.of_restore {s : Payloads Disk} (hl : Restored dir disk s) {c : Commitment}
    {x : Json} (hx : disk.loadJson (commitmentFile dir c) = .ok x) {world : Disk}
    {t : Payloads Disk × Disk} (h : Payloads.restore x (s, world) = (.ok c, t)) :
    Restored dir disk t.1 := by
  obtain ⟨v, _, hof, hcommit⟩ := Action.bind_eq_ok.1 h
  obtain ⟨hv, rfl⟩ := Action.of_eq.1 hof
  have hcommitment := (Payloads.commit_eq_ok hcommit).1
  rcases Payloads.eq_or_added_of_commit hcommit with hsame | ⟨encoding, k, he, hk, _, hadded⟩
  · exact hsame ▸ hl
  · rw [Value.commitment, he] at hcommitment
    obtain rfl : k = c := Except.ok.inj (hk.symm.trans hcommitment)
    have hstands : Stands dir disk k ⟨v, encoding⟩ := ⟨⟨x, hx, orFail_eq_ok.1 hv⟩, he, hk⟩
    rw [hadded]
    exact ⟨hl.silent, List.forall_mem_append.2 ⟨hl.stands, List.forall_mem_singleton.2 hstands⟩⟩

/-- Payloads that came from files under their own commitments are those of their files. -/
theorem Restored.of_loadPayloads {names : List String} {l l' : Ledger Disk}
    (hn : ∀ name ∈ names, Path.isJsonName name = true) (hl : Restored dir disk l.payloads)
    (h : loadPayloads disk dir names l = (.ok (), l')) : Restored dir disk l'.payloads := by
  induction names generalizing l with
  | nil =>
    cases h
    exact hl
  | cons name rest ih =>
    obtain ⟨hj, hrest⟩ := List.forall_mem_cons.1 hn
    rw [loadPayloads] at h
    obtain ⟨x, _, hof, h⟩ := Action.bind_eq_ok.1 h
    obtain ⟨hx, rfl⟩ := Action.of_eq.1 hof
    obtain ⟨c, l₁, hrestore, h⟩ := Action.bind_eq_ok.1 h
    split at h
    · cases h
    next hstem =>
      refine ih hrest ?_ h
      have hname := name_eq_of_stem hj (not_not.1 hstem)
      have hfile : disk.loadJson (commitmentFile dir c) = .ok x := by
        rw [commitmentFile, ← hname]
        exact hx
      rw [Ledger.restore, Ledger.onPayloads] at hrestore
      obtain ⟨t, hpayloads, rfl⟩ := Action.on_eq.1 hrestore
      exact hl.of_restore hfile hpayloads

theorem loadPayloads_append {names more : List String} {l l' : Ledger Disk}
    (h : loadPayloads disk dir names l = (.ok (), l')) :
    loadPayloads disk dir (names ++ more) l = loadPayloads disk dir more l' := by
  induction names generalizing l with
  | nil =>
    cases h
    rfl
  | cons name rest ih =>
    rw [loadPayloads] at h
    obtain ⟨x, _, hof, h⟩ := Action.bind_eq_ok.1 h
    obtain ⟨c, l₁, hrestore, h⟩ := Action.bind_eq_ok.1 h
    split at h
    · cases h
    next hstem =>
      rw [List.cons_append, loadPayloads, Action.bind_ok hof, Action.bind_ok hrestore,
        if_neg hstem, ih h]

/-! ## From a value to its file and back -/

/-- What the text and the file of a value's payload are good for. -/
structure RoundTrips (v : Value) (c : Commitment) (text : String) : Prop where
  /-- The text is that of the encoding, and it is read as the encoding, as a line too. -/
  canonical : v.encode.canonical = .ok text
  parsed : Json.parse text = .ok v.encode
  parsedLine : Json.parse (line text) = .ok v.encode
  /-- Another value with this text has this encoding. -/
  unique : ∀ {w : Value}, w.Regular → w.encode.canonical = .ok text → w.encode = v.encode
  /-- Restoring stores the same encoding under the same commitment, -/
  restored : ∀ {ω : Type} (s : Payloads ω) (world : ω), s.find? c = none →
    Payloads.restore v.encode (s, world)
      = ((s.announce c ⟨v.prune, v.encode⟩ world).1.map fun _ => c,
        { s with entries := s.entries ++ [(c, ⟨v.prune, v.encode⟩)] },
        (s.announce c ⟨v.prune, v.encode⟩ world).2)
  /-- and leaves a payload with this text. -/
  restoredAgain : ∀ {ω : Type} (s : Payloads ω) (world : ω) {p : Payload}, s.find? c = some p →
    p.encoding.canonical = .ok text → Payloads.restore v.encode (s, world) = (.ok c, s, world)
  /-- The file of the payload holds the text as a line. -/
  saved : ∀ {dir : Path} {disk disk' : Disk}, disk.contains (commitmentFile dir c) = false →
    savePayload dir c ⟨v, v.encode⟩ disk = (.ok (), disk') →
    disk'.find? (commitmentFile dir c) = some (.file (line text).toUTF8)
  /-- Opening takes up such a file, whatever files were taken up before it. -/
  loaded : ∀ {dir : Path} {disk : Disk} {evaluator : Evaluator} {before : List String}
    {l : Ledger Disk}, disk.find? (commitmentFile dir c) = some (.file (line text).toUTF8) →
    (∀ name ∈ before, Path.isJsonName name = true) →
    loadPayloads disk dir before (.fresh evaluator disk) = (.ok (), l) →
    ∃ l', loadPayloads disk dir (before ++ [c.hex ++ ".json"]) (.fresh evaluator disk)
        = (.ok (), l') ∧ l'.payloads.find? c = some ⟨v.prune, v.encode⟩

section

variable {v : Value} {c : Commitment} {text : String} {evaluator : Evaluator}

theorem stands_of_file (hv : v.Regular) (hencoding : v.encodeStrict = .ok v.encode)
    (hc : commitmentOf v.encode = .ok c) (htext : v.encode.canonical = .ok text)
    (hfile : disk.find? (commitmentFile dir c) = some (.file (line text).toUTF8)) :
    Stands dir disk c ⟨v.prune, v.encode⟩ := by
  have hbytes : Disk.jsonLine v.encode = .ok (line text).toUTF8 :=
    Disk.jsonLine_eq_ok.2 ⟨text, htext, rfl⟩
  have hpayload : PayloadFile (c.hex ++ ".json") (.file (line text).toUTF8) c v v.encode :=
    ⟨rfl, hv, hencoding, hc, _, rfl, hbytes⟩
  exact hpayload.stands hfile

theorem load_file (hv : v.Regular) (hencoding : v.encodeStrict = .ok v.encode)
    (hc : commitmentOf v.encode = .ok c) (htext : v.encode.canonical = .ok text)
    (hfile : disk.find? (commitmentFile dir c) = some (.file (line text).toUTF8))
    {before : List String} (hbefore : ∀ name ∈ before, Path.isJsonName name = true)
    {l : Ledger Disk} (h : loadPayloads disk dir before (.fresh evaluator disk) = (.ok (), l)) :
    ∃ l', loadPayloads disk dir (before ++ [c.hex ++ ".json"]) (.fresh evaluator disk)
        = (.ok (), l') ∧ l'.payloads.find? c = some ⟨v.prune, v.encode⟩ := by
  have hl : Restored dir disk l.payloads := restored_empty.of_loadPayloads hbefore h
  have hstands := stands_of_file hv hencoding hc htext hfile
  have hname : ∀ name ∈ [c.hex ++ ".json"], ∃ c p, name = c.hex ++ ".json" ∧
      Stands dir disk c p := by
    intro name hname
    exact ⟨c, _, List.mem_singleton.1 hname, hstands⟩
  obtain ⟨s, hload, hs, hfind⟩ := loadPayloads_eq hname hl
  refine ⟨{ l with payloads := s }, (loadPayloads_append h).trans hload, ?_⟩
  obtain ⟨p, hp⟩ : ∃ p, s.find? c = some p := by
    rw [← Option.isSome_iff_exists, hfind, decide_eq_true (List.mem_singleton.2 rfl),
      Bool.or_true]
  rw [hp, hstands.unique (hs.stands _ (Store.mem_of_findEntry? hp))]

end

/-- What was committed is read back: the text of a committed value, its file and the tree in
it stand for the encoding and the commitment that the value was given. -/
theorem commit_roundTrips {ω : Type} {v : Value} {c : Commitment} {s s' : Payloads ω × ω}
    (hv : v.Regular) (h : Payloads.commit v s = (.ok c, s')) :
    v.encodeStrict = .ok v.encode ∧ commitmentOf v.encode = .ok c ∧
      ∃ text, RoundTrips v c text := by
  obtain ⟨x, hx, hc⟩ := bind_eq_ok.1 (Payloads.commit_eq_ok h).1
  obtain ⟨hdepth, hs, rfl⟩ := Value.encodeStrict_eq_ok.1 hx
  have hsettled := Value.settled_encode hv
  obtain ⟨text, htext⟩ := exists_canonical_of_commitmentOf hc
  have hbound : v.encode.depth ≤ Json.textNestingLimit := Nat.le_trans hdepth (by decide)
  have hparse : ∀ {tail : String}, tail.toList.all Json.isLayout = true →
      Json.parse (text ++ tail) = .ok v.encode := by
    intro tail htail
    have hread := Json.parse_canonical htext hbound htail
    rwa [hsettled.canonicalForm_eq] at hread
  refine ⟨hx, hc, text, ?_⟩
  exact {
    canonical := htext
    parsed := by
      have hread := @hparse "" rfl
      rwa [String.append_empty] at hread
    parsedLine := @hparse "\n" (by decide)
    unique := fun hw hcanonical =>
      (Value.settled_encode hw).eq_of_canonical hsettled hcanonical htext
    restored := fun s world free => Payloads.restore_new hv hx hc free
    restoredAgain := fun s world _ taken hp => Payloads.restore_taken hv hx hc htext taken hp
    saved := by
      intro dir disk disk' habsent hsave
      rw [savePayload, habsent, if_neg Bool.false_ne_true] at hsave
      obtain ⟨bytes, hbytes, _, _, hfile⟩ := Disk.saveJson_eq_ok (by simp [commitmentFile]) hsave
      obtain ⟨saved, hsaved, rfl⟩ := Disk.jsonLine_eq_ok.1 hbytes
      obtain rfl : saved = text := Except.ok.inj (hsaved.symm.trans htext)
      exact hfile
    loaded := fun hfile hbefore hload => load_file hv hx hc htext hfile hbefore hload }

/-- A function with a binding more than it needs. -/
def constantly : Value :=
  .closure ["x"] (.sym "y") [("y", .str "\u00e9\n"), ("z", .nil)]

theorem regular_constantly : constantly.Regular := by
  have hx : ∀ p ∈ ["x"], IsNormal p := List.forall_mem_singleton.2 (by decide)
  have hy : IsNormal "y" := by decide
  have hz : IsNormal "z" := by decide
  have htext : IsNormal "\u00e9\n" := by decide
  have hsorted : Keyed.IsSorted [("y", Value.str "\u00e9\n"), ("z", .nil)] :=
    List.pairwise_pair.2 (by decide)
  exact ⟨hx, hy, hsorted, ⟨hy, htext⟩, ⟨hz, trivial⟩, trivial⟩

theorem commit_roundTrips_constantly :
    ∃ c s text, Payloads.commit constantly ((Store.empty : Payloads Unit), ()) = (.ok c, s) ∧
      RoundTrips constantly c text := by
  have hencoding : constantly.encodeStrict = .ok constantly.encode := rfl
  obtain ⟨c, hc⟩ : ∃ c, commitmentOf constantly.encode = .ok c :=
    exists_commitmentOf (Json.canonical_eq_ok.2 ⟨rfl, (rfl : Json.integersFit _ = true), rfl⟩)
  have hcommit : Payloads.commit constantly ((Store.empty : Payloads Unit), ())
      = (.ok c, ⟨[(c, ⟨constantly, constantly.encode⟩)], []⟩, ()) :=
    Payloads.commit_new hencoding hc rfl ()
  obtain ⟨_, _, text, htext⟩ := commit_roundTrips regular_constantly hcommit
  exact ⟨c, _, text, hcommit, htext⟩

end Archive

end CommitChain
