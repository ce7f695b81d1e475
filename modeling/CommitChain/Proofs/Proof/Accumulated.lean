import CommitChain.Proofs.Hash.Framed
import CommitChain.Proofs.Proof.Rows

/-!
# What an accumulator binds

With one circuit for each family an accumulator tells the frames that were folded into it, where
each of them leads somewhere, unless two different byte strings that are hashed in the folding have
one digest (`accumulator_binds_trace`).
-/

namespace CommitChain

open CommitChain.Hash CommitChain.Text

namespace HashFold

/-! ## What is hashed in a folding -/

/-- The byte string that is hashed last when portions are accumulated, and those before it, the
latest one first. -/
inductive Folded (params z0 : Digest) : List Portion → ByteArray → List ByteArray → Prop
  | start : Folded params z0 [] (framed foldDomain [hexBytes params, hexBytes z0]) []
  | portion {ps : List Portion} {p : Portion} {m : ByteArray} {ms : List ByteArray} {text : String}
      (before : Folded params z0 ps m ms) (h : p.toJson.canonical = .ok text) :
      Folded params z0 (ps ++ [p]) (framed foldDomain [(sha256 m).bytes, text.toUTF8]) (m :: ms)

variable {params params' z0 z0' : Digest} {ps ps' : List Portion} {m m' : ByteArray}
  {ms ms' : List ByteArray}

/-- The accumulator is the digest of what is hashed last. -/
theorem folded_of_accumulateAll {before acc d : Digest} {index : Nat}
    (h : accumulateAll acc before index ps' = .ok d) (hf : Folded params z0 ps m ms)
    (hm : sha256 m = acc) :
    ∃ m' ms', Folded params z0 (ps ++ ps') m' ms' ∧ sha256 m' = d := by
  induction ps' generalizing acc before index ps m ms with
  | nil => exact ⟨m, ms, by rwa [List.append_nil], hm.trans (Except.ok.inj h)⟩
  | cons p rest ih =>
    unfold accumulateAll at h
    obtain ⟨_, h⟩ := stop_eq_ok.1 h
    obtain ⟨_, h⟩ := need_eq_ok.1 h
    obtain ⟨next, hnext, h⟩ := bind_eq_ok.1 h
    obtain ⟨bytes, hbytes, hnext⟩ := bind_eq_ok.1 (orFail_eq_ok.1 hnext)
    obtain ⟨text, htext, rfl⟩ := map_eq_ok.1 hbytes
    have hdigest : sha256 (framed foldDomain [(sha256 m).bytes, text.toUTF8]) = next := by
      rw [hm]
      exact Except.ok.inj hnext
    obtain ⟨m', ms', hfolded, hd⟩ := ih h (hf.portion htext) hdigest
    exact ⟨m', ms', by rwa [List.append_assoc] at hfolded, hd⟩

/-! ## Going back from an accumulator -/

/-- The two parts of what is hashed in a folding. -/
theorem framed_fold_inj {a b x y : ByteArray} (ha : a.size ≤ 64) (hb : b.size ≤ 64)
    (h : framed foldDomain [a, x] = framed foldDomain [b, y]) : a = b ∧ x = y := by
  have hshort : ∀ {c x : ByteArray}, c.size ≤ 64 → ∀ part ∈ [c, x].dropLast, Short part := by
    intro c x hc part hpart
    obtain rfl := List.mem_singleton.1 hpart
    exact Nat.lt_of_le_of_lt hc (by decide)
  simpa using framed_inj (by rfl) (hshort ha) (hshort hb) h

theorem size_bytes_le (d : Digest) : d.bytes.size ≤ 64 :=
  d.size_eq ▸ by decide

/-- The start of a folding is no portion of another: it begins with the text of a digest, and a
portion with the bytes of one. -/
theorem start_ne_portion {d : Digest} {x y : ByteArray} :
    framed foldDomain [hexBytes params, x] ≠ framed foldDomain [d.bytes, y] := by
  intro h
  have hparts := framed_fold_inj (Nat.le_of_eq (size_hexBytes params)) (size_bytes_le d) h
  have hsize := congrArg ByteArray.size hparts.1
  rw [size_hexBytes, d.size_eq] at hsize
  exact absurd hsize (by decide)

/-- Foldings that end in one accumulator are of portions with the same rows, unless what is hashed
in them collides. -/
theorem Folded.rows_eq_or_collide (h : Folded params z0 ps m ms)
    (h' : Folded params' z0' ps' m' ms') (hd : sha256 m = sha256 m') :
    ps.map Portion.rows = ps'.map Portion.rows ∨ Collide (· ∈ m :: ms) (· ∈ m' :: ms') := by
  -- what is hashed last is the same on both sides, so the digests before it are, and so on back
  induction h generalizing ps' m' ms' with
  | start =>
    refine (eq_or_collide List.mem_cons_self List.mem_cons_self hd).imp_left fun heq => ?_
    cases h' with
    | start => rfl
    | portion before hp => exact absurd heq start_ne_portion
  | portion before hp ih =>
    rcases eq_or_collide List.mem_cons_self List.mem_cons_self hd with heq | hcollide
    swap
    · exact .inr hcollide
    cases h' with
    | start => exact absurd heq.symm start_ne_portion
    | portion before' hp' =>
      obtain ⟨hbytes, htext⟩ := framed_fold_inj (size_bytes_le _) (size_bytes_le _) heq
      have htext := String.toByteArray_inj.1 htext
      have hrows := Portion.rows_eq (Json.canonicalForm_eq_of_canonical hp (htext ▸ hp'))
      refine (ih before' (Digest.ext hbytes)).imp (fun hall => ?_) fun hcollide =>
        hcollide.mono (fun _ => List.mem_cons_of_mem _) fun _ => List.mem_cons_of_mem _
      rw [List.map_append, List.map_append, hall, List.map_singleton, List.map_singleton, hrows]

/-! ## Traces that were folded -/

/-- The byte strings that are hashed in the folding of a trace under public parameters. -/
def Folds (b : HashFold) (t : Trace) (params z0 : Digest) (bytes : ByteArray) : Prop :=
  ∃ ps m ms, b.folding.portions t.frames = .ok ps ∧ Folded params z0 ps m ms ∧ bytes ∈ m :: ms

variable {b b' : HashFold} {c d : Claim} {t u : Trace} {a a' : ProofArtifact}
  {bytes bytes' : ByteArray}

/-- Traces that were folded into one accumulator have the same frames, where no frame ends where it
starts and each family has a circuit of its own, unless what is hashed in the foldings collides. -/
theorem Made.frames_eq_or_collide (h : b.Made c t a) (h' : b'.Made d u a')
    (hf : b'.folding = b.folding) (hk : b.folding.kind = .several)
    (ht : ∀ f ∈ t.frames, f.input ≠ f.output) (hu : ∀ f ∈ u.frames, f.input ≠ f.output)
    (hacc : a.accumulator = a'.accumulator) :
    t.frames = u.frames ∨ Collide (b.Folds t a.params a.z0) (b'.Folds u a'.params a'.z0) := by
  obtain ⟨ps, hps, _, hfold⟩ := h.folded
  obtain ⟨ps', hps', _, hfold'⟩ := h'.folded
  obtain ⟨m, ms, hfolded, hm⟩ := folded_of_accumulateAll hfold .start rfl
  obtain ⟨m', ms', hfolded', hm'⟩ := folded_of_accumulateAll hfold' .start rfl
  rw [List.nil_append] at hfolded hfolded'
  refine (hfolded.rows_eq_or_collide hfolded' (hm.trans (hacc.trans hm'.symm))).imp
    (fun hrows => ?_) fun hcollide => hcollide.mono (fun _ hmem => ⟨ps, m, ms, hps, hfolded, hmem⟩)
      fun _ hmem => ⟨ps', m', ms', hps', hfolded', hmem⟩
  rw [hf] at hps'
  obtain ⟨circuits, hcs, rfl⟩ := Folding.portions_eq_ok hps
  obtain ⟨circuits', hcs', rfl⟩ := Folding.portions_eq_ok hps'
  refine Folding.eq_of_rows hk hcs hcs' h.accepted.numbered h'.accepted.numbered ?_
  rw [← b.folding.filter_rows_portions ht, ← b.folding.filter_rows_portions hu,
    List.flatMap_def, hrows, ← List.flatMap_def]

/-- An accumulator binds the trace: with one circuit for each family, traces without frames that end
where they start have the same frames if the artifacts of their proofs have one accumulator, unless
two different byte strings that are hashed in the foldings have one digest. -/
theorem accumulator_binds_trace (hc : c.Valid) (hd : d.Valid) (hf : b'.folding = b.folding)
    (hk : b.folding.kind = .several) (ht : ∀ f ∈ t.frames, f.input ≠ f.output)
    (hu : ∀ f ∈ u.frames, f.input ≠ f.output) (h : b.prove c t = .ok bytes)
    (h' : b'.prove d u = .ok bytes') (ha : ProofArtifact.ofBytes bytes = .ok a)
    (ha' : ProofArtifact.ofBytes bytes' = .ok a') (hacc : a.accumulator = a'.accumulator) :
    t.frames = u.frames ∨ Collide (b.Folds t a.params a.z0) (b'.Folds u a'.params a'.z0) := by
  obtain ⟨made, hmade, hbytes⟩ := prove_eq_ok_iff.1 h
  obtain ⟨made', hmade', hbytes'⟩ := prove_eq_ok_iff.1 h'
  rw [(hmade.valid hc).ofBytes hbytes] at ha
  rw [(hmade'.valid hd).ofBytes hbytes'] at ha'
  cases ha
  cases ha'
  -- settling an artifact changes its claim only
  have hframes := hmade.frames_eq_or_collide hmade' hf hk ht hu hacc
  exact hframes

theorem size_replicate (byte : UInt8) : (List.replicate 32 byte).toByteArray.size = 32 := by
  rw [List.size_toByteArray, List.length_replicate]

/-- There is a digest besides any two. -/
theorem exists_other_digest (z w : Digest) : ∃ m, m ≠ z ∧ m ≠ w := by
  obtain ⟨d₀, d₁, d₂, h₀₁, h₀₂, h₁₂⟩ :
      ∃ d₀ d₁ d₂ : Digest, d₀ ≠ d₁ ∧ d₀ ≠ d₂ ∧ d₁ ≠ d₂ :=
    ⟨⟨_, size_replicate 0⟩, ⟨_, size_replicate 1⟩, ⟨_, size_replicate 2⟩, by decide⟩
  by_contra hnone
  have h₀ := not_exists.1 hnone d₀
  have h₁ := not_exists.1 hnone d₁
  have h₂ := not_exists.1 hnone d₂
  grind

/-- There are traces without frames that end where they start and proofs of them. -/
theorem accumulator_binds_moving_trace : ∃ (b : HashFold) (c : Claim) (t u : Trace)
    (bytes bytes' : ByteArray) (a a' : ProofArtifact), c.Valid ∧ b.folding.kind = .several ∧
      (∀ f ∈ t.frames, f.input ≠ f.output) ∧ (∀ f ∈ u.frames, f.input ≠ f.output) ∧
      b.prove c t = .ok bytes ∧ b.prove c u = .ok bytes' ∧ ProofArtifact.ofBytes bytes = .ok a ∧
      ProofArtifact.ofBytes bytes' = .ok a' ∧ a.accumulator = a'.accumulator ∧
      (t.frames = u.frames ∨ Collide (b.Folds t a.params a.z0) (b.Folds u a'.params a'.z0)) := by
  obtain ⟨c, z, w, result, hc, _, _, hproved⟩ := exists_proved (encodes_str "")
  obtain ⟨m, hz, hw⟩ := exists_other_digest z w
  obtain ⟨bytes, hprove⟩ := hproved m
  obtain ⟨a, hmade, hbytes⟩ := prove_eq_ok_iff.1 hprove
  have hread := (hmade.valid hc).ofBytes hbytes
  have hmoves : ∀ f ∈ coreFrames z m w, f.input ≠ f.output :=
    forall_mem_coreFrames.2 ⟨hz.symm, hw⟩
  exact ⟨{}, c, _, _, bytes, bytes, _, _, hc, rfl, hmoves, hmoves, hprove, hprove, hread, hread,
    rfl, accumulator_binds_trace hc hc rfl rfl hmoves hmoves hprove hprove hread hread rfl⟩

end HashFold

end CommitChain
