import CommitChain.Proofs.Proof.HashFold

/-!
# What portions keep of the frames

A portion is hashed with its circuit and with the digests of its frames, the rows.  Frames that lead
nowhere fill portions up; where no frame of a trace does so, the rows of the portions that lead
somewhere are those of the frames (`filter_rows_portions`).  With one circuit for each family the
rows of numbered frames are all there is to them (`eq_of_rows`).
-/

namespace CommitChain

open CommitChain.Hash

/-- The circuit of a frame and the digests of the machine before and after it. -/
abbrev Row := Nat × Digest × Digest

namespace Row

def ofFrame (circuit : Nat) (f : Frame) : Row :=
  (circuit, f.input, f.output)

/-- Whether the machine is in another state behind the frame. -/
def Moves (r : Row) : Prop :=
  r.2.1 ≠ r.2.2

instance (r : Row) : Decidable r.Moves :=
  inferInstanceAs (Decidable (_ ≠ _))

end Row

namespace Portion

def rows (p : Portion) : List Row :=
  p.frames.map (Row.ofFrame p.circuit)

/-- The tree of the digests of a frame. -/
def pairJson (digests : Digest × Digest) : Json :=
  .arr [.str digests.1.hex, .str digests.2.hex]

theorem pairJson_injective : Function.Injective pairJson := by
  rintro ⟨z, w⟩ ⟨z', w'⟩ h
  simp only [pairJson, Json.arr.injEq, List.cons.injEq, Json.str.injEq, and_true] at h
  rw [Digest.hex_inj.1 h.1, Digest.hex_inj.1 h.2]

/-- The trees of digests of frames are told by their canonical form. -/
theorem eq_of_canonicalForm_pairs {ds ds' : List (Digest × Digest)}
    (h : (Json.arr (ds.map pairJson)).canonicalForm = (Json.arr (ds'.map pairJson)).canonicalForm) :
    ds = ds' := by
  have hpair : ∀ digests, (pairJson digests).Settled := by
    intro digests
    refine .arr ?_
    simp only [List.forall_mem_cons, List.not_mem_nil, false_imp_iff, implies_true, and_true]
    exact ⟨.str (Digest.isNormal_hex _), .str (Digest.isNormal_hex _)⟩
  have hform : ∀ ds : List (Digest × Digest),
      (Json.arr (ds.map pairJson)).canonicalForm = .arr (ds.map pairJson) := fun ds =>
    Json.Settled.canonicalForm_eq (.arr (List.forall_mem_map.2 fun digests _ => hpair digests))
  rw [hform, hform, Json.arr.injEq] at h
  exact List.map_injective_iff.2 pairJson_injective h

/-- The digests of the frames of a portion. -/
def digests (p : Portion) : List (Digest × Digest) :=
  p.frames.map fun f => (f.input, f.output)

theorem framesJson_eq (p : Portion) :
    (p.frames.map fun f => Json.arr [.str f.input.hex, .str f.output.hex])
      = p.digests.map pairJson := by
  rw [digests, List.map_map]
  rfl

/-- Portions whose trees have one canonical form have the same rows. -/
theorem rows_eq {p q : Portion} (h : p.toJson.canonicalForm = q.toJson.canonicalForm) :
    p.rows = q.rows := by
  have hnames : ∀ c n f : Json,
      Json.Distinct ([("circuit", c), ("next", n), ("frames", f)].map Prod.fst) :=
    fun _ _ _ => (by decide : Json.Distinct ["circuit", "next", "frames"])
  rw [toJson, toJson, framesJson_eq, framesJson_eq] at h
  have hfind := Json.find?_of_canonicalForm_eq (hnames _ _ _) (hnames _ _ _) h
  have hcircuit : p.circuit = q.circuit := by
    have hint : (p.circuit : Int) = q.circuit := by
      simpa [Keyed.find?, Json.canonicalForm_int] using hfind "circuit"
    exact Int.ofNat.inj hint
  have hdigests : p.digests = q.digests :=
    eq_of_canonicalForm_pairs (by simpa [Keyed.find?] using hfind "frames")
  have hrows : ∀ r : Portion, r.rows = r.digests.map (Prod.mk r.circuit) := by
    intro r
    rw [rows, digests, List.map_map]
    rfl
  rw [hrows, hrows, hcircuit, hdigests]

end Portion

namespace Folding

/-! ## The rows of portions -/

/-- The rows of a portion that lead somewhere are those of the frames that it was filled up from. -/
theorem filter_rows_filled (f : Folding) {p : Portion} (h : ∀ g ∈ p.frames, g.input ≠ g.output) :
    (f.filled p).rows.filter (fun r => r.Moves) = p.frames.map (Row.ofFrame p.circuit) := by
  have hmoves : (p.frames.map (Row.ofFrame p.circuit)).filter (fun r => r.Moves)
      = p.frames.map (Row.ofFrame p.circuit) :=
    List.filter_eq_self.2 (List.forall_mem_map.2 fun g hg => decide_eq_true (h g hg))
  have hidle : ∀ n g, ((List.replicate n (idle g)).map (Row.ofFrame p.circuit)).filter
      (fun r => r.Moves) = [] := by
    intro n g
    refine List.filter_eq_nil_iff.2 (List.forall_mem_map.2 fun g' hg' => ?_)
    obtain rfl := List.eq_of_mem_replicate hg'
    simp [Row.Moves, Row.ofFrame, idle]
  have hrows : (f.filled p).rows = (f.filled p).frames.map (Row.ofFrame p.circuit) := rfl
  rw [hrows, frames_filled, List.map_append, List.filter_append, hmoves, hidle, List.append_nil]

theorem filter_rows_parts (f : Folding) {cs : List (Nat × Frame)}
    (h : ∀ p ∈ cs, p.2.input ≠ p.2.output) :
    ((f.parts cs).flatMap Portion.rows).filter (fun r => r.Moves)
      = cs.map fun p => Row.ofFrame p.1 p.2 := by
  have hrows : ∀ p ∈ f.cuts cs, (f.filled p).rows.filter (fun r => r.Moves)
      = p.frames.map (Row.ofFrame p.circuit) := fun p hp =>
    f.filter_rows_filled fun g hg => h _ (mem_of_mem_cuts hp hg)
  rw [parts_eq, List.flatMap_map, List.filter_flatMap, List.flatMap_congr hrows]
  conv_rhs => rw [← f.flatMap_cuts_mk cs, List.map_flatMap]
  simp only [List.map_map]
  rfl

/-- Where every frame leads somewhere, the rows of the portions that lead somewhere are those of the
frames on their circuits. -/
theorem filter_rows_portions (f : Folding) {frames : List Frame} {circuits : List Nat}
    (h : ∀ frame ∈ frames, frame.input ≠ frame.output) :
    ((linkPortions (f.parts (circuits.zip frames))).flatMap Portion.rows).filter (fun r => r.Moves)
      = (circuits.zip frames).map fun p => Row.ofFrame p.1 p.2 := by
  rw [flatMap_linkPortions fun _ _ => rfl]
  exact f.filter_rows_parts fun p hp => h p.2 (List.of_mem_zip hp).2

/-! ## Frames from rows -/

/-- With several circuits each family has one of its own. -/
theorem circuit_inj {f : Folding} (hk : f.kind = .several) {x y : String} {c : Nat}
    (hx : f.circuit x = .ok c) (hy : f.circuit y = .ok c) : x = y := by
  have name : ∀ {z : String}, f.circuit z = .ok c →
      (Family.core.name :: Family.special.map Family.name)[c]? = some z := by
    intro z hz
    rw [circuit, hk] at hz
    dsimp only at hz
    split at hz
    next hcore =>
      cases hz
      exact congrArg some hcore.symm
    next =>
      split at hz
      next i hi =>
        cases hz
        obtain ⟨hlt, hname, _⟩ := List.findIdx?_eq_some_iff_getElem.1 hi
        rw [List.getElem?_cons_succ, List.getElem?_map, List.getElem?_eq_getElem hlt,
          Option.map_some, of_decide_eq_true hname]
      next => exact absurd hz (by simp)
  exact Option.some.inj ((name hx).symm.trans (name hy))

/-- Numbered frames are told by their rows. -/
theorem eq_of_rows {f : Folding} (hk : f.kind = .several) {fs gs : List Frame} {cs ds : List Nat}
    (hf : List.Forall₂ (fun frame c => f.circuit frame.family = .ok c) fs cs)
    (hg : List.Forall₂ (fun frame c => f.circuit frame.family = .ok c) gs ds) {start : Nat}
    (hnf : fs.map Frame.index = List.range' start fs.length)
    (hng : gs.map Frame.index = List.range' start gs.length)
    (h : ((cs.zip fs).map fun p => Row.ofFrame p.1 p.2)
      = (ds.zip gs).map fun p => Row.ofFrame p.1 p.2) : fs = gs := by
  induction hf generalizing gs ds start with
  | nil =>
    cases hg with
    | nil => rfl
    | cons => exact absurd h (by simp)
  | @cons f₁ c fs cs hc hf ih =>
    cases hg with
    | nil => exact absurd h (by simp)
    | @cons g₁ d gs ds hd hg =>
      simp only [List.zip_cons_cons, List.map_cons, List.cons.injEq, Row.ofFrame,
        Prod.mk.injEq] at h
      obtain ⟨⟨rfl, hinput, houtput⟩, hrest⟩ := h
      simp only [List.map_cons, List.length_cons, List.range'_succ, List.cons.injEq] at hnf hng
      have hframe : f₁ = g₁ := by
        have hfamily := circuit_inj hk hc hd
        obtain ⟨i, z, w, family⟩ := f₁
        obtain ⟨j, z', w', family'⟩ := g₁
        exact Frame.mk.injEq .. ▸ ⟨hnf.1.trans hng.1.symm, hinput, houtput, hfamily⟩
      rw [hframe, ih hg hnf.2 hng.2 hrest]

end Folding

end CommitChain
