import CommitChain.Proofs.Proof.Folding
import Mathlib.Data.List.Chain

/-!
# Portions are a partition of the trace

Frames are grouped by circuits, and the groups are cut into pieces.  Neighbouring groups are on
different circuits (`isChain_groups`), and only the last piece of a group can be short
(`isChain_pieces`), so a piece is full or the next one is on another circuit (`isChain_cuts`).  A
portion is a piece with the idle frames that it lacks: the frames of the trace come back, in their
order, when these are dropped (`exists_partition`).
-/

namespace CommitChain

open CommitChain.Hash

namespace Folding

/-- A portion together with the frames of the trace that it takes. -/
abbrev Part := Portion × List Frame

/-- A portion takes some frames if they are on its circuit and it has nothing else than idle frames
behind them, up to its size.  Only on circuit zero there can be any. -/
structure Takes (f : Folding) (p : Portion) (own : List Frame) : Prop where
  frames : ∃ last ∈ own.getLast?,
    p.frames = own ++ List.replicate (p.frames.length - own.length) (idle last)
  circuit : ∀ frame ∈ p.frames, f.circuit frame.family = .ok p.circuit
  size : p.frames.length = if p.circuit = 0 then f.portion else 1
  full : p.circuit ≠ 0 → p.frames = own

/-- The parts share out the frames in their order.  Idle frames fill up a portion on circuit zero
only if the next one is not on it.  Each portion starts where the one before it ended and knows the
circuit of the one behind it, which is zero behind the last. -/
structure Partition (f : Folding) (frames : List Frame) (parts : List Part) : Prop where
  nonempty : parts ≠ []
  whole : parts.flatMap Prod.snd = frames
  takes : ∀ part ∈ parts, f.Takes part.1 part.2
  full : parts.IsChain fun a b => a.1.circuit = 0 → b.1.circuit = 0 → a.1.frames = a.2
  linked : parts.IsChain fun a b => a.1.output = b.1.input
  next : parts.IsChain fun a b => a.1.next = b.1.circuit
  last : ∀ part ∈ parts.getLast?, part.1.next = 0
  input : ∀ part ∈ parts.head?, ∀ frame ∈ frames.head?, part.1.input = frame.input
  output : ∀ part ∈ parts.getLast?, ∀ frame ∈ frames.getLast?, part.1.output = frame.output

/-! ## Groups and pieces -/

/-- Neighbouring groups are on different circuits. -/
theorem isChain_groups (cs : List (Nat × Frame)) :
    (groups cs).IsChain fun g h => g.1 ≠ h.1 := by
  induction cs with
  | nil => exact .nil
  | cons p rest ih =>
    obtain ⟨c, f⟩ := p
    rw [groups]
    split
    next d fs gs hg =>
      rw [hg] at ih
      split
      next hcd =>
        subst hcd
        cases gs with
        | nil => exact .singleton _
        | cons g gs => exact List.isChain_cons_cons.2 (List.isChain_cons_cons.1 ih)
      next hcd => exact List.isChain_cons_cons.2 ⟨hcd, ih⟩
    next => exact .singleton _

theorem pieces_ne_nil (size : Nat) {fs : List Frame} (h : fs ≠ []) :
    pieces size fs.length fs ≠ [] := by
  cases fs with
  | nil => exact absurd rfl h
  | cons f fs => exact List.cons_ne_nil _ _

theorem length_of_mem_pieces {size fuel : Nat} (hsize : 0 < size) {fs : List Frame}
    {piece : Frame × List Frame} (h : piece ∈ pieces size fuel fs) :
    (piece.1 :: piece.2).length ≤ size := by
  induction fuel generalizing fs with
  | zero => exact absurd h List.not_mem_nil
  | succ fuel ih =>
    cases fs with
    | nil => exact absurd h List.not_mem_nil
    | cons f fs =>
      rcases List.mem_cons.1 h with rfl | h
      · rw [List.length_cons, List.length_take]
        omega
      · exact ih h

/-- All pieces but the last one have the full size. -/
theorem isChain_pieces {size : Nat} (hsize : 0 < size) (fuel : Nat) (fs : List Frame) :
    (pieces size fuel fs).IsChain fun p _ => (p.1 :: p.2).length = size := by
  induction fuel generalizing fs with
  | zero => exact .nil
  | succ fuel ih =>
    cases fs with
    | nil => exact .nil
    | cons f fs =>
      rw [pieces]
      refine (ih _).cons fun next hnext => ?_
      have hrest : fs.drop (size - 1) ≠ [] := by
        intro hnil
        rw [hnil] at hnext
        cases fuel <;> cases hnext
      have hlt : size - 1 < fs.length :=
        Nat.lt_of_not_le fun hle => hrest (List.drop_eq_nil_of_le hle)
      rw [List.length_cons, List.length_take]
      omega

/-! ## Cuts -/

theorem portionSize_pos (f : Folding) (c : Nat) : 0 < f.portionSize c := by
  rw [portionSize]
  split
  · exact f.portion_pos
  · exact Nat.one_pos

theorem length_of_mem_cuts {f : Folding} {cs : List (Nat × Frame)} {p : Portion}
    (h : p ∈ f.cuts cs) : p.frames.length ≤ f.portionSize p.circuit := by
  obtain ⟨g, -, hp⟩ := List.mem_flatMap.1 h
  obtain ⟨piece, hpiece, rfl⟩ := List.mem_map.1 hp
  exact length_of_mem_pieces (f.portionSize_pos g.1) hpiece

/-- A cut has the full size, or the next one is on another circuit. -/
theorem isChain_cuts (f : Folding) (cs : List (Nat × Frame)) :
    (f.cuts cs).IsChain fun p q =>
      p.circuit = q.circuit → p.frames.length = f.portionSize p.circuit := by
  have hcircuit : ∀ {g : Nat × List Frame} {p : Portion},
      p ∈ (pieces (f.portionSize g.1) g.2.length g.2).map
        (fun piece => (⟨g.1, piece.1, piece.2, 0⟩ : Portion)) → p.circuit = g.1 := by
    intro g p hp
    obtain ⟨piece, -, rfl⟩ := List.mem_map.1 hp
    rfl
  have hne : [] ∉ (groups cs).map fun g =>
      (pieces (f.portionSize g.1) g.2.length g.2).map
        (fun piece => (⟨g.1, piece.1, piece.2, 0⟩ : Portion)) := by
    intro hnil
    obtain ⟨g, hg, hpieces⟩ := List.mem_map.1 hnil
    exact pieces_ne_nil _ (ne_nil_of_mem_groups hg) (List.map_eq_nil_iff.1 hpieces)
  rw [cuts, List.flatMap_def, List.isChain_flatten hne]
  constructor
  · intro l hl
    obtain ⟨g, -, rfl⟩ := List.mem_map.1 hl
    rw [List.isChain_map]
    exact (isChain_pieces (f.portionSize_pos g.1) _ _).imp fun _ _ hfull _ => hfull
  · rw [List.isChain_map]
    refine (isChain_groups cs).imp fun g h hgh p hp q hq heq => ?_
    rw [hcircuit (List.mem_of_getLast? hp), hcircuit (List.mem_of_head? hq)] at heq
    exact absurd heq hgh

/-! ## Filling up -/

theorem takes_filled {f : Folding} {p : Portion}
    (size : p.frames.length ≤ f.portionSize p.circuit)
    (circuit : ∀ frame ∈ p.frames, f.circuit frame.family = .ok p.circuit) :
    f.Takes (f.filled p) p.frames := by
  have hlength : (f.filled p).frames.length = f.portionSize p.circuit := by
    rw [frames_filled, List.length_append, List.length_replicate]
    omega
  refine {
    frames := ⟨p.last, getLast?_frames p, ?_⟩
    circuit := fun frame hframe => ?_
    size := hlength
    full := fun hspecial => ?_ }
  · rw [hlength]
    exact frames_filled f p
  · rw [frames_filled] at hframe
    rcases List.mem_append.1 hframe with hframe | hframe
    · exact circuit frame hframe
    · obtain ⟨-, rfl⟩ := List.mem_replicate.1 hframe
      exact circuit p.last (List.mem_of_getLast? (getLast?_frames p))
  · have hone : f.portionSize p.circuit = 1 := if_neg hspecial
    have hpos : 0 < p.frames.length := Nat.succ_pos _
    rw [frames_filled, Nat.sub_eq_zero_of_le (by omega), List.replicate_zero, List.append_nil]

/-! ## Linking -/

/-- Each portion filled up and told the circuit of the next, with its frames from before. -/
def linkParts (f : Folding) : List Portion → List Part
  | [] => []
  | [p] => [(f.filled p, p.frames)]
  | p :: q :: rest =>
    ({ f.filled p with next := q.circuit }, p.frames) :: linkParts f (q :: rest)

theorem map_fst_linkParts (f : Folding) (ps : List Portion) :
    (f.linkParts ps).map Prod.fst = linkPortions (ps.map f.filled) := by
  fun_induction linkParts f ps with
  | case1 => rfl
  | case2 p => rfl
  | case3 p q rest ih =>
    rw [List.map_cons, ih]
    rfl

theorem map_snd_linkParts (f : Folding) (ps : List Portion) :
    (f.linkParts ps).map Prod.snd = ps.map Portion.frames := by
  fun_induction linkParts f ps with
  | case1 => rfl
  | case2 p => rfl
  | case3 p q rest ih =>
    rw [List.map_cons, ih]
    rfl

theorem mem_linkParts {f : Folding} {ps : List Portion} {part : Part} (h : part ∈ f.linkParts ps) :
    ∃ p ∈ ps, ∃ next, part = ({ f.filled p with next := next }, p.frames) := by
  fun_induction linkParts f ps with
  | case1 => exact absurd h List.not_mem_nil
  | case2 p =>
    obtain rfl := List.mem_singleton.1 h
    exact ⟨p, List.mem_cons_self, 0, rfl⟩
  | case3 p q rest ih =>
    rcases List.mem_cons.1 h with rfl | h
    · exact ⟨p, List.mem_cons_self, q.circuit, rfl⟩
    · obtain ⟨r, hr, hpart⟩ := ih h
      exact ⟨r, List.mem_cons_of_mem _ hr, hpart⟩

theorem next_of_getLast?_linkParts {f : Folding} {ps : List Portion} {part : Part}
    (h : part ∈ (f.linkParts ps).getLast?) : part.1.next = 0 := by
  fun_induction linkParts f ps with
  | case1 => cases h
  | case2 p =>
    cases h
    rfl
  | case3 p q rest ih =>
    refine ih ?_
    cases rest <;> exact h

/-- What neighbouring portions have in common is left of them when they are linked. -/
theorem isChain_linkParts {f : Folding} {ps : List Portion} {R : Portion → Portion → Prop}
    {S : Part → Part → Prop} (h : ps.IsChain R)
    (hRS : ∀ p q next, R p q → S ({ f.filled p with next := q.circuit }, p.frames)
      ({ f.filled q with next := next }, q.frames)) : (f.linkParts ps).IsChain S := by
  fun_induction linkParts f ps with
  | case1 => exact .nil
  | case2 p => exact .singleton _
  | case3 p q rest ih =>
    obtain ⟨hpq, hrest⟩ := List.isChain_cons_cons.1 h
    have hlinked := ih hrest
    cases rest with
    | nil => exact List.isChain_cons_cons.2 ⟨hRS p q 0 hpq, hlinked⟩
    | cons r rest => exact List.isChain_cons_cons.2 ⟨hRS p q r.circuit hpq, hlinked⟩

/-- Portions that lead from one digest to another start and end there and in between where their
neighbours do. -/
theorem ends_of_leads {ps : List Portion} {z w : Digest}
    (h : Leads z (ps.flatMap Portion.frames) w) :
    (∀ p ∈ ps.head?, p.input = z) ∧ (∀ p ∈ ps.getLast?, p.output = w) ∧
      ps.IsChain fun p q => p.output = q.input := by
  induction ps generalizing z with
  | nil => exact ⟨nofun, nofun, .nil⟩
  | cons p rest ih =>
    rw [List.flatMap_cons] at h
    obtain ⟨m, hm, hw⟩ := leads_append.1 h
    obtain ⟨hinput, houtput, hchain⟩ := ih hw
    have hp : p.output = m := hm.output_getLast? _ (getLast?_frames p)
    refine ⟨fun q hq => ?_, fun q hq => ?_, hchain.cons fun q hq => hp.trans (hinput q hq).symm⟩
    · cases hq
      exact hm.1
    · cases rest with
      | nil =>
        cases hq
        exact hp.trans hw
      | cons r rest => exact houtput q hq

/-! ## The partition -/

/-- Linked frames that have circuits are folded into portions, which are a partition of them. -/
theorem exists_partition (f : Folding) {frames : List Frame} (nonempty : frames ≠ [])
    (linked : Linked frames) (circuits : ∀ frame ∈ frames, ∃ c, f.circuit frame.family = .ok c) :
    ∃ parts, f.portions frames = .ok (parts.map Prod.fst) ∧ f.Partition frames parts := by
  obtain ⟨ps, hps, -, -, hlead⟩ := f.exists_portions circuits
  obtain ⟨cs, hcs, hlinked⟩ := portions_eq_ok hps
  have hsnd : (cs.zip frames).map Prod.snd = frames := List.map_snd_zip (Nat.le_of_eq hcs.length_eq)
  have hfst : (f.linkParts (f.cuts (cs.zip frames))).map Prod.fst = ps := by
    rw [map_fst_linkParts, ← parts_eq, hlinked]
  have hne : f.linkParts (f.cuts (cs.zip frames)) ≠ [] := by
    intro hnil
    rw [hnil, List.map_nil] at hfst
    exact portions_ne_nil hps nonempty hfst.symm
  obtain ⟨first, others, rfl⟩ := List.exists_cons_of_ne_nil nonempty
  obtain ⟨w, hw⟩ := linked.leads
  obtain ⟨hinput, houtput, hchain⟩ := ends_of_leads (hlead hw)
  rw [← hfst, List.head?_map] at hinput
  rw [← hfst, List.getLast?_map] at houtput
  rw [← hfst, List.isChain_map] at hchain
  refine ⟨f.linkParts (f.cuts (cs.zip (first :: others))), by rw [hps, hfst], {
    nonempty := hne
    whole := ?_
    takes := fun part hpart => ?_
    full := isChain_linkParts (isChain_cuts f _) fun p q _ hfull hp hq => ?_
    linked := hchain
    next := isChain_linkParts (isChain_cuts f _) fun _ _ _ _ => rfl
    last := fun _ => next_of_getLast?_linkParts
    input := ?_
    output := ?_ }⟩
  · rw [List.flatMap_def, map_snd_linkParts, ← List.flatMap_def, flatMap_cuts, hsnd]
  · obtain ⟨p, hp, next, rfl⟩ := mem_linkParts hpart
    have htakes := takes_filled (length_of_mem_cuts hp) fun frame hframe =>
      List.forall₂_zip hcs.flip (mem_of_mem_cuts hp hframe)
    exact ⟨htakes.frames, htakes.circuit, htakes.size, htakes.full⟩
  · have hlength : p.frames.length = f.portionSize p.circuit := hfull (hp.trans hq.symm)
    show (f.filled p).frames = p.frames
    rw [frames_filled, hlength, Nat.sub_self, List.replicate_zero, List.append_nil]
  · rintro part hpart frame hframe
    cases hframe
    exact hinput _ (Option.mem_map_of_mem Prod.fst hpart)
  · intro part hpart frame hframe
    rw [hw.output_getLast? frame hframe]
    exact houtput _ (Option.mem_map_of_mem Prod.fst hpart)

/-- Three frames of the core, one of arithmetic and one more of the core. -/
def mixedFrames : List Frame :=
  let z := taggedDigest stateDomain []
  [⟨0, z, z, "core"⟩, ⟨1, z, z, "core"⟩, ⟨2, z, z, "core"⟩, ⟨3, z, z, "arith"⟩, ⟨4, z, z, "core"⟩]

/-- Several circuits and portions of two frames. -/
def byTwos : Folding :=
  ⟨.several, 2, by decide⟩

/-- Two of the portions are filled up. -/
theorem mixedFrames_partition : ∃ parts,
    byTwos.portions mixedFrames = .ok (parts.map Prod.fst) ∧
      byTwos.Partition mixedFrames parts ∧
      parts.map (fun part => (part.1.circuit, part.1.frames.length, part.1.next))
        = [(0, 2, 0), (0, 2, 1), (1, 1, 0), (0, 2, 0)] := by
  have nonempty : mixedFrames ≠ [] := List.cons_ne_nil _ _
  have linked : Linked mixedFrames := ⟨rfl, rfl, rfl, rfl, trivial⟩
  have circuits : ∀ frame ∈ mixedFrames, ∃ c, byTwos.circuit frame.family = .ok c := by
    simp only [mixedFrames, List.forall_mem_cons, List.not_mem_nil, false_imp_iff, implies_true,
      and_true]
    exact ⟨⟨0, rfl⟩, ⟨0, rfl⟩, ⟨0, rfl⟩, ⟨1, rfl⟩, ⟨0, rfl⟩⟩
  obtain ⟨parts, hparts, partition⟩ := exists_partition byTwos nonempty linked circuits
  refine ⟨parts, hparts, partition, ?_⟩
  have hshape : (byTwos.portions mixedFrames).map
      (List.map fun p => (p.circuit, p.frames.length, p.next))
        = .ok [(0, 2, 0), (0, 2, 1), (1, 1, 0), (0, 2, 0)] := rfl
  rw [hparts] at hshape
  have hmap := Except.ok.inj hshape
  rwa [List.map_map] at hmap

end Folding

end CommitChain
