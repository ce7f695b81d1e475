import CommitChain.Proof.Folding
import CommitChain.Proofs.Outcome
import CommitChain.Proofs.Trace
import Mathlib.Data.List.Basic

/-!
# Portions of a trace

Frames with their circuits are cut into portions (`cuts`), each is filled up with idle frames
(`filled`) and told the circuit of the next.  The portions of linked frames, idle frames included,
lead from the same start to the same end as the frames themselves, on circuits that exist
(`exists_portions`).
-/

namespace CommitChain

open CommitChain.Hash

namespace Folding

/-! ## Cutting -/

/-- Groups hold the frames with their circuits. -/
theorem flatMap_groups_mk (cs : List (Nat × Frame)) :
    ((groups cs).flatMap fun g => g.2.map (Prod.mk g.1)) = cs := by
  induction cs with
  | nil => rfl
  | cons p rest ih =>
    obtain ⟨c, f⟩ := p
    rw [groups]
    split
    next d fs gs hg =>
      rw [hg] at ih
      split
      next hcd =>
        obtain rfl := hcd
        exact congrArg (List.cons (c, f)) ih
      next => exact congrArg (List.cons (c, f)) ih
    next hg =>
      rw [hg] at ih
      rw [← ih]
      rfl

/-- A group holds at least one frame. -/
theorem ne_nil_of_mem_groups {cs : List (Nat × Frame)} {g : Nat × List Frame}
    (h : g ∈ groups cs) : g.2 ≠ [] := by
  induction cs generalizing g with
  | nil => exact absurd h List.not_mem_nil
  | cons p rest ih =>
    obtain ⟨c, f⟩ := p
    rw [groups] at h
    split at h
    next d fs gs hg =>
      rw [hg] at ih
      split at h
      · rcases List.mem_cons.1 h with rfl | h
        · exact List.cons_ne_nil f fs
        · exact ih (List.mem_cons_of_mem _ h)
      · rcases List.mem_cons.1 h with rfl | h
        · exact List.cons_ne_nil f []
        · exact ih h
    next =>
      obtain rfl := List.mem_singleton.1 h
      exact List.cons_ne_nil f []

theorem flatMap_pieces (size : Nat) {fuel : Nat} {fs : List Frame} (hf : fs.length ≤ fuel) :
    (pieces size fuel fs).flatMap (fun p => p.1 :: p.2) = fs := by
  induction fuel generalizing fs with
  | zero =>
    obtain rfl := List.length_eq_zero_iff.1 (Nat.le_zero.1 hf)
    rfl
  | succ fuel ih =>
    cases fs with
    | nil => rfl
    | cons f fs =>
      have hlen : (fs.drop (size - 1)).length ≤ fuel := by
        rw [List.length_cons] at hf
        rw [List.length_drop]
        omega
      rw [pieces, List.flatMap_cons, ih hlen, List.cons_append, List.take_append_drop]

/-- The portions before they are filled up. -/
def cuts (f : Folding) (cs : List (Nat × Frame)) : List Portion :=
  (groups cs).flatMap fun g =>
    (pieces (f.portionSize g.1) g.2.length g.2).map fun piece => ⟨g.1, piece.1, piece.2, 0⟩

/-- Cuts hold the frames with their circuits. -/
theorem flatMap_cuts_mk (f : Folding) (cs : List (Nat × Frame)) :
    ((f.cuts cs).flatMap fun p => p.frames.map (Prod.mk p.circuit)) = cs := by
  conv_rhs => rw [← flatMap_groups_mk cs]
  rw [cuts, List.flatMap_assoc]
  refine List.flatMap_congr fun g _ => ?_
  conv_rhs => rw [← flatMap_pieces (f.portionSize g.1) (Nat.le_refl g.2.length), List.map_flatMap]
  rw [List.flatMap_map]
  rfl

theorem flatMap_cuts (f : Folding) (cs : List (Nat × Frame)) :
    (f.cuts cs).flatMap Portion.frames = cs.map Prod.snd := by
  conv_rhs => rw [← flatMap_cuts_mk f cs, List.map_flatMap]
  refine List.flatMap_congr fun p _ => ?_
  rw [List.map_map]
  exact (List.map_id _).symm

/-- The frames of a cut are on its circuit. -/
theorem mem_of_mem_cuts {f : Folding} {cs : List (Nat × Frame)} {p : Portion} (h : p ∈ f.cuts cs)
    {frame : Frame} (hframe : frame ∈ p.frames) : (p.circuit, frame) ∈ cs := by
  rw [← flatMap_cuts_mk f cs]
  exact List.mem_flatMap.2 ⟨p, h, List.mem_map_of_mem hframe⟩

theorem length_le_length_frames (ps : List Portion) :
    ps.length ≤ (ps.flatMap Portion.frames).length := by
  induction ps with
  | nil => exact Nat.le_refl _
  | cons p ps ih =>
    rw [List.flatMap_cons, List.length_append, List.length_cons, Portion.frames, List.length_cons]
    omega

/-! ## Filling up -/

/-- Fills a portion up. -/
def filled (f : Folding) (p : Portion) : Portion :=
  fill (f.portionSize p.circuit) p.circuit (p.first, p.others)

theorem frames_filled (f : Folding) (p : Portion) :
    (f.filled p).frames = p.frames ++ List.replicate (f.portionSize p.circuit - p.frames.length)
      (idle p.last) := by
  have hcount : f.portionSize p.circuit - 1 - p.others.length
      = f.portionSize p.circuit - p.frames.length := by
    rw [Portion.frames, List.length_cons]
    omega
  rw [← hcount]
  rfl

theorem getLast?_frames (p : Portion) : p.frames.getLast? = some p.last := by
  rw [Portion.frames, List.getLast?_cons]
  rfl

theorem leads_idle (f : Frame) (n : Nat) :
    Leads f.output (List.replicate n (idle f)) f.output := by
  induction n with
  | zero => rfl
  | succ n ih => exact ⟨rfl, ih⟩

/-- Filling a portion up changes neither its start nor its end. -/
theorem leads_filled {f : Folding} {p : Portion} {z w : Digest} (h : Leads z p.frames w) :
    Leads z (f.filled p).frames w := by
  obtain rfl : p.last.output = w := h.output_getLast? _ (getLast?_frames p)
  rw [frames_filled]
  exact leads_append.2 ⟨_, h, leads_idle _ _⟩

/-- What leads on in parts leads on as a whole when each part is replaced by one with the same start
and end. -/
theorem leads_flatMap {α : Type} {f g : α → List Frame} {xs : List α} {z w : Digest}
    (hfg : ∀ x ∈ xs, ∀ {z w : Digest}, Leads z (f x) w → Leads z (g x) w)
    (h : Leads z (xs.flatMap f) w) : Leads z (xs.flatMap g) w := by
  induction xs generalizing z with
  | nil => exact h
  | cons x xs ih =>
    obtain ⟨hx, hxs⟩ := List.forall_mem_cons.1 hfg
    rw [List.flatMap_cons] at h ⊢
    obtain ⟨m, hm, hw⟩ := leads_append.1 h
    exact leads_append.2 ⟨m, hx hm, ih hxs hw⟩

/-- The portions before each is told the circuit of the next. -/
def parts (f : Folding) (cs : List (Nat × Frame)) : List Portion :=
  (groups cs).flatMap fun g =>
    (pieces (f.portionSize g.1) g.2.length g.2).map (fill (f.portionSize g.1) g.1)

theorem parts_eq (f : Folding) (cs : List (Nat × Frame)) :
    f.parts cs = (f.cuts cs).map f.filled := by
  rw [cuts, List.map_flatMap, parts]
  refine List.flatMap_congr fun g _ => ?_
  rw [List.map_map]
  rfl

theorem leads_parts (f : Folding) {cs : List (Nat × Frame)} {z w : Digest}
    (h : Leads z (cs.map Prod.snd) w) : Leads z ((f.parts cs).flatMap Portion.frames) w := by
  rw [parts_eq, List.flatMap_map]
  rw [← f.flatMap_cuts] at h
  exact leads_flatMap (fun p _ _ _ hp => leads_filled hp) h

theorem length_parts_le (f : Folding) (cs : List (Nat × Frame)) :
    (f.parts cs).length ≤ cs.length := by
  have h := length_le_length_frames (f.cuts cs)
  rwa [flatMap_cuts, List.length_map, ← List.length_map f.filled, ← parts_eq] at h

theorem parts_ne_nil (f : Folding) {cs : List (Nat × Frame)} (h : cs ≠ []) : f.parts cs ≠ [] := by
  intro hn
  rw [parts_eq, List.map_eq_nil_iff] at hn
  have hcuts := f.flatMap_cuts_mk cs
  rw [hn] at hcuts
  exact h hcuts.symm

theorem circuit_of_mem_parts (f : Folding) {cs : List (Nat × Frame)} {p : Portion}
    (h : p ∈ f.parts cs) : ∃ q ∈ cs, q.1 = p.circuit := by
  rw [parts_eq] at h
  obtain ⟨q, hq, rfl⟩ := List.mem_map.1 h
  exact ⟨_, mem_of_mem_cuts hq List.mem_cons_self, rfl⟩

theorem next_of_mem_parts (f : Folding) {cs : List (Nat × Frame)} {p : Portion}
    (h : p ∈ f.parts cs) : p.next = 0 := by
  rw [parts_eq] at h
  obtain ⟨q, -, rfl⟩ := List.mem_map.1 h
  rfl

/-! ## Linking -/

/-- Nothing but the circuit of the next portion changes. -/
theorem flatMap_linkPortions {α : Type} {g : Portion → List α}
    (hg : ∀ p next, g { p with next := next } = g p) (ps : List Portion) :
    (linkPortions ps).flatMap g = ps.flatMap g := by
  fun_induction linkPortions ps with
  | case1 => rfl
  | case2 p => rfl
  | case3 p q rest ih =>
    rw [List.flatMap_cons, ih, hg]
    rfl

theorem length_linkPortions (ps : List Portion) : (linkPortions ps).length = ps.length := by
  fun_induction linkPortions ps with
  | case1 => rfl
  | case2 p => rfl
  | case3 p q rest ih => exact congrArg Nat.succ ih

theorem mem_linkPortions {p : Portion} {ps : List Portion} (h : p ∈ linkPortions ps)
    (h0 : ∀ q ∈ ps, q.next = 0) :
    (∃ q ∈ ps, q.circuit = p.circuit) ∧ (p.next = 0 ∨ ∃ q ∈ ps, q.circuit = p.next) := by
  fun_induction linkPortions ps with
  | case1 => exact absurd h List.not_mem_nil
  | case2 q =>
    obtain rfl := List.mem_singleton.1 h
    exact ⟨⟨p, List.mem_cons_self, rfl⟩, .inl (h0 p List.mem_cons_self)⟩
  | case3 q r rest ih =>
    rcases List.mem_cons.1 h with rfl | h
    · exact ⟨⟨q, List.mem_cons_self, rfl⟩,
        .inr ⟨r, List.mem_cons_of_mem _ List.mem_cons_self, rfl⟩⟩
    · obtain ⟨⟨s, hs, hc⟩, hn⟩ := ih h (List.forall_mem_cons.1 h0).2
      refine ⟨⟨s, List.mem_cons_of_mem _ hs, hc⟩, hn.imp_right ?_⟩
      exact fun ⟨t, ht, he⟩ => ⟨t, List.mem_cons_of_mem _ ht, he⟩

/-! ## Portions -/

/-- Every family has a circuit, and with a single one any other text has it, too. -/
theorem exists_circuit_iff (f : Folding) {family : String} :
    (∃ c, f.circuit family = .ok c) ↔
      (f.kind = .several → ∃ known : Family, family = known.name) := by
  obtain ⟨kind, portion, portion_pos⟩ := f
  cases kind with
  | single => exact ⟨fun _ h => FoldingKind.noConfusion h, fun _ => ⟨0, rfl⟩⟩
  | several =>
    constructor
    · rintro ⟨c, h⟩ -
      simp only [circuit] at h
      split at h
      next hcore => exact ⟨.core, hcore⟩
      next =>
        split at h
        next i hi =>
          obtain ⟨hlt, hname, -⟩ := List.findIdx?_eq_some_iff_getElem.1 hi
          exact ⟨Family.special[i], (of_decide_eq_true hname).symm⟩
        · cases h
    · intro h
      obtain ⟨known, rfl⟩ := h rfl
      cases known <;> exact ⟨_, rfl⟩

theorem circuit_le {f : Folding} {family : String} {c : Nat} (h : f.circuit family = .ok c) :
    c ≤ Family.special.length := by
  obtain ⟨kind, portion, portion_pos⟩ := f
  cases kind with
  | single =>
    cases h
    exact Nat.zero_le _
  | several =>
    obtain ⟨known, rfl⟩ := (exists_circuit_iff _).1 ⟨c, h⟩ rfl
    cases known <;> (cases h; decide)

/-- Portions are made of the frames with their circuits. -/
theorem portions_eq_ok {f : Folding} {frames : List Frame} {ps : List Portion}
    (h : f.portions frames = .ok ps) :
    ∃ circuits, List.Forall₂ (fun frame c => f.circuit frame.family = .ok c) frames circuits ∧
      linkPortions (f.parts (circuits.zip frames)) = ps := by
  obtain ⟨circuits, hcs, h⟩ := bind_eq_ok.1 h
  exact ⟨circuits, forall₂_of_mapM hcs, Except.ok.inj h⟩

/-- There is a portion if there is a frame. -/
theorem portions_ne_nil {f : Folding} {frames : List Frame} {ps : List Portion}
    (h : f.portions frames = .ok ps) (hne : frames ≠ []) : ps ≠ [] := by
  obtain ⟨circuits, hcs, rfl⟩ := portions_eq_ok h
  intro hnil
  have hlength := length_linkPortions (f.parts (circuits.zip frames))
  rw [hnil] at hlength
  refine f.parts_ne_nil (fun hz => hne ?_) (List.length_eq_zero_iff.1 hlength.symm)
  have hsnd := List.map_snd_zip (Nat.le_of_eq hcs.length_eq)
  rwa [hz, List.map_nil, eq_comm] at hsnd

/-- Frames that have circuits have portions, no more than there are frames.  They run on circuits
that exist, and lead from and to where the frames do. -/
theorem exists_portions (f : Folding) {frames : List Frame}
    (h : ∀ frame ∈ frames, ∃ c, f.circuit frame.family = .ok c) :
    ∃ ps, f.portions frames = .ok ps ∧ ps.length ≤ frames.length
      ∧ (∀ p ∈ ps, p.circuit ≤ Family.special.length ∧ p.next ≤ Family.special.length)
      ∧ ∀ {z w : Digest}, Leads z frames w → Leads z (ps.flatMap Portion.frames) w := by
  obtain ⟨circuits, hcs⟩ := exists_mapM h
  have hlen := (forall₂_of_mapM hcs).length_eq
  have hsnd : (circuits.zip frames).map Prod.snd = frames := List.map_snd_zip (Nat.le_of_eq hlen)
  have hbound : ∀ q ∈ f.parts (circuits.zip frames), q.circuit ≤ Family.special.length := by
    intro q hq
    obtain ⟨r, hr, he⟩ := f.circuit_of_mem_parts hq
    obtain ⟨frame, -, hc⟩ := (mapM_eq_ok hcs).2 r.1 (List.of_mem_zip hr).1
    exact he ▸ circuit_le hc
  refine ⟨linkPortions (f.parts (circuits.zip frames)), ?_, ?_, fun p hp => ?_, fun hl => ?_⟩
  · rw [portions, hcs]
    rfl
  · have hparts := f.length_parts_le (circuits.zip frames)
    rw [List.length_zip, ← hlen, Nat.min_self] at hparts
    rwa [length_linkPortions]
  · obtain ⟨⟨q, hq, hc⟩, hn⟩ := mem_linkPortions hp fun q hq => f.next_of_mem_parts hq
    refine ⟨hc ▸ hbound q hq, ?_⟩
    rcases hn with hn | ⟨r, hr, hn⟩
    · exact hn ▸ Nat.zero_le _
    · exact hn ▸ hbound r hr
  · rw [flatMap_linkPortions fun _ _ => rfl]
    exact f.leads_parts (by rwa [hsnd])

end Folding

end CommitChain
