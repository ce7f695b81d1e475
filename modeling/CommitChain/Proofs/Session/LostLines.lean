import CommitChain.Proofs.Session.Genuine
import CommitChain.Proofs.Session.Torn

/-!
# Lost step lines

Lines may get lost from the file of steps of a session, while all else stays.  An audit then finds
something unless the lines that are left are linked again and lead to the head in the file of the
chain, or no line is left (`lost_lines_are_found_unless_linked`).

A started chain without steps is in order, and nothing but the steps tells how many there were.  So
the loss of the last lines is not found if the head was the same before them, as after a step whose
function goes on to itself.
-/

namespace CommitChain

namespace Session

open Archive Text

variable {dir : Path} {records : List StepRecord} {saved : Option (Commitment × List Int)}
  {disk : Disk} {s : Session} {before after : List String}

/-- The disk with other lines in the file of steps. -/
def withLines (dir : Path) (texts : List String) (disk : Disk) : Disk :=
  { disk with
    entries := Disk.putEntry (stepsFile dir) (.file (String.join (texts.map line)).toUTF8)
      disk.entries }

/-- Lines of the file of steps are lost; those that are left keep their order. -/
structure Loses (dir : Path) (disk : Disk) (before after : List String) : Prop where
  file : disk.find? (stepsFile dir) = some (.file (String.join (before.map line)).toUTF8)
  separate : ∀ text ∈ before, '\n' ∉ text.toList
  left : after.Sublist before
  fewer : after.length < before.length

theorem find?_withLines {p : Path} (hp : p ≠ []) (texts : List String) :
    (withLines dir texts disk).find? p
      = if stepsFile dir = p then some (.file (String.join (texts.map line)).toUTF8)
        else disk.find? p := by
  rw [withLines, Disk.find?_of_ne_nil hp, Disk.find?_of_ne_nil hp, Disk.lookup?_putEntry]

/-- The lines are those of records. -/
theorem find?_stepsFile_withLines (records : List StepRecord) :
    (withLines dir (records.map StepRecord.text) disk).find? (stepsFile dir)
      = some (.file (stepsText records).toUTF8) := by
  rw [find?_withLines OwnFile.steps.ne_nil, if_pos rfl]
  rfl

/-! ## The lines that are left -/

theorem line_inj {a b : String} : line a = line b ↔ a = b := by
  rw [← String.toList_inj, toList_line, toList_line, List.append_left_inj, String.toList_inj]

/-- The lines are those of the records that were written. -/
theorem Loses.before_eq (h : Loses dir disk before after)
    (hsteps : disk.find? (stepsFile dir) = stepsEntry records)
    (hw : ∀ r ∈ records, r.Written) : before = records.map StepRecord.text := by
  have htexts : ∀ text ∈ records.map StepRecord.text, OneLine text :=
    List.forall_mem_map.2 fun r hr => Json.oneLine_canonical (hw r hr).canonical
  have hjoin : String.join ((records.map StepRecord.text).map line)
      = String.join (before.map line) := by
    have hbytes := congrArg Disk.content (hsteps.symm.trans h.file)
    rw [content_stepsEntry] at hbytes
    exact String.toByteArray_inj.1 hbytes
  -- what is no newline comes from a record, so it is no control character
  have hbefore : ∀ text ∈ before, OneLine text := by
    intro text htext c hc
    have hmem : c ∈ (String.join (before.map line)).toList := by
      rw [toList_join_lines]
      exact List.mem_flatMap.2 ⟨text, htext, List.mem_append_left _ hc⟩
    rw [← hjoin, toList_join_lines] at hmem
    obtain ⟨t, ht, hct⟩ := List.mem_flatMap.1 hmem
    rcases List.mem_append.1 hct with hct | hct
    · exact htexts t ht c hct
    · rw [List.mem_singleton.1 hct] at hc
      exact absurd hc (h.separate text htext)
  have hlines := lines_join hbefore
  rw [← hjoin, lines_join htexts] at hlines
  exact (List.map_inj_right fun a b hab => line_inj.1 hab).1 hlines.symm

/-- What is left are lines of records, which can be read or are nested too deeply. -/
theorem Loses.exists_kept (h : Loses dir disk before after)
    (hsteps : disk.find? (stepsFile dir) = stepsEntry records)
    (hw : ∀ r ∈ records, r.Written) :
    ∃ kept : List StepRecord, kept.Sublist records ∧ kept.length < records.length ∧
      after = kept.map StepRecord.text ∧
      ∀ read, loadSteps (withLines dir after disk) dir = .ok read → read = kept := by
  have hbefore := h.before_eq hsteps hw
  have hleft := h.left
  have hfewer := h.fewer
  rw [hbefore] at hleft hfewer
  obtain ⟨kept, hkept, rfl⟩ := List.sublist_map_iff.1 hleft
  rw [List.length_map, List.length_map] at hfewer
  refine ⟨kept, hkept, hfewer, rfl, fun read hread => ?_⟩
  rcases loadSteps_of_file (fun r hr => hw r (hkept.subset hr)) (find?_stepsFile_withLines kept)
    with ⟨_, hload⟩ | ⟨_, _, hload⟩
  · exact Except.ok.inj (hread.symm.trans hload)
  · exact absurd (hread.symm.trans hload) (by simp)

/-! ## Audits after a loss -/

theorem genuine_withLines (h : Audit.Genuine dir saved disk) (texts : List String) :
    Audit.Genuine dir saved (withLines dir texts disk) := by
  refine h.congr fun p hp hne => ?_
  rw [find?_withLines hp.ne_nil, if_neg (Ne.symm hne)]

/-- The payloads that are verified stay the same. -/
theorem verified_withLines (h : Audit.Genuine dir saved disk) (texts : List String)
    {text : String} :
    Audit.Verified (withLines dir texts disk) dir text ↔ Audit.Verified disk dir text := by
  rw [h.verified_iff, (genuine_withLines h texts).verified_iff]
  refine exists_congr fun c => and_congr_right fun _ => ?_
  have hown : OwnFile dir (commitmentFile dir c) := .payload _
  have hne : stepsFile dir ≠ commitmentFile dir c := by
    simp [stepsFile, commitmentFile, commitmentsDir]
  rw [Disk.contains, find?_withLines hown.ne_nil, if_neg hne, Disk.contains]

/-- What has to hold of the saved head holds of the head that an audit reads. -/
theorem forall_saved_iff (h : Audit.Genuine dir saved disk) {P : String → Prop} :
    (∀ head proven, saved = some (head, proven) → P head.text) ↔
      ∀ x, Audit.headIn disk (chainFile dir) = .ok (some x) → ∃ text, x = .str text ∧ P text := by
  constructor
  · intro hp x hx
    obtain ⟨head, proven, hs, rfl⟩ := h.saved_of_headIn hx
    exact ⟨_, rfl, hp head proven hs⟩
  · intro hp head proven hs
    obtain ⟨text, htext, hp⟩ := hp _ (h.headIn_eq hs)
    cases htext
    exact hp

/-- After lines were lost from the file of steps, an audit finds nothing exactly if the lines that
are left can be read as linked records, if these name commitments with a payload, and if the head in
the file of the chain has a payload and is the new head of the last of them, where there is one.  If
no line was torn before, what is left are then the first records of the history. -/
theorem lost_lines_are_found_unless_linked {allowed : Except Failure Unit → Prop}
    (h : Used dir allowed s) (hl : Loses dir s.disk before after) :
    ∃ report, Audit.run (withLines dir after s.disk) dir = .ok report ∧
      (report.ok = true ↔ ∃ kept, loadSteps (withLines dir after s.disk) dir = .ok kept ∧
        Chain.Linked kept ∧
        (∀ r ∈ kept, Audit.Verified s.disk dir r.claim.prior ∧
          Audit.Verified s.disk dir r.claim.newHead) ∧
        ∀ x, Audit.headIn s.disk (chainFile dir) = .ok (some x) → ∃ text, x = .str text ∧
          Audit.Verified s.disk dir text ∧ ∀ r ∈ kept.getLast?, r.claim.newHead = text) ∧
      (¬Torn dir s → report.ok = true → ∃ n < s.ledger.chain.history.length,
        after = (s.ledger.chain.history.take n).map StepRecord.text ∧
        ∀ r ∈ (s.ledger.chain.history.take n).getLast?, ∀ x,
          Audit.headIn s.disk (chainFile dir) = .ok (some x) → x = .str r.claim.newHead) := by
  obtain ⟨lines, saved, hb⟩ := h.backed
  have hgenuine := hb.genuine h.orderly
  obtain ⟨report, hrun⟩ := (genuine_withLines hgenuine after).exists_run
  have hok := (genuine_withLines hgenuine after).ok_iff hrun
  simp only [verified_withLines hgenuine] at hok
  have hclean := hok.trans (exists_congr fun kept => and_congr_right fun _ =>
    and_congr_right fun _ => and_congr_right fun _ => forall_saved_iff hgenuine
      (P := fun text => Audit.Verified s.disk dir text ∧
        ∀ r ∈ kept.getLast?, r.claim.newHead = text))
  refine ⟨report, hrun, hclean, fun hwhole hr => ?_⟩
  obtain rfl : lines = s.ledger.chain.history := not_not.1 fun hne => hwhole (hb.torn_iff.2 hne)
  obtain ⟨kept, hkept, hfewer, rfl, hread⟩ :=
    hl.exists_kept hb.kept.holds.steps hb.kept.holds.written
  obtain ⟨read, hload, hlinked, _, hhead⟩ := hclean.1 hr
  obtain rfl := hread read hload
  have htake := hb.kept.equipped.sound.chain.linked.eq_take hlinked hkept
  refine ⟨_, hfewer, congrArg _ htake, fun r hlast x hx => ?_⟩
  rw [← htake] at hlast
  obtain ⟨text, rfl, _, hnewHead⟩ := hhead x hx
  rw [hnewHead r hlast]

/-! ## What is lost of two steps -/

/-- Lines of a mirrored session that get lost. -/
theorem Mirrored.loses (h : Mirrored dir s) {after : List String}
    (hleft : after.Sublist (s.ledger.chain.history.map StepRecord.text))
    (hfewer : after.length < s.ledger.chain.history.length) :
    Loses dir s.disk (s.ledger.chain.history.map StepRecord.text) after where
  file := by
    rw [show s.disk.find? (stepsFile dir) = _ from h.backed.kept.holds.steps]
    cases hh : s.ledger.chain.history with
    | nil => exact absurd hfewer (by simp [hh])
    | cons first rest => rfl
  separate := List.forall_mem_map.2 fun r hr hm => by
    have hline := Json.oneLine_canonical (h.backed.kept.holds.written r hr).canonical
    exact absurd (hline _ hm) (by decide)
  left := hleft
  fewer := by rwa [List.length_map]

/-- If the first of two lines is lost, an audit finds it. -/
theorem lost_first_line_is_found : ∃ s second report, Used ["s"] Unhindered s ∧
    Loses ["s"] s.disk (s.ledger.chain.history.map StepRecord.text) [second] ∧
    Audit.run (withLines ["s"] [second] s.disk) ["s"] = .ok report ∧ report.ok = false := by
  obtain ⟨s, hused, htwo, _⟩ := exists_legible_steps
  obtain ⟨first, second, htwo⟩ := List.length_eq_two.1 htwo
  have hm := hused.mirrored
  have hl : Loses ["s"] s.disk (s.ledger.chain.history.map StepRecord.text) [second.text] :=
    hm.loses (by simp [htwo]) (by simp [htwo])
  obtain ⟨report, hrun, hclean, _⟩ := lost_lines_are_found_unless_linked hused hl
  refine ⟨s, second.text, report, hused, hl, hrun, Bool.eq_false_iff.2 fun hok => ?_⟩
  obtain ⟨kept, hload, hlinked, _⟩ := hclean.1 hok
  have hwritten : ∀ r ∈ [second], r.Written := fun r hr =>
    hm.backed.kept.holds.written r (by rw [htwo]; exact List.mem_cons_of_mem _ hr)
  have hkept : kept = [second] := by
    rcases loadSteps_of_file hwritten (find?_stepsFile_withLines [second]) with
      ⟨_, hsecond⟩ | ⟨_, _, hfails⟩
    · exact Except.ok.inj (hload.symm.trans hsecond)
    · exact absurd (hload.symm.trans hfails) (by simp)
  -- the line that is left would have to be that of the first step
  have hone : second.index = 1 := (Chain.linked_iff_getElem?.1 (hkept ▸ hlinked)).1 0 second rfl
  have hall := hm.backed.kept.equipped.sound.chain.linked
  rw [htwo] at hall
  have htwo : second.index = 2 := (Chain.linked_iff_getElem?.1 hall).1 1 second rfl
  omega

/-- If all lines are lost, an audit does not find it. -/
theorem loss_of_all_lines_is_not_found : ∃ s report, Used ["s"] Unhindered s ∧
    s.ledger.chain.history.length = 2 ∧
    Loses ["s"] s.disk (s.ledger.chain.history.map StepRecord.text) [] ∧
    Audit.run (withLines ["s"] [] s.disk) ["s"] = .ok report ∧ report.ok = true := by
  obtain ⟨s, hused, htwo, _⟩ := exists_legible_steps
  have hm := hused.mirrored
  have hgenuine := hm.backed.genuine hused.orderly
  obtain ⟨report, hrun⟩ := (genuine_withLines hgenuine []).exists_run
  refine ⟨s, report, hused, htwo, hm.loses (List.nil_sublist _) (by simp [htwo]), hrun,
    ((genuine_withLines hgenuine []).ok_iff hrun).2 ⟨[], ?_, Chain.linked_nil, by simp, ?_⟩⟩
  · rcases loadSteps_of_file (by simp) (find?_stepsFile_withLines []) with
      ⟨_, hload⟩ | ⟨hnot, _⟩
    · exact hload
    · exact absurd (fun r hr => absurd hr List.not_mem_nil) hnot
  · intro head proven hs
    obtain ⟨k, hk, he⟩ := Option.map_eq_some_iff.1 hs
    obtain rfl : k = head := congrArg Prod.fst he
    exact ⟨(verified_withLines hgenuine []).2 (hm.head_verified hused.orderly hk).1, by simp⟩

end Session

end CommitChain
