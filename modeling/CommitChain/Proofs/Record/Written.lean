import CommitChain.Proofs.Chain.Evaluated
import CommitChain.Proofs.Json.Lines
import CommitChain.Proofs.Json.Nesting
import CommitChain.Session.Archive

/-!
# Step records as lines

The lines of evaluated steps are read as the records that they were written from, unless one of them
is nested too deeply to be checked (`recordsOfLines_written`).
-/

namespace CommitChain

open CommitChain.Text

theorem Family.isNormal_name (family : Family) : IsNormal family.name := by
  have hlow : family.name.toList.all (fun c => decide (c.toNat < 0x300)) = true := by
    cases family <;> decide
  exact isNormal_of_lt fun c hc => of_decide_eq_true (List.all_eq_true.1 hlow c hc)

theorem Frame.check_canonicalForm {f : Frame} (h : ∃ family : Family, f.family = family.name)
    (path : List String) : Frame.check path f.toJson.canonicalForm = .good f := by
  obtain ⟨family, hf⟩ := h
  have hmeta : IsNormal f.family := hf ▸ family.isNormal_name
  have hn : Json.Distinct ([("index", Json.int f.index), ("input", .str f.input.hex),
      ("output", .str f.output.hex), ("meta", .str f.family)].map Prod.fst) :=
    (by decide : Json.Distinct ["index", "input", "output", "meta"])
  rw [Frame.check, Frame.toJson, Check.object_canonicalForm hn]
  swap
  · exact fun k hk => hk
  rw [Check.member_canonicalObject hn rfl, Check.member_canonicalObject hn rfl,
    Check.member_canonicalObject hn rfl, Check.memberOr_canonicalObject hn rfl,
    Check.atLeast_int (Nat.zero_le _), Check.digest_hex, Check.digest_hex, Check.text_str hmeta]
  rfl

theorem Trace.check_canonicalForm {t : Trace}
    (hf : ∀ f ∈ t.frames, ∃ family : Family, f.family = family.name) (hr : t.result.Settled)
    (path : List String) : Trace.check path t.toJson.canonicalForm = .good t := by
  have hn : Json.Distinct ([("frames", Json.arr (t.frames.map Frame.toJson)),
      ("result", t.result)].map Prod.fst) :=
    (by decide : Json.Distinct ["frames", "result"])
  have hframes : ∀ path, Check.array Frame.check path
      (Json.arr (t.frames.map Frame.toJson)).canonicalForm = .good t.frames :=
    fun path => Check.array_canonicalForm fun f hm => Frame.check_canonicalForm (hf f hm)
  rw [Trace.check, Trace.toJson, Check.object_canonicalForm hn]
  swap
  · exact fun k hk => hk
  rw [Check.member_canonicalObject hn rfl, Check.member_canonicalObject hn rfl, hframes,
    hr.canonicalForm_eq]
  rfl

namespace StepRecord

/-- The record of an evaluated step passes its check. -/
theorem Evaluated.check {r : StepRecord} (h : r.Evaluated) (hi : 1 ≤ r.index)
    (path : List String) : StepRecord.check path r.toJson.canonicalForm = .good r := by
  have hn : Json.Distinct ((("index", Json.int r.index) :: r.claim.members
      ++ [("trace", r.trace.toJson)]).map Prod.fst) :=
    (by decide : Json.Distinct ["index", "prior", "input", "output", "new_head", "trace"])
  rw [StepRecord.check, StepRecord.toJson, Check.object_canonicalForm hn]
  swap
  · exact fun k hk => hk
  rw [Check.member_canonicalObject hn rfl, h.claim.checkMembers hn path rfl rfl rfl rfl,
    Check.member_canonicalObject hn rfl, Check.atLeast_int hi,
    Trace.check_canonicalForm h.family h.settled]
  rfl

/-- The canonical text of a record. -/
def text (r : StepRecord) : String :=
  Json.render .compact r.toJson.canonicalForm

/-- Whether the text of a record is not nested too deeply to be checked as it is read. -/
def Legible (r : StepRecord) : Prop :=
  r.toJson.canonicalForm.filled ≤ Check.textNesting

instance (r : StepRecord) : Decidable r.Legible :=
  inferInstanceAs (Decidable (_ ≤ _))

/-- A record that a chain has written to its file. -/
structure Written (r : StepRecord) : Prop where
  evaluated : r.Evaluated
  index : 1 ≤ r.index
  canonical : r.toJson.canonical = .ok r.text

theorem Written.readable {r : StepRecord} (h : r.Written) : r.toJson.canonicalForm.Readable := by
  obtain ⟨hfloat, hfit, _⟩ := Json.canonical_eq_ok.1 h.canonical
  exact Json.readable_canonicalForm hfloat hfit

/-- The number of a record that can be written can be written. -/
theorem index_lt_of_canonical {r : StepRecord} {text : String}
    (h : r.toJson.canonical = .ok text) : r.index < integerBound := by
  obtain ⟨_, hwritable, _⟩ := Json.canonical_eq_ok.1 h
  have hn : Json.Distinct ((("index", Json.int r.index) :: r.claim.members
      ++ [("trace", r.trace.toJson)]).map Prod.fst) :=
    (by decide : Json.Distinct ["index", "prior", "input", "output", "new_head", "trace"])
  have hfind : Keyed.find? "index" (("index", Json.int r.index) :: r.claim.members
      ++ [("trace", r.trace.toJson)]) = some (.int r.index) := rfl
  have hindex : (Json.int r.index).Writable := hwritable.of_find? hn hfind
  simpa [Json.Writable, Json.canonicalForm, Json.integersFit] using hindex

theorem Written.index_lt {r : StepRecord} (h : r.Written) : r.index < integerBound :=
  index_lt_of_canonical h.canonical

theorem Written.parseChars {r : StepRecord} (h : r.Written) (nesting : Option Nat)
    (hd : ∀ m ∈ nesting, r.toJson.canonicalForm.filled ≤ m) :
    Json.parseChars ⟨some digitLimit, nesting⟩ (line r.text).toList
      = .ok r.toJson.canonicalForm := by
  rw [toList_line]
  exact Json.parseChars_render h.readable hd (by decide)

theorem Written.runText_of_legible {r : StepRecord} (h : r.Written) (hl : r.Legible) :
    StepRecord.check.runText (line r.text) = .ok r := by
  have hparse := h.parseChars (some Check.textNesting) fun m hm => by
    cases hm
    exact hl
  rw [Check.runText, hparse]
  show (StepRecord.check [] r.toJson.canonicalForm).toExcept = _
  rw [h.evaluated.check h.index]
  rfl

theorem Written.runText_of_not_legible {r : StepRecord} (h : r.Written) (hl : ¬r.Legible) :
    ∃ issues, StepRecord.check.runText (line r.text) = .error issues := by
  rw [Check.runText]
  cases hp : Json.parseChars ⟨some digitLimit, some Check.textNesting⟩ (line r.text).toList with
  | error fault => exact ⟨_, rfl⟩
  | ok x =>
    obtain ⟨hfilled, hfree⟩ := Json.parseChars_nesting hp
    have hx := h.parseChars none fun m hm => absurd hm (by simp)
    obtain rfl : x = r.toJson.canonicalForm := Except.ok.inj (hfree.symm.trans hx)
    exact absurd hfilled hl

/-- A line of a record is not blank. -/
theorem all_isBlank_line (r : StepRecord) : (line r.text).toList.all isBlank = false := by
  rw [text, StepRecord.toJson, Json.canonicalForm, Json.render, toList_line,
    Json.toList_renderAt_obj, List.cons_append, List.all_cons,
    show isBlank '\x7b' = false by decide, Bool.false_and]

end StepRecord

namespace Archive

open StepRecord

/-- The lines of records can be read exactly if all of them are legible. -/
theorem recordsOfLines_written {rs : List StepRecord} (h : ∀ r ∈ rs, r.Written) (file : Path)
    (number : Nat) :
    (∀ r ∈ rs, r.Legible) ∧
        recordsOfLines file number (rs.map fun r => line r.text) = .ok rs ∨
      (¬∀ r ∈ rs, r.Legible) ∧
        ∃ n, recordsOfLines file number (rs.map fun r => line r.text)
          = .error (.refusal (.stepLine file n)) := by
  induction rs generalizing number with
  | nil => exact .inl ⟨fun r hr => absurd hr List.not_mem_nil, rfl⟩
  | cons r rs ih =>
    obtain ⟨hr, hrs⟩ := List.forall_mem_cons.1 h
    rw [List.map_cons, recordsOfLines, if_neg (by simp [all_isBlank_line r])]
    by_cases hl : r.Legible
    · rw [hr.runText_of_legible hl]
      rcases ih hrs (number + 1) with ⟨hall, hread⟩ | ⟨hnot, n, hread⟩
      · exact .inl ⟨List.forall_mem_cons.2 ⟨hl, hall⟩, by rw [hread]; rfl⟩
      · refine .inr ⟨fun hall => hnot (List.forall_mem_cons.1 hall).2, n, ?_⟩
        rw [hread]
        rfl
    · obtain ⟨issues, hfail⟩ := hr.runText_of_not_legible hl
      rw [hfail]
      exact .inr ⟨fun hall => hl (List.forall_mem_cons.1 hall).1, number, rfl⟩

end Archive

end CommitChain
