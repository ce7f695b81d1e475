import CommitChain.Proofs.Text.Utf8

/-!
# Lines of a text file

Texts without control characters are written as lines, and the lines of the file are these texts,
each with its newline.
-/

namespace CommitChain.Text

/-- A text in which no line ends. -/
def OneLine (s : String) : Prop :=
  ∀ c ∈ s.toList, 0x20 ≤ c.toNat

/-- A text as a line of a file. -/
def line (s : String) : String :=
  s ++ "\n"

theorem toList_line (s : String) : (line s).toList = s.toList ++ ['\n'] :=
  String.toList_append

theorem unifyNewlines_of_not_mem {cs : List Char} (h : '\r' ∉ cs) : unifyNewlines cs = cs := by
  induction cs with
  | nil => rfl
  | cons c cs ih =>
    rw [List.mem_cons, not_or] at h
    rw [unifyNewlines, ih h.2]
    · exact fun _ hc _ => h.1 hc.symm
    · exact fun hc => h.1 hc.symm

theorem linesFrom_line {cs : List Char} (h : '\n' ∉ cs) (before rest : List Char) :
    linesFrom before (cs ++ '\n' :: rest)
      = String.ofList (before.reverse ++ cs ++ ['\n']) :: linesFrom [] rest := by
  induction cs generalizing before with
  | nil =>
    rw [List.nil_append, linesFrom, if_pos rfl]
    simp
  | cons c cs ih =>
    rw [List.mem_cons, not_or] at h
    rw [List.cons_append, linesFrom, if_neg (Ne.symm h.1), ih h.2]
    simp

theorem toList_join_lines (texts : List String) :
    (String.join (texts.map line)).toList = texts.flatMap fun s => s.toList ++ ['\n'] := by
  rw [String.toList_join, List.flatMap_map]
  simp only [toList_line]

theorem lines_join {texts : List String} (h : ∀ s ∈ texts, OneLine s) :
    lines (String.join (texts.map line)) = texts.map line := by
  have hne : ∀ {c d : Char}, 0x20 ≤ c.toNat → d.toNat < 0x20 → c ≠ d := by
    rintro c d hc hd rfl
    exact absurd hc (Nat.not_le.2 hd)
  have hcr : '\r' ∉ texts.flatMap fun s => s.toList ++ ['\n'] := by
    rw [List.mem_flatMap]
    rintro ⟨s, hs, hm⟩
    rcases List.mem_append.1 hm with hm | hm
    · exact hne (h s hs _ hm) (by decide) rfl
    · exact absurd (List.mem_singleton.1 hm) (by decide)
  rw [lines, toList_join_lines, unifyNewlines_of_not_mem hcr]
  clear hcr
  induction texts with
  | nil => rfl
  | cons s texts ih =>
    obtain ⟨hs, hrest⟩ := List.forall_mem_cons.1 h
    have hlf : '\n' ∉ s.toList := fun hm => hne (hs _ hm) (by decide) rfl
    rw [List.flatMap_cons, List.append_assoc, List.singleton_append, linesFrom_line hlf, ih hrest,
      List.map_cons]
    congr 1
    rw [← String.toList_inj, toList_line, String.toList_ofList]
    rfl

/-- What was written as lines is read as these lines. -/
theorem readLines_join {texts : List String} (h : ∀ s ∈ texts, OneLine s) :
    readLines (String.join (texts.map line)).toUTF8 = ⟨texts.map line, false⟩ := by
  rw [readLines, fromUTF8?_toUTF8]
  exact congrArg (Lines.mk · false) (lines_join h)

end CommitChain.Text
