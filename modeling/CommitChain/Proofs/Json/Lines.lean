import CommitChain.Proofs.Json.CanonicalForm
import CommitChain.Proofs.Text.Lines

/-!
# Trees on one line

The compact text of a tree has no control character, so it stands on one line.
-/

namespace CommitChain.Json

open CommitChain.Text

theorem oneLine_append {s t : String} (hs : OneLine s) (ht : OneLine t) : OneLine (s ++ t) := by
  intro c hc
  rw [String.toList_append, List.mem_append] at hc
  exact hc.elim (hs c) (ht c)

theorem oneLine_of_all {s : String} (h : (s.toList.all fun c => decide (0x20 ≤ c.toNat)) = true) :
    OneLine s :=
  fun c hc => of_decide_eq_true (List.all_eq_true.1 h c hc)

theorem oneLine_joined {texts : List String} (h : ∀ s ∈ texts, OneLine s) :
    OneLine (joined "," texts) := by
  induction texts with
  | nil => exact fun c hc => absurd hc (by simp [joined])
  | cons s texts ih =>
    obtain ⟨hs, hrest⟩ := List.forall_mem_cons.1 h
    cases texts with
    | nil => exact hs
    | cons t r =>
      intro c hc
      rw [toList_joined_cons, List.mem_append, List.mem_cons] at hc
      rcases hc with hc | rfl | hc
      · exact hs c hc
      · decide
      · exact ih hrest c hc

theorem oneLine_hexDigits (width n : Nat) : OneLine (hexDigits width n) := by
  intro c hc
  rw [hexDigits, String.toList_ofList, List.mem_map] at hc
  obtain ⟨i, _, rfl⟩ := hc
  have hall : ∀ m < 16, 0x20 ≤ (Nat.digitChar m).toNat := by decide
  exact hall _ (Nat.mod_lt _ (by decide))

theorem oneLine_charText (c : Char) : OneLine (charText false c) := by
  unfold charText
  iterate 7
    split
    · exact oneLine_of_all (by decide)
  split
  · exact oneLine_append (oneLine_of_all (by decide)) (oneLine_hexDigits 4 _)
  next h =>
    rw [Bool.false_and, if_neg Bool.false_ne_true]
    intro d hd
    rw [String.toList_singleton, List.mem_singleton] at hd
    rw [hd]
    omega

theorem oneLine_stringText (s : String) : OneLine (stringText false s) := by
  intro c hc
  rw [toList_stringText, List.mem_cons, List.mem_append, List.mem_flatMap, List.mem_singleton] at hc
  rcases hc with rfl | ⟨d, _, hd⟩ | rfl
  · decide
  · exact oneLine_charText d c hd
  · decide

theorem oneLine_integerDigits (n : Int) : OneLine (integerDigits n) := by
  have hdigits : OneLine n.natAbs.repr := by
    intro c hc
    rw [Nat.toList_repr] at hc
    have hd := isDigit_of_mem_toDigits hc
    simp only [isDigit, Bool.and_eq_true, decide_eq_true_eq] at hd
    exact Nat.le_trans (by decide) (Char.le_def.1 hd.1)
  unfold integerDigits
  split
  · refine oneLine_append (fun c hc => ?_) hdigits
    rw [show c = '-' by simpa using hc]
    decide
  · exact hdigits

theorem oneLine_renderAt {x : Json} (h : x.Readable) (lv : Nat) :
    OneLine (renderAt .compact lv x) := by
  induction x using tree_induction generalizing lv with
  | null => exact oneLine_of_all (s := "null") (by decide)
  | bool b =>
    cases b
    · exact oneLine_of_all (s := "false") (by decide)
    · exact oneLine_of_all (s := "true") (by decide)
  | int n =>
    rw [renderAt]
    exact oneLine_integerDigits n
  | float x => exact h.elim
  | str s =>
    rw [renderAt]
    exact oneLine_stringText s
  | arr items ih =>
    rw [Readable, readableItems_iff] at h
    have hitems : ∀ s ∈ renderItems .compact (lv + 1) items, OneLine s := by
      induction items with
      | nil => exact fun s hs => absurd hs (by simp [renderItems])
      | cons x xs ihx =>
        rw [List.forall_mem_cons] at h ih
        rw [renderItems, List.forall_mem_cons]
        exact ⟨ih.1 h.1 _, ihx ih.2 h.2⟩
    intro c hc
    rw [toList_renderAt_arr, List.mem_cons, List.mem_append, List.mem_singleton] at hc
    rcases hc with rfl | hc | rfl
    · decide
    · exact oneLine_joined hitems c hc
    · decide
  | obj members ih =>
    rw [Readable, readableMembers_iff] at h
    have hmembers : ∀ s ∈ renderMembers .compact (lv + 1) members, OneLine s := by
      replace h := h.2
      induction members with
      | nil => exact fun s hs => absurd hs (by simp [renderMembers])
      | cons p ms ihm =>
        rw [List.forall_mem_cons] at h ih
        obtain ⟨k, x⟩ := p
        rw [renderMembers, List.forall_mem_cons]
        refine
          ⟨oneLine_append (oneLine_append (oneLine_stringText k) ?_) (ih.1 h.1 _), ihm ih.2 h.2⟩
        exact oneLine_of_all (s := ":") (by decide)
    intro c hc
    rw [toList_renderAt_obj, List.mem_cons, List.mem_append, List.mem_singleton] at hc
    rcases hc with rfl | hc | rfl
    · decide
    · exact oneLine_joined hmembers c hc
    · decide

/-- A canonical text stands on one line. -/
theorem oneLine_canonical {x : Json} {text : String} (h : x.canonical = .ok text) :
    OneLine text := by
  obtain ⟨hfloat, hfit, rfl⟩ := canonical_eq_ok.1 h
  exact oneLine_renderAt (readable_canonicalForm hfloat hfit) 0

end CommitChain.Json
