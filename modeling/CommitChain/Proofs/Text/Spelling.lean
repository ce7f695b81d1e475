import CommitChain.Proofs.Text.Normal

/-!
# Where the characters of a normal form come from

Two kinds of characters can be told from the normal form of a text alone.  If a set of characters is
*traced*, then a text whose normal form holds one of them holds one of them itself
(`Traced.exists_of_mem_normalize`).  If it is *inert*, then a text whose normal form is made of them
is in normal form already (`Inert.eq_of_normalize`).  Both are conditions on the tables, which are
checked entry by entry.
-/

namespace CommitChain.Text.Normal

attribute [local irreducible] partsOf wholeOf

/-- Whether a number belongs to a letter or a syllable of Hangul. -/
def isHangul (n : Nat) : Bool :=
  (Nat.ble 0x1100 n && Nat.blt n 0x1200) || (Nat.ble 0xAC00 n && Nat.blt n 0xD7A4)

theorem isHangul_iff {n : Nat} :
    isHangul n = true ↔ (0x1100 ≤ n ∧ n < 0x1200) ∨ 0xAC00 ≤ n ∧ n < 0xD7A4 := by
  simp only [isHangul, Bool.or_eq_true, Bool.and_eq_true, Nat.ble_eq, Nat.blt_eq]

theorem isHangul_of_mem_syllable {c d : Char} {letters : List Char}
    (h : decomposeSyllable? c = some letters) (hd : d ∈ letters) : isHangul d.toNat = true :=
  isHangul_iff.2 (.inl (letter_of_mem_syllable h hd))

theorem isHangul_of_syllable {c : Char} {letters : List Char}
    (h : decomposeSyllable? c = some letters) : isHangul c.toNat = true ∧ letters ≠ [] := by
  unfold decomposeSyllable? at h
  dsimp only at h
  split at h
  next hs =>
    have hc : 0xAC00 ≤ c.toNat ∧ c.toNat - 0xAC00 < 19 * 21 * 28 := hs
    refine ⟨isHangul_iff.2 (.inr (by omega)), ?_⟩
    split at h <;> cases h <;> exact List.cons_ne_nil _ _
  next => cases h

/-! ## Ordering -/

theorem perm_insertMark (c : Char) (cs : List Char) : (insertMark c cs).Perm (c :: cs) := by
  induction cs with
  | nil => exact .refl _
  | cons d cs ih =>
    rw [insertMark]
    split
    · exact (ih.cons d).trans (.swap c d cs)
    · exact .refl _

theorem perm_orderMarks (cs : List Char) : (orderMarks cs).Perm cs := by
  induction cs with
  | nil => exact .refl _
  | cons c cs ih =>
    rw [orderMarks]
    split
    · exact ih.cons c
    · exact (perm_insertMark c _).trans (ih.cons c)

theorem combiningClass_eq_zero {c : Char}
    (h : ∀ r ∈ classRanges, c.toNat < r / 0x100000000 ∨ r / 0x100 % 0x1000000 < c.toNat) :
    combiningClass c = 0 := by
  have hnone : (classRanges.find? fun r =>
      r / 0x100000000 ≤ c.toNat && c.toNat ≤ r / 0x100 % 0x1000000) = none := by
    refine List.find?_eq_none.2 fun r hr => ?_
    have := h r hr
    rw [Bool.and_eq_true, decide_eq_true_eq, decide_eq_true_eq]
    omega
  rw [combiningClass, hnone]
  exact ite_self 0

/-! ## Composing -/

theorem mem_composeOnto {d base : Char} {marks cs : List Char}
    (h : d ∈ composeOnto base marks cs) :
    d = base ∨ d ∈ marks ∨ d ∈ cs ∨ ∃ a b, compose? a b = some d := by
  induction cs generalizing base marks with
  | nil =>
    rcases List.mem_cons.1 h with rfl | h
    · exact .inl rfl
    · exact .inr (.inl (List.mem_reverse.1 h))
  | cons c cs ih =>
    rw [composeOnto_cons] at h
    split at h
    next whole hwhole =>
      obtain rfl | hm | hcs | hab := ih h
      · split at hwhole
        · exact .inr (.inr (.inr ⟨base, c, hwhole⟩))
        · cases hwhole
      · exact .inr (.inl hm)
      · exact .inr (.inr (.inl (List.mem_cons_of_mem c hcs)))
      · exact .inr (.inr (.inr hab))
    next =>
      split at h
      · rcases List.mem_cons.1 h with rfl | h
        · exact .inl rfl
        · rcases List.mem_append.1 h with h | h
          · exact .inr (.inl (List.mem_reverse.1 h))
          · obtain rfl | hm | hcs | hab := ih h
            · exact .inr (.inr (.inl List.mem_cons_self))
            · exact absurd hm List.not_mem_nil
            · exact .inr (.inr (.inl (List.mem_cons_of_mem c hcs)))
            · exact .inr (.inr (.inr hab))
      · obtain rfl | hm | hcs | hab := ih h
        · exact .inl rfl
        · rcases List.mem_cons.1 hm with rfl | hm
          · exact .inr (.inr (.inl List.mem_cons_self))
          · exact .inr (.inl hm)
        · exact .inr (.inr (.inl (List.mem_cons_of_mem c hcs)))
        · exact .inr (.inr (.inr hab))

/-- A character of a composed text is there before, or it is composed. -/
theorem mem_composeAll {d : Char} {cs : List Char} (h : d ∈ composeAll cs) :
    d ∈ cs ∨ ∃ a b, compose? a b = some d := by
  induction cs with
  | nil => exact absurd h List.not_mem_nil
  | cons c cs ih =>
    rw [composeAll] at h
    split at h
    · obtain rfl | hm | hcs | hab := mem_composeOnto h
      · exact .inl List.mem_cons_self
      · exact absurd hm List.not_mem_nil
      · exact .inl (List.mem_cons_of_mem c hcs)
      · exact .inr hab
    · rcases List.mem_cons.1 h with rfl | h
      · exact .inl List.mem_cons_self
      · exact (ih h).imp_left (List.mem_cons_of_mem c)

/-- A composed character is one of Hangul, or the tables have two parts for it. -/
theorem whole_of_compose? {a b d : Char} (h : compose? a b = some d) :
    isHangul d.toNat = true ∨ ∃ e ∈ decompositions, whole e = d.toNat ∧ second e ≠ 0 := by
  rw [compose?] at h
  split at h
  next c hc =>
    cases h
    refine .inl (isHangul_iff.2 (.inr ?_))
    rcases composeSyllable?_eq_some hc with ⟨l, v, hl, hv, _, _, hd⟩ |
      ⟨l, v, f, hl, hv, _, hf, _, _, hd⟩
    · omega
    · omega
  next =>
    obtain ⟨n, hn, rfl⟩ := Option.map_eq_some_iff.1 h
    obtain ⟨e, he, rfl, _, _, hne⟩ := exists_of_wholeOf hn
    exact .inr ⟨e, he, (toNat_of_isPlain (isPlain_of_mem he).1).symm, hne⟩

/-! ## Traced sets -/

/-- A set that a character belongs to if one of its parts does, and no composed character. -/
structure Traced (P : Nat → Bool) : Prop where
  table : (decompositions.all fun e => (!(P (first e) || P (second e)) || P (whole e)) &&
    (Nat.beq (second e) 0 || !P (whole e))) = true
  hangul : ∀ n, isHangul n = true → P n = false

section

variable {P : Nat → Bool} {e : Nat} {c d : Char}

theorem Traced.of_entry (hP : Traced P) (he : e ∈ decompositions) :
    (P (first e) = true ∨ P (second e) = true → P (whole e) = true) ∧
      (second e ≠ 0 → P (whole e) = false) := by
  have htable := List.all_eq_true.1 hP.table e he
  simp only [Bool.and_eq_true, Bool.or_eq_true, Bool.not_eq_true', Bool.or_eq_false_iff,
    Nat.beq_eq] at htable
  obtain ⟨hparts, hwhole⟩ := htable
  refine ⟨fun h => hparts.resolve_left ?_, hwhole.resolve_left⟩
  rintro ⟨hfirst, hsecond⟩
  simp [hfirst, hsecond] at h

theorem Traced.of_mem_decompose (hP : Traced P) {n : Nat} (hd : d ∈ decompose n c)
    (h : P d.toNat = true) : P c.toNat = true := by
  induction n generalizing c with
  | zero => exact List.mem_singleton.1 hd ▸ h
  | succ n ih =>
    rw [decompose_step] at hd
    split at hd
    next letters hs =>
      have hnot := hP.hangul _ (isHangul_of_mem_syllable hs hd)
      exact absurd h (by simp [hnot])
    next =>
      split at hd
      next => exact List.mem_singleton.1 hd ▸ h
      next a b hp =>
        obtain ⟨e, he, hwhole, rfl, rfl⟩ := partsOf_eq_some.1 hp
        obtain ⟨_, hplain, hplain'⟩ := isPlain_of_mem he
        rw [← hwhole]
        refine (hP.of_entry he).1 ?_
        rcases List.mem_append.1 hd with hd | hd
        · exact .inl (toNat_of_isPlain hplain ▸ ih hd)
        · split at hd
          · exact absurd hd List.not_mem_nil
          · exact .inr (toNat_of_isPlain hplain' ▸ ih hd)

theorem Traced.not_composed (hP : Traced P) {a b : Char} (h : compose? a b = some d) :
    P d.toNat = false := by
  obtain hhangul | ⟨e, he, hwhole, hne⟩ := whole_of_compose? h
  · exact hP.hangul _ hhangul
  · exact hwhole ▸ (hP.of_entry he).2 hne

/-- A member of a traced set in the normal form of a text comes from one in the text. -/
theorem Traced.exists_of_mem_normalize (hP : Traced P) {s : String} (hd : d ∈ (normalize s).toList)
    (h : P d.toNat = true) : ∃ c ∈ s.toList, P c.toNat = true := by
  rw [normalize] at hd
  split at hd
  · exact ⟨d, hd, h⟩
  · rw [String.toList_ofList] at hd
    obtain hd | ⟨a, b, hab⟩ := mem_composeAll hd
    · obtain ⟨c, hc, hcd⟩ := List.mem_flatMap.1 (mem_orderMarks hd)
      exact ⟨c, hc, hP.of_mem_decompose hcd h⟩
    · exact absurd h (by simp [hP.not_composed hab])

/-! ## Inert sets -/

/-- A set of base characters without parts such that no character has its parts in it. -/
structure Inert (P : Nat → Bool) : Prop where
  table : (decompositions.all fun e => !P (whole e) &&
    (!P (first e) || !(Nat.beq (second e) 0 || P (second e)))) = true
  hangul : ∀ n, isHangul n = true → P n = false
  base : ∀ c : Char, P c.toNat = true → combiningClass c = 0

theorem Inert.of_entry (hP : Inert P) (he : e ∈ decompositions) :
    P (whole e) = false ∧ ¬(P (first e) = true ∧ (second e = 0 ∨ P (second e) = true)) := by
  have htable := List.all_eq_true.1 hP.table e he
  simp only [Bool.and_eq_true, Bool.or_eq_true, Bool.not_eq_true', Bool.or_eq_false_iff] at htable
  obtain ⟨hwhole, hparts⟩ := htable
  refine ⟨hwhole, ?_⟩
  rintro ⟨hfirst, hsecond⟩
  rw [hfirst] at hparts
  simp_all

theorem Inert.atomic (hP : Inert P) (h : P c.toNat = true) : Atomic c := by
  constructor
  · cases hs : decomposeSyllable? c with
    | none => rfl
    | some letters =>
      have hnot := hP.hangul _ (isHangul_of_syllable hs).1
      exact absurd h (by simp [hnot])
  · cases hp : partsOf[c.toNat]? with
    | none => rfl
    | some parts =>
      obtain ⟨e, he, hwhole, _⟩ := partsOf_eq_some.1 hp
      exact absurd h (by simp [← hwhole, (hP.of_entry he).1])

/-- A character whose parts all belong to the set belongs to it. -/
theorem Inert.of_decompose (hP : Inert P) {n : Nat}
    (h : ∀ d ∈ decompose n c, P d.toNat = true) : P c.toNat = true := by
  induction n generalizing c with
  | zero => exact h c (List.mem_singleton_self c)
  | succ n ih =>
    rw [decompose_step] at h
    split at h
    next letters hs =>
      obtain ⟨d, hd⟩ := List.exists_mem_of_ne_nil _ (isHangul_of_syllable hs).2
      have hnot := hP.hangul _ (isHangul_of_mem_syllable hs hd)
      exact absurd (h d hd) (by simp [hnot])
    next =>
      split at h
      next => exact h c (List.mem_singleton_self c)
      next a b hp =>
        obtain ⟨e, he, _, rfl, rfl⟩ := partsOf_eq_some.1 hp
        obtain ⟨_, hplain, hplain'⟩ := isPlain_of_mem he
        have hfirst := ih fun d hd => h d (List.mem_append_left _ hd)
        have hsecond : second e = 0 ∨ P (second e) = true := by
          by_cases hz : second e = 0
          · exact .inl hz
          · rw [if_neg hz] at h
            have hs := ih fun d hd => h d (List.mem_append_right _ hd)
            exact .inr (toNat_of_isPlain hplain' ▸ hs)
        rw [toNat_of_isPlain hplain] at hfirst
        exact absurd ⟨hfirst, hsecond⟩ (hP.of_entry he).2

theorem Inert.orderMarks_eq (hP : Inert P) {cs : List Char} (h : ∀ c ∈ cs, P c.toNat = true) :
    orderMarks cs = cs := by
  induction cs with
  | nil => rfl
  | cons c cs ih =>
    obtain ⟨hc, hcs⟩ := List.forall_mem_cons.1 h
    rw [orderMarks, if_pos (hP.base c hc), ih hcs]

theorem Inert.decompose_eq (hP : Inert P) {cs : List Char} (h : ∀ c ∈ cs, P c.toNat = true) :
    cs.flatMap (decompose 3) = cs :=
  flatMap_decompose fun c hc => decompose_atomic (hP.atomic (h c hc)) 3

/-- Members of an inert set are the normal form of themselves alone. -/
theorem Inert.eq_of_normalize (hP : Inert P) {s : String}
    (h : ∀ c ∈ (normalize s).toList, P c.toNat = true) : normalize s = s := by
  by_cases hs : (s.toList.all fun c => c.toNat < 0x300) = true
  · exact if_pos hs
  · let cs := orderMarks (s.toList.flatMap (decompose 3))
    have hnormal : normalize s = String.ofList (composeAll cs) := if_neg hs
    have hatomic : ∀ c ∈ cs, decompose 3 c = [c] := by
      intro c hc
      obtain ⟨d, _, hcd⟩ := List.mem_flatMap.1 (mem_orderMarks hc)
      exact decompose_of_mem hcd
    rw [hnormal, String.toList_ofList] at h
    -- composing added nothing, so the parts of the text belong to the set as well
    have hcs : composeAll cs = cs := by
      have hback := orderMarks_composeAll hatomic (inOrder_orderMarks _)
      rwa [hP.decompose_eq h, hP.orderMarks_eq h, orderMarks_orderMarks] at hback
    rw [hcs] at h
    have hmem : ∀ c ∈ s.toList.flatMap (decompose 3), P c.toNat = true := fun c hc =>
      h c ((perm_orderMarks _).mem_iff.2 hc)
    have htext : ∀ c ∈ s.toList, P c.toNat = true := fun c hc =>
      hP.of_decompose fun d hd => hmem d (List.mem_flatMap.2 ⟨c, hc, hd⟩)
    have hparts : cs = s.toList := by
      rw [show cs = orderMarks (s.toList.flatMap (decompose 3)) from rfl, hP.decompose_eq htext,
        hP.orderMarks_eq htext]
    rw [hnormal, hcs, hparts, String.ofList_toList]

end

/-! ## Characters that stand for another one -/

/-- An entry with a single part: the character is another spelling of that part. -/
theorem second_tables : (decompositions.all fun e =>
    Nat.ble 0xC0 (whole e) && (!Nat.beq (second e) 0 || Nat.ble 0x300 (whole e))) = true := by
  decide +kernel

theorem le_whole {e : Nat} (he : e ∈ decompositions) :
    0xC0 ≤ whole e ∧ (second e = 0 → 0x300 ≤ whole e) := by
  have htable := List.all_eq_true.1 second_tables e he
  rw [Bool.and_eq_true, Bool.or_eq_true, Nat.ble_eq, Nat.ble_eq] at htable
  obtain ⟨hlow, hhigh⟩ := htable
  exact ⟨hlow, fun hz => hhigh.resolve_left (by simp [hz])⟩

/-- Ascii has no parts. -/
theorem atomic_of_lt {c : Char} (h : c.toNat < 0xC0) : Atomic c := by
  refine ⟨decomposeSyllable?_eq_none (.inl (Nat.lt_trans h (by decide))), ?_⟩
  cases hp : partsOf[c.toNat]? with
  | none => rfl
  | some parts =>
    obtain ⟨e, he, hwhole, _⟩ := partsOf_eq_some.1 hp
    exact absurd (le_whole he).1 (by omega)

section

variable {e : Nat} {c d : Char}

/-- Such a character is in no normal form. -/
theorem not_mem_normalize (he : e ∈ decompositions) (hwhole : whole e = c.toNat)
    (hsecond : second e = 0) (s : String) : c ∉ (normalize s).toList := by
  have hparts : partsOf[c.toNat]? = some (first e, 0) :=
    partsOf_eq_some.2 ⟨e, he, hwhole, rfl, hsecond⟩
  intro hc
  rw [normalize] at hc
  split at hc
  next hs =>
    have hlow := of_decide_eq_true (List.all_eq_true.1 hs c hc)
    have hhigh := (le_whole he).2 hsecond
    omega
  next =>
    rw [String.toList_ofList] at hc
    obtain hc | ⟨a, b, hab⟩ := mem_composeAll hc
    · obtain ⟨_, _, hc⟩ := List.mem_flatMap.1 (mem_orderMarks hc)
      exact absurd hparts (by simp [(atomic_of_mem hc).2])
    · obtain hhangul | ⟨e', he', hwhole', hne⟩ := whole_of_compose? hab
      · have hplain := isPlain_iff.1 (isPlain_of_mem he).1
        have := isHangul_iff.1 hhangul
        omega
      · have hparts' := partsOf_eq_some.2 ⟨e', he', hwhole', rfl, rfl⟩
        rw [hparts, Option.some.injEq, Prod.mk.injEq] at hparts'
        exact hne hparts'.2.symm

/-- A character with a single part is that part in the normal form. -/
theorem normalize_single (he : e ∈ decompositions) (hwhole : whole e = c.toNat)
    (hfirst : first e = d.toNat) (hsecond : second e = 0) (hd : Atomic d)
    (hclass : combiningClass d = 0) : normalize (String.ofList [c]) = String.ofList [d] := by
  have hlarge : 0x300 ≤ c.toNat := hwhole ▸ (le_whole he).2 hsecond
  have hall : ¬((String.ofList [c]).toList.all fun c => decide (c.toNat < 0x300)) = true := by
    rw [String.toList_ofList, List.all_cons, decide_eq_false (Nat.not_lt.2 hlarge), Bool.false_and]
    exact Bool.false_ne_true
  have hparts : partsOf[c.toNat]? = some (first e, 0) :=
    partsOf_eq_some.2 ⟨e, he, hwhole, rfl, hsecond⟩
  have hplain : decomposeSyllable? c = none := by
    have hplain := decomposeSyllable?_of_isPlain (isPlain_of_mem he).1
    rwa [eq_ofNat hwhole.symm] at hplain
  have hdecompose : decompose 3 c = [d] := by
    rw [decompose_step, hplain]
    simp only [hparts, if_pos, eq_ofNat hfirst.symm, decompose_atomic hd, List.append_nil]
  have hordered : orderMarks [d] = [d] := by
    simp [orderMarks, hclass]
  have hcomposed : composeAll [d] = [d] := by
    simp [composeAll, composeOnto, hclass]
  rw [normalize, if_neg hall, String.toList_ofList, List.flatMap_singleton, hdecompose, hordered,
    hcomposed]

end

end CommitChain.Text.Normal
