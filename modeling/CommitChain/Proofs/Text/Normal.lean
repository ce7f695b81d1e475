import CommitChain.Text.Normal
import Mathlib.Data.List.Chain

/-!
# Normal text stays as it is

Decomposing and ordering a composed text gives back what it was composed from
(`orderMarks_composeAll`), so `normalize` changes nothing the second time (`normalize_normalize`).

Composing takes a mark out of its place behind others.  It passes over marks of smaller classes
only, and `orderMarks` does not see where such a mark stands (`orderMarks_move`).  What the tables
have to do for this is to tell the two parts that each composed character has, and to decompose in
at most three steps (`layer_three`).
-/

namespace CommitChain.Text.Normal

/-! ## Marks in order -/

theorem insertMark_comm {c d : Char} (hc : combiningClass c ≠ 0) (hd : combiningClass d ≠ 0)
    (h : combiningClass c ≠ combiningClass d) (cs : List Char) :
    insertMark c (insertMark d cs) = insertMark d (insertMark c cs) := by
  induction cs with
  | nil => grind [insertMark]
  | cons e cs ih => grind [insertMark]

theorem orderMarks_mark {c : Char} (hc : combiningClass c ≠ 0) (cs : List Char) :
    orderMarks (c :: cs) = insertMark c (orderMarks cs) :=
  if_neg hc

theorem orderMarks_insertMark_append {c : Char} (hc : combiningClass c ≠ 0) (cs ds : List Char) :
    orderMarks (insertMark c cs ++ ds) = insertMark c (orderMarks (cs ++ ds)) := by
  induction cs with
  | nil => exact orderMarks_mark hc ds
  | cons d cs ih =>
    rw [insertMark]
    split
    next h =>
      obtain ⟨hd, hlt⟩ := h
      rw [List.cons_append, orderMarks_mark hd, ih, List.cons_append, orderMarks_mark hd,
        insertMark_comm hd hc (Nat.ne_of_lt hlt)]
    next => exact orderMarks_mark hc _

theorem orderMarks_append (cs ds : List Char) :
    orderMarks (orderMarks cs ++ ds) = orderMarks (cs ++ ds) := by
  induction cs with
  | nil => rfl
  | cons c cs ih =>
    by_cases hc : combiningClass c = 0
    · rw [orderMarks, if_pos hc, List.cons_append, orderMarks, if_pos hc, ih, List.cons_append,
        orderMarks, if_pos hc]
    · rw [orderMarks_mark hc, orderMarks_insertMark_append hc, ih, List.cons_append,
        orderMarks_mark hc]

theorem orderMarks_orderMarks (cs : List Char) : orderMarks (orderMarks cs) = orderMarks cs := by
  simpa using orderMarks_append cs []

theorem append_orderMarks (cs ds : List Char) :
    orderMarks (cs ++ orderMarks ds) = orderMarks (cs ++ ds) := by
  induction cs with
  | nil => exact orderMarks_orderMarks ds
  | cons c cs ih =>
    show (if combiningClass c = 0 then c :: orderMarks (cs ++ orderMarks ds)
      else insertMark c (orderMarks (cs ++ orderMarks ds))) = _
    rw [ih]
    rfl

/-- A mark may stand in front of or behind marks of other classes. -/
theorem orderMarks_move {c : Char} (hc : combiningClass c ≠ 0) {marks : List Char}
    (hm : ∀ m ∈ marks, combiningClass m ≠ 0 ∧ combiningClass m < combiningClass c)
    (cs : List Char) : orderMarks (c :: (marks ++ cs)) = orderMarks (marks ++ c :: cs) := by
  induction marks with
  | nil => rfl
  | cons m marks ih =>
    obtain ⟨⟨hm0, hlt⟩, hms⟩ := List.forall_mem_cons.1 hm
    rw [List.cons_append, orderMarks_mark hc, orderMarks_mark hm0,
      insertMark_comm hc hm0 (Nat.ne_of_gt hlt), ← orderMarks_mark hc, ih hms, List.cons_append,
      orderMarks_mark hm0]

/-- The classes of neighbouring marks do not fall. -/
def InOrder (cs : List Char) : Prop :=
  cs.IsChain fun a b => combiningClass b = 0 ∨ combiningClass a ≤ combiningClass b

theorem inOrder_cons_insertMark {a c : Char} {cs : List Char}
    (hac : combiningClass a ≤ combiningClass c) (h : InOrder (a :: cs)) :
    InOrder (a :: insertMark c cs) := by
  induction cs generalizing a with
  | nil => exact List.isChain_pair.2 (.inr hac)
  | cons d cs ih =>
    obtain ⟨had, hd⟩ := List.isChain_cons_cons.1 h
    rw [insertMark]
    split
    next hlt => exact List.isChain_cons_cons.2 ⟨had, ih (Nat.le_of_lt hlt.2) hd⟩
    next hge =>
      refine List.isChain_cons_cons.2 ⟨.inr hac, List.isChain_cons_cons.2 ⟨?_, hd⟩⟩
      omega

theorem inOrder_insertMark {c : Char} {cs : List Char} (h : InOrder cs) :
    InOrder (insertMark c cs) := by
  cases cs with
  | nil => exact List.isChain_singleton c
  | cons d cs =>
    rw [insertMark]
    split
    next hlt => exact inOrder_cons_insertMark (Nat.le_of_lt hlt.2) h
    next hge =>
      refine List.isChain_cons_cons.2 ⟨?_, h⟩
      omega

theorem inOrder_orderMarks (cs : List Char) : InOrder (orderMarks cs) := by
  induction cs with
  | nil => exact List.isChain_nil
  | cons c cs ih =>
    rw [orderMarks]
    split
    next hc =>
      cases hcs : orderMarks cs with
      | nil => exact List.isChain_singleton c
      | cons d ds =>
        rw [hcs] at ih
        refine List.isChain_cons_cons.2 ⟨.inr ?_, ih⟩
        omega
    next => exact inOrder_insertMark ih

theorem mem_insertMark {c d : Char} {cs : List Char} (h : d ∈ insertMark c cs) :
    d = c ∨ d ∈ cs := by
  induction cs with
  | nil => exact .inl (List.mem_singleton.1 h)
  | cons e cs ih =>
    rw [insertMark] at h
    split at h
    · rcases List.mem_cons.1 h with rfl | h
      · exact .inr List.mem_cons_self
      · exact (ih h).imp_right (List.mem_cons_of_mem e)
    · exact List.mem_cons.1 h

theorem mem_orderMarks {d : Char} {cs : List Char} (h : d ∈ orderMarks cs) : d ∈ cs := by
  induction cs with
  | nil => exact h
  | cons c cs ih =>
    rw [orderMarks] at h
    split at h
    · exact List.mem_cons.2 ((List.mem_cons.1 h).imp_right ih)
    · exact List.mem_cons.2 ((mem_insertMark h).imp_right ih)

/-! ## The tables -/

def whole (entry : Nat) : Nat := entry / 0x1000000000000

def first (entry : Nat) : Nat := entry / 0x1000000 % 0x1000000

def second (entry : Nat) : Nat := entry % 0x1000000

set_option maxRecDepth 100000 in
theorem isChain_whole : (decompositions.map whole).IsChain (· < ·) := by
  decide +kernel

/-- A character that is neither Hangul nor a surrogate. -/
def isPlain (n : Nat) : Bool :=
  Nat.blt n firstLeading || (Nat.ble 0x1200 n && Nat.blt n firstSyllable) ||
    (Nat.ble 0xE000 n && Nat.blt n 0x110000)

theorem isPlain_parts : (decompositions.all fun e =>
    isPlain (whole e) && isPlain (first e) && isPlain (second e)) = true := by
  decide +kernel

theorem mem_of_getElem?_ofList {α β : Type} [BEq α] [LawfulBEq α] [Hashable α] {l : List (α × β)}
    {k : α} {v : β} (h : (Std.HashMap.ofList l)[k]? = some v) : (k, v) ∈ l := by
  rw [Std.HashMap.ofList_eq_insertMany_empty, Std.HashMap.getElem?_insertMany_list,
    Std.HashMap.getElem?_empty, Option.or_none, List.findSomeRev?_eq_findSome?_reverse] at h
  obtain ⟨⟨a, b⟩, hmem, hb⟩ := List.exists_of_findSome?_eq_some h
  by_cases hk : a == k
  · obtain rfl : b = v := by simpa [hk] using hb
    exact eq_of_beq hk ▸ List.mem_reverse.1 hmem
  · exact absurd hb (by simp [hk])

theorem partsOf_eq_some {n a b : Nat} :
    partsOf[n]? = some (a, b)
      ↔ ∃ e ∈ decompositions, whole e = n ∧ first e = a ∧ second e = b := by
  constructor
  · intro h
    obtain ⟨e, he, hparts⟩ := List.mem_map.1 (mem_of_getElem?_ofList h)
    cases hparts
    exact ⟨e, he, rfl, rfl, rfl⟩
  · rintro ⟨e, he, rfl, rfl, rfl⟩
    have hlt : decompositions.Pairwise fun d e => whole d < whole e :=
      List.pairwise_map.1 (List.isChain_iff_pairwise.1 isChain_whole)
    have hdistinct : (decompositions.map fun e => (whole e, (first e, second e))).Pairwise
        fun p q => (p.1 == q.1) = false :=
      List.pairwise_map.2 (hlt.imp fun h => beq_false_of_ne (Nat.ne_of_lt h))
    exact Std.HashMap.getElem?_ofList_of_mem (BEq.refl (whole e)) hdistinct
      (List.mem_map_of_mem he)

theorem exists_of_wholeOf {a b n : Nat} (h : wholeOf[(a, b)]? = some n) :
    ∃ e ∈ decompositions, whole e = n ∧ first e = a ∧ second e = b ∧ second e ≠ 0 := by
  obtain ⟨e, he, hparts⟩ := List.mem_map.1 (mem_of_getElem?_ofList h)
  obtain ⟨hmem, hfilter⟩ := List.mem_filter.1 he
  cases hparts
  rw [Bool.and_eq_true, decide_eq_true_eq] at hfilter
  exact ⟨e, hmem, rfl, rfl, rfl, hfilter.1⟩

/-! ## How deep characters decompose -/

-- looking a character up must not be done by building the tables
attribute [local irreducible] partsOf wholeOf

/-- Numbers as the ones of a binary number. -/
def bits (ns : List Nat) : Nat :=
  ns.foldl (fun m n => m ||| 1 <<< n) 0

theorem testBit_bits_iff {ns : List Nat} {n : Nat} : (bits ns).testBit n = true ↔ n ∈ ns := by
  have hfold : ∀ (ns : List Nat) (m : Nat),
      (ns.foldl (fun m n => m ||| 1 <<< n) m).testBit n = true ↔ m.testBit n = true ∨ n ∈ ns := by
    intro ns
    induction ns with
    | nil => simp
    | cons k ns ih =>
      intro m
      rw [List.foldl_cons, ih, Nat.testBit_or, Bool.or_eq_true, Nat.one_shiftLeft,
        Nat.testBit_two_pow, decide_eq_true_eq, List.mem_cons, or_assoc, @eq_comm _ k]
  rw [bits, hfold, Nat.zero_testBit]
  simp

theorem testBit_bits {ns : List Nat} {n : Nat} (h : n ∈ ns) : (bits ns).testBit n = true :=
  testBit_bits_iff.2 h

/-- The characters that are not done after so many steps and one more. -/
def layer : Nat → Nat
  | 0 => bits (decompositions.map whole)
  | n + 1 =>
    bits ((decompositions.filter fun e =>
      (layer n).testBit (first e) || (layer n).testBit (second e)).map whole)

theorem layer_three : layer 3 = 0 := by
  decide +kernel

/-- A character that is its own decomposition. -/
def Atomic (c : Char) : Prop :=
  decomposeSyllable? c = none ∧ partsOf[c.toNat]? = none

theorem decompose_step (n : Nat) (c : Char) :
    decompose (n + 1) c
      = match decomposeSyllable? c with
        | some letters => letters
        | none =>
          match partsOf[c.toNat]? with
          | none => [c]
          | some (a, b) =>
            decompose n (Char.ofNat a) ++ if b = 0 then [] else decompose n (Char.ofNat b) :=
  rfl

theorem decompose_atomic {c : Char} (h : Atomic c) (n : Nat) : decompose n c = [c] := by
  cases n with
  | zero => rfl
  | succ n => rw [decompose_step, h.1, h.2]

theorem toNat_ofNat {n : Nat} (h : n.isValidChar) : (Char.ofNat n).toNat = n := by
  rw [Char.ofNat, dif_pos h]
  rfl

theorem decomposeSyllable?_eq_none {c : Char}
    (h : c.toNat < firstSyllable ∨ firstSyllable + 19 * vowelCount * finalCount ≤ c.toNat) :
    decomposeSyllable? c = none := by
  refine if_neg fun hs => ?_
  omega

theorem isPlain_iff {n : Nat} :
    isPlain n = true
      ↔ n < 0x1100 ∨ (0x1200 ≤ n ∧ n < 0xAC00) ∨ 0xE000 ≤ n ∧ n < 0x110000 := by
  simp only [isPlain, Bool.or_eq_true, Bool.and_eq_true, Nat.blt_eq, Nat.ble_eq, firstLeading,
    firstSyllable, or_assoc]

theorem toNat_of_isPlain {n : Nat} (h : isPlain n = true) : (Char.ofNat n).toNat = n := by
  have hn := isPlain_iff.1 h
  refine toNat_ofNat ?_
  show n < 0xD800 ∨ 0xDFFF < n ∧ n < 0x110000
  omega

theorem decomposeSyllable?_of_isPlain {n : Nat} (h : isPlain n = true) :
    decomposeSyllable? (Char.ofNat n) = none := by
  have hn := isPlain_iff.1 h
  refine decomposeSyllable?_eq_none ?_
  rw [toNat_of_isPlain h]
  show n < 0xAC00 ∨ 0xAC00 + 19 * 21 * 28 ≤ n
  omega

theorem isPlain_of_mem {e : Nat} (h : e ∈ decompositions) :
    isPlain (whole e) = true ∧ isPlain (first e) = true ∧ isPlain (second e) = true := by
  have hall := List.all_eq_true.1 isPlain_parts e h
  rwa [Bool.and_eq_true, Bool.and_eq_true, and_assoc] at hall

theorem atomic_of_mem_decompose {n : Nat} {c d : Char} (hs : decomposeSyllable? c = none)
    (hn : (layer n).testBit c.toNat = false) (hd : d ∈ decompose n c) : Atomic d := by
  induction n generalizing c with
  | zero =>
    obtain rfl := List.mem_singleton.1 hd
    refine ⟨hs, ?_⟩
    cases hparts : partsOf[d.toNat]? with
    | none => rfl
    | some p =>
      obtain ⟨e, he, hwhole, _⟩ := partsOf_eq_some.1 hparts
      have hbit : (layer 0).testBit d.toNat = true :=
        testBit_bits (hwhole ▸ List.mem_map_of_mem he)
      exact absurd hbit (by simp [hn])
  | succ n ih =>
    rw [decompose_step, hs] at hd
    cases hparts : partsOf[c.toNat]? with
    | none =>
      simp only [hparts] at hd
      obtain rfl := List.mem_singleton.1 hd
      exact ⟨hs, hparts⟩
    | some p =>
      obtain ⟨a, b⟩ := p
      obtain ⟨e, he, hwhole, rfl, rfl⟩ := partsOf_eq_some.1 hparts
      obtain ⟨_, ha, hb⟩ := isPlain_of_mem he
      have hshallow : (layer n).testBit (first e) = false ∧
          (layer n).testBit (second e) = false := by
        rw [← Bool.or_eq_false_iff, Bool.eq_false_iff]
        intro hbit
        have hdeep : (layer (n + 1)).testBit c.toNat = true :=
          testBit_bits (hwhole ▸ List.mem_map_of_mem (List.mem_filter.2 ⟨he, hbit⟩))
        exact absurd hdeep (by simp [hn])
      simp only [hparts] at hd
      rcases List.mem_append.1 hd with hd | hd
      · exact ih (decomposeSyllable?_of_isPlain ha) (by rw [toNat_of_isPlain ha, hshallow.1]) hd
      · split at hd
        · exact absurd hd List.not_mem_nil
        · exact ih (decomposeSyllable?_of_isPlain hb)
            (by rw [toNat_of_isPlain hb, hshallow.2]) hd

/-- What is done after some steps is not changed by one more. -/
theorem decompose_succ {n : Nat} {c : Char} (h : ∀ d ∈ decompose n c, Atomic d) :
    decompose (n + 1) c = decompose n c := by
  induction n generalizing c with
  | zero => exact decompose_atomic (h c (List.mem_singleton_self c)) 1
  | succ n ih =>
    rw [decompose_step, decompose_step]
    rw [decompose_step] at h
    split
    next => rfl
    next hs =>
      rw [hs] at h
      split
      next => rfl
      next a b hparts =>
        simp only [hparts] at h
        obtain ⟨ha, hb⟩ := List.forall_mem_append.1 h
        rw [ih ha]
        split
        next => rfl
        next hne =>
          rw [if_neg hne] at hb
          rw [ih hb]

/-! ## Composing two characters -/

/-- The letters of Hangul do not decompose. -/
theorem atomic_letter {c : Char} (h : firstLeading ≤ c.toNat ∧ c.toNat < 0x1200) : Atomic c := by
  have hlow : c.toNat < firstSyllable := Nat.lt_trans h.2 (by decide)
  refine ⟨decomposeSyllable?_eq_none (.inl hlow), ?_⟩
  cases hparts : partsOf[c.toNat]? with
  | none => rfl
  | some p =>
    obtain ⟨e, he, hwhole, _⟩ := partsOf_eq_some.1 hparts
    have hplain := isPlain_iff.1 (isPlain_of_mem he).1
    have hc : 0x1100 ≤ c.toNat ∧ c.toNat < 0x1200 := h
    omega

theorem decomposeSyllable?_eq {c : Char} {l v f : Nat} (hl : l < 19) (hv : v < 21) (hf : f < 28)
    (hc : c.toNat = 0xAC00 + (l * 21 + v) * 28 + f) :
    decomposeSyllable? c
      = some (if f = 0 then [Char.ofNat (0x1100 + l), Char.ofNat (0x1161 + v)]
        else [Char.ofNat (0x1100 + l), Char.ofNat (0x1161 + v), Char.ofNat (0x11A7 + f)]) := by
  have hs : c.toNat - 0xAC00 = (l * 21 + v) * 28 + f := by omega
  have hin : 0xAC00 ≤ c.toNat ∧ (l * 21 + v) * 28 + f < 19 * 21 * 28 := by omega
  have h1 : ((l * 21 + v) * 28 + f) / (21 * 28) = l := by omega
  have h2 : ((l * 21 + v) * 28 + f) % (21 * 28) / 28 = v := by omega
  have h3 : ((l * 21 + v) * 28 + f) % 28 = f := by omega
  simp only [decomposeSyllable?, firstSyllable, vowelCount, finalCount, firstLeading, firstVowel,
    firstFinal, hs, if_pos hin, h1, h2, h3]
  split
  · rfl
  · rfl

theorem eq_ofNat {c : Char} {n : Nat} (h : c.toNat = n) : Char.ofNat n = c := by
  rw [← h, Char.ofNat_toNat]

theorem composeSyllable?_eq_some {a b c : Char} (h : composeSyllable? a b = some c) :
    (∃ l v, l < 19 ∧ v < 21 ∧ a.toNat = 0x1100 + l ∧ b.toNat = 0x1161 + v ∧
      c.toNat = 0xAC00 + (l * 21 + v) * 28 + 0) ∨
    ∃ l v f, l < 19 ∧ v < 21 ∧ 0 < f ∧ f < 28 ∧ a.toNat = 0xAC00 + (l * 21 + v) * 28 + 0 ∧
      b.toNat = 0x11A7 + f ∧ c.toNat = 0xAC00 + (l * 21 + v) * 28 + f := by
  unfold composeSyllable? at h
  dsimp only at h
  split at h
  next hlv =>
    have hab : 0x1100 ≤ a.toNat ∧ a.toNat - 0x1100 < 19 ∧ 0x1161 ≤ b.toNat ∧
      b.toNat - 0x1161 < 21 := hlv
    have hc : c = Char.ofNat (0xAC00 + ((a.toNat - 0x1100) * 21 + (b.toNat - 0x1161)) * 28) :=
      (Option.some.inj h).symm
    refine .inl ⟨a.toNat - 0x1100, b.toNat - 0x1161, hab.2.1, hab.2.2.2, by omega, by omega, ?_⟩
    rw [hc, Nat.add_zero]
    exact toNat_ofNat (.inl (by omega))
  next =>
    split at h
    next hlvt =>
      have hab : 0xAC00 ≤ a.toNat ∧ a.toNat - 0xAC00 < 19 * 21 * 28 ∧
        (a.toNat - 0xAC00) % 28 = 0 ∧ 0x11A7 < b.toNat ∧ b.toNat - 0x11A7 < 28 := hlvt
      have hc : c = Char.ofNat (a.toNat + (b.toNat - 0x11A7)) := (Option.some.inj h).symm
      have hc : c.toNat = a.toNat + (b.toNat - 0x11A7) := by
        rw [hc]
        exact toNat_ofNat (.inl (by omega))
      refine .inr ⟨(a.toNat - 0xAC00) / 28 / 21, (a.toNat - 0xAC00) / 28 % 21, b.toNat - 0x11A7, ?_⟩
      omega
    next => exact absurd h (by simp)

theorem decompose_syllable {c : Char} {letters : List Char}
    (h : decomposeSyllable? c = some letters) (n : Nat) : decompose (n + 1) c = letters := by
  rw [decompose_step, h]

theorem decompose_composeSyllable {a b c : Char} (h : composeSyllable? a b = some c) :
    decompose 3 c = decompose 3 a ++ decompose 3 b := by
  rcases composeSyllable?_eq_some h with
    ⟨l, v, hl, hv, ha, hb, hc⟩ | ⟨l, v, f, hl, hv, hpos, hf, ha, hb, hc⟩
  · have hatomic : Atomic a ∧ Atomic b :=
      ⟨atomic_letter ⟨show 0x1100 ≤ a.toNat by omega, by omega⟩,
        atomic_letter ⟨show 0x1100 ≤ b.toNat by omega, by omega⟩⟩
    rw [decompose_atomic hatomic.1, decompose_atomic hatomic.2,
      decompose_syllable (decomposeSyllable?_eq hl hv (by decide) hc), if_pos rfl, eq_ofNat ha,
      eq_ofNat hb]
    rfl
  · have hatomic : Atomic b := atomic_letter ⟨show 0x1100 ≤ b.toNat by omega, by omega⟩
    rw [decompose_atomic hatomic, decompose_syllable (decomposeSyllable?_eq hl hv hf hc),
      decompose_syllable (decomposeSyllable?_eq hl hv (by decide) ha), if_pos rfl,
      if_neg (Nat.ne_of_gt hpos), eq_ofNat hb]
    rfl

/-- A syllable is made of letters. -/
theorem letter_of_mem_syllable {c d : Char} {letters : List Char}
    (h : decomposeSyllable? c = some letters) (hd : d ∈ letters) :
    firstLeading ≤ d.toNat ∧ d.toNat < 0x1200 := by
  unfold decomposeSyllable? at h
  dsimp only at h
  split at h
  next hs =>
    have hs' : c.toNat - 0xAC00 < 19 * 21 * 28 := hs.2
    have hletter : ∀ n, 0x1100 ≤ n → n < 0x1200 →
        0x1100 ≤ (Char.ofNat n).toNat ∧ (Char.ofNat n).toNat < 0x1200 := by
      intro n hlow hhigh
      rw [toNat_ofNat (show n < 0xD800 ∨ _ by omega)]
      exact ⟨hlow, hhigh⟩
    have hleading := hletter (0x1100 + (c.toNat - 0xAC00) / (21 * 28)) (by omega) (by omega)
    have hvowel := hletter (0x1161 + (c.toNat - 0xAC00) % (21 * 28) / 28) (by omega) (by omega)
    have hfinal := hletter (0x11A7 + (c.toNat - 0xAC00) % 28) (by omega) (by omega)
    have hall : ∀ l ∈ letters, 0x1100 ≤ l.toNat ∧ l.toNat < 0x1200 := by
      split at h
      · rw [← Option.some.inj h]
        exact List.forall_mem_cons.2 ⟨hleading, List.forall_mem_singleton.2 hvowel⟩
      · rw [← Option.some.inj h]
        exact List.forall_mem_cons.2
          ⟨hleading, List.forall_mem_cons.2 ⟨hvowel, List.forall_mem_singleton.2 hfinal⟩⟩
    exact hall d hd
  next => exact absurd h (by simp)

theorem atomic_of_mem_syllable {c d : Char} {letters : List Char}
    (h : decomposeSyllable? c = some letters) (hd : d ∈ letters) : Atomic d :=
  atomic_letter (letter_of_mem_syllable h hd)

theorem decompose_compose {a b c : Char} (h : compose? a b = some c) :
    decompose 3 c = decompose 3 a ++ decompose 3 b := by
  rw [compose?] at h
  split at h
  next c' hc =>
    cases h
    exact decompose_composeSyllable hc
  next =>
    obtain ⟨n, hn, rfl⟩ := Option.map_eq_some_iff.1 h
    obtain ⟨e, he, rfl, ha, hb, hne⟩ := exists_of_wholeOf hn
    obtain ⟨hw, hp⟩ := isPlain_of_mem he
    have hshallow : (layer 2).testBit (first e) = false ∧
        (layer 2).testBit (second e) = false := by
      rw [← Bool.or_eq_false_iff, Bool.eq_false_iff]
      intro hbit
      have hdeep : (layer 3).testBit (whole e) = true :=
        testBit_bits (List.mem_map_of_mem (List.mem_filter.2 ⟨he, hbit⟩))
      exact absurd hdeep (by simp [layer_three])
    have hparts : partsOf[(Char.ofNat (whole e)).toNat]? = some (first e, second e) := by
      rw [toNat_of_isPlain hw]
      exact partsOf_eq_some.2 ⟨e, he, rfl, rfl, rfl⟩
    rw [decompose_step, decomposeSyllable?_of_isPlain hw]
    simp only [hparts, if_neg hne]
    rw [eq_ofNat ha.symm, eq_ofNat hb.symm]
    have hdone : ∀ d : Char, decomposeSyllable? d = none → (layer 2).testBit d.toNat = false →
        decompose 2 d = decompose 3 d := fun d hd hbit =>
      (decompose_succ fun _ => atomic_of_mem_decompose hd hbit).symm
    have hsa := decomposeSyllable?_of_isPlain hp.1
    have hsb := decomposeSyllable?_of_isPlain hp.2
    rw [eq_ofNat ha.symm] at hsa
    rw [eq_ofNat hb.symm] at hsb
    rw [hdone a hsa (ha ▸ hshallow.1), hdone b hsb (hb ▸ hshallow.2)]

/-- Three steps decompose everything. -/
theorem atomic_of_mem {c d : Char} (h : d ∈ decompose 3 c) : Atomic d := by
  cases hs : decomposeSyllable? c with
  | none => exact atomic_of_mem_decompose hs (by simp [layer_three]) h
  | some letters => exact atomic_of_mem_syllable hs (decompose_syllable hs 2 ▸ h)

theorem decompose_of_mem {c d : Char} (h : d ∈ decompose 3 c) : decompose 3 d = [d] :=
  decompose_atomic (atomic_of_mem h) 3

/-! ## Composing a text -/

theorem flatMap_decompose {cs : List Char} (h : ∀ c ∈ cs, decompose 3 c = [c]) :
    cs.flatMap (decompose 3) = cs := by
  induction cs with
  | nil => rfl
  | cons c cs ih =>
    obtain ⟨hc, hcs⟩ := List.forall_mem_cons.1 h
    rw [List.flatMap_cons, hc, ih hcs, List.singleton_append]

theorem orderMarks_congr {cs ds : List Char} (h : orderMarks cs = orderMarks ds)
    (before : List Char) : orderMarks (before ++ cs) = orderMarks (before ++ ds) := by
  rw [← append_orderMarks, h, append_orderMarks]

/-- Whether a character behind marks that were passed over can be composed with the base. -/
def reachable (marks : List Char) (c : Char) : Bool :=
  match marks with
  | [] => true
  | m :: _ => combiningClass m < combiningClass c

theorem composeOnto_cons (base : Char) (marks : List Char) (c : Char) (cs : List Char) :
    composeOnto base marks (c :: cs)
      = match if reachable marks c then compose? base c else none with
        | some whole => composeOnto whole marks cs
        | none =>
          if combiningClass c = 0 then base :: (marks.reverse ++ composeOnto c [] cs)
          else composeOnto base (c :: marks) cs :=
  rfl

/-- Marks that were passed over: the last one comes first and has the largest class, and `cs` stands
behind it. -/
structure Passed (marks cs : List Char) : Prop where
  passed : ∀ m ∈ marks, combiningClass m ≠ 0 ∧ decompose 3 m = [m]
  falling : marks.Pairwise fun a b => combiningClass b ≤ combiningClass a
  behind : ∀ m ∈ marks.head?, InOrder (m :: cs)
  atomic : ∀ c ∈ cs, decompose 3 c = [c]
  rest : InOrder cs

theorem Passed.nil {marks : List Char} {c : Char} {cs : List Char} (h : Passed marks (c :: cs)) :
    Passed [] cs where
  passed := fun _ hm => absurd hm List.not_mem_nil
  falling := List.Pairwise.nil
  behind := fun _ hm => absurd hm (by simp)
  atomic := (List.forall_mem_cons.1 h.atomic).2
  rest := h.rest.tail

theorem Passed.cons {marks : List Char} {c : Char} {cs : List Char} (h : Passed marks (c :: cs))
    (hc : combiningClass c ≠ 0) : Passed (c :: marks) cs where
  passed := List.forall_mem_cons.2 ⟨⟨hc, h.atomic c List.mem_cons_self⟩, h.passed⟩
  falling := by
    refine List.pairwise_cons.2 ⟨fun m hm => ?_, h.falling⟩
    cases hmarks : marks with
    | nil => exact absurd hm (hmarks ▸ List.not_mem_nil)
    | cons k ms =>
      have hk : InOrder (k :: c :: cs) := h.behind k (by rw [hmarks]; rfl)
      have hkc : combiningClass k ≤ combiningClass c :=
        (List.isChain_cons_cons.1 hk).1.resolve_left hc
      have hfalling := h.falling
      rw [hmarks] at hm hfalling
      rcases List.mem_cons.1 hm with rfl | hm
      · exact hkc
      · exact Nat.le_trans ((List.pairwise_cons.1 hfalling).1 m hm) hkc
  behind := fun m hm => Option.some.inj hm ▸ h.rest
  atomic := (List.forall_mem_cons.1 h.atomic).2
  rest := h.rest.tail

/-- Everything that was passed over on the way to a reachable character has a smaller class. -/
theorem Passed.lt_of_reachable {marks : List Char} {c : Char} {cs : List Char}
    (h : Passed marks (c :: cs)) (hr : reachable marks c = true) :
    ∀ m ∈ marks, combiningClass m ≠ 0 ∧ combiningClass m < combiningClass c := by
  cases hmarks : marks with
  | nil => exact fun _ hm => absurd hm List.not_mem_nil
  | cons k ms =>
    rw [hmarks] at hr
    have hk : combiningClass k < combiningClass c := of_decide_eq_true hr
    have hfalling := h.falling
    have hms := h.passed
    rw [hmarks] at hfalling hms
    intro m hm
    refine ⟨(hms m hm).1, ?_⟩
    rcases List.mem_cons.1 hm with rfl | hm
    · exact hk
    · exact Nat.lt_of_le_of_lt ((List.pairwise_cons.1 hfalling).1 m hm) hk

theorem Passed.tail {marks : List Char} {c : Char} {cs : List Char} (h : Passed marks (c :: cs))
    (hr : reachable marks c = true) : Passed marks cs where
  passed := h.passed
  falling := h.falling
  behind := by
    intro m hm
    have hlt := (h.lt_of_reachable hr m (List.mem_of_mem_head? hm)).2
    have hrest := h.rest
    cases cs with
    | nil => exact List.isChain_singleton m
    | cons d ds =>
      obtain ⟨hcd, hd⟩ := List.isChain_cons_cons.1 hrest
      exact List.isChain_cons_cons.2
        ⟨hcd.imp_right fun hle => Nat.le_of_lt (Nat.lt_of_lt_of_le hlt hle), hd⟩
  atomic := (List.forall_mem_cons.1 h.atomic).2
  rest := h.rest.tail

/-- What is composed onto a base decomposes into the parts of the base, the marks that were passed
over, and the rest. -/
theorem orderMarks_composeOnto {base : Char} {marks cs : List Char} (h : Passed marks cs) :
    orderMarks ((composeOnto base marks cs).flatMap (decompose 3))
      = orderMarks (decompose 3 base ++ (marks.reverse ++ cs)) := by
  induction cs generalizing base marks with
  | nil =>
    have hmarks : ∀ m ∈ marks.reverse, decompose 3 m = [m] :=
      fun m hm => (h.passed m (List.mem_reverse.1 hm)).2
    rw [composeOnto, List.flatMap_cons, flatMap_decompose hmarks, List.append_nil]
  | cons c cs ih =>
    have hc : decompose 3 c = [c] := h.atomic c List.mem_cons_self
    rw [composeOnto_cons]
    split
    next whole hwhole =>
      by_cases hr : reachable marks c = true
      · rw [if_pos hr] at hwhole
        rw [ih (h.tail hr), decompose_compose hwhole, hc, List.append_assoc]
        refine orderMarks_congr ?_ (decompose 3 base)
        have hlt := h.lt_of_reachable hr
        cases marks with
        | nil => rfl
        | cons m ms =>
          have hc0 : combiningClass c ≠ 0 := Nat.ne_of_gt (Nat.zero_lt_of_lt (hlt m (by simp)).2)
          exact orderMarks_move hc0 (fun k hk => hlt k (List.mem_reverse.1 hk)) cs
      · rw [if_neg hr] at hwhole
        exact absurd hwhole (by simp)
    next =>
      by_cases hc0 : combiningClass c = 0
      · have hmarks : ∀ m ∈ marks.reverse, decompose 3 m = [m] :=
          fun m hm => (h.passed m (List.mem_reverse.1 hm)).2
        rw [if_pos hc0, List.flatMap_cons, List.flatMap_append, flatMap_decompose hmarks]
        refine orderMarks_congr (orderMarks_congr ?_ marks.reverse) (decompose 3 base)
        rw [ih h.nil, hc]
        rfl
      · rw [if_neg hc0, ih (h.cons hc0), List.reverse_cons, List.append_assoc]
        rfl

theorem orderMarks_composeAll {cs : List Char} (hd : ∀ c ∈ cs, decompose 3 c = [c])
    (ho : InOrder cs) : orderMarks ((composeAll cs).flatMap (decompose 3)) = orderMarks cs := by
  induction cs with
  | nil => rfl
  | cons c cs ih =>
    obtain ⟨hc, hcs⟩ := List.forall_mem_cons.1 hd
    rw [composeAll]
    split
    next hc0 =>
      have hpassed : Passed [] cs :=
        ⟨fun _ hm => absurd hm List.not_mem_nil, List.Pairwise.nil,
          fun _ hm => absurd hm (by simp), hcs, ho.tail⟩
      rw [orderMarks_composeOnto hpassed, hc]
      rfl
    next =>
      rw [List.flatMap_cons, hc]
      exact orderMarks_congr (ih hcs ho.tail) [c]

end Normal

open CommitChain.Text.Normal

theorem normalize_normalize (s : String) : normalize (normalize s) = normalize s := by
  by_cases hs : (s.toList.all fun c => c.toNat < 0x300) = true
  · have h : normalize s = s := if_pos hs
    rw [h, h]
  · let cs := orderMarks (s.toList.flatMap (decompose 3))
    have h : normalize s = String.ofList (composeAll cs) := if_neg hs
    have hatomic : ∀ c ∈ cs, decompose 3 c = [c] := by
      intro c hc
      obtain ⟨d, _, hcd⟩ := List.mem_flatMap.1 (mem_orderMarks hc)
      exact decompose_of_mem hcd
    rw [h, normalize, String.toList_ofList]
    split
    · rfl
    · rw [orderMarks_composeAll hatomic (inOrder_orderMarks _), orderMarks_orderMarks]

theorem isNormal_normalize (s : String) : IsNormal (normalize s) :=
  normalize_normalize s

/-- Two base characters that compose are written as one in the normal form. -/
theorem normalize_pair {a b c : Char} (ha : Atomic a) (hb : Atomic b)
    (hclass : combiningClass a = 0 ∧ combiningClass b = 0) (hlarge : 0x300 ≤ a.toNat)
    (hc : compose? a b = some c) : normalize (String.ofList [a, b]) = String.ofList [c] := by
  have hall : ¬((String.ofList [a, b]).toList.all fun c => decide (c.toNat < 0x300)) = true := by
    rw [String.toList_ofList, List.all_cons, decide_eq_false (Nat.not_lt.2 hlarge), Bool.false_and]
    exact Bool.false_ne_true
  have hparts : [a, b].flatMap (decompose 3) = [a, b] := by
    simp [decompose_atomic ha, decompose_atomic hb]
  have hordered : orderMarks [a, b] = [a, b] := by
    simp [orderMarks, hclass]
  have hcomposed : composeAll [a, b] = [c] := by
    simp [composeAll, composeOnto, hclass, hc]
  rw [normalize, if_neg hall, String.toList_ofList, hparts, hordered, hcomposed]

/-- The first two letters of Hangul are one syllable in the normal form. -/
theorem normalize_letters : normalize "\u1100\u1161" = "\uac00" := by
  have hletter : ∀ c : Char, firstLeading ≤ c.toNat ∧ c.toNat < 0x1200 → Atomic c :=
    fun _ => atomic_letter
  have hcompose : compose? '\u1100' '\u1161' = some '\uac00' := by
    rw [compose?]
    rfl
  exact normalize_pair (hletter '\u1100' (by decide)) (hletter '\u1161' (by decide))
    (by decide +kernel) (by decide) hcompose

end CommitChain.Text
