import CommitChain.Proofs.Reader.Exact
import CommitChain.Proofs.Text.Letters
import Mathlib.Data.List.Permutation

/-!
# Symbols that are read

The name of a symbol is the normal form of an atom.  Normalizing an atom brings no blank, no
parenthesis and no quote mark into it, and does not make it a dot, `nil` or an integer
(`Spells.self`), so the name is read as the symbol again.  There is one exception: the Greek
question mark may stand in an atom, and its normal form is the semicolon, which begins a comment.
The names with a semicolon are exactly those that are not read as their symbols
(`symbol_readBack_iff`).
-/

namespace CommitChain

open CommitChain.Text CommitChain.Text.Normal CommitChain.Reader

/-! ## Characters -/

/-- The characters other than the semicolon that no atom contains. -/
def isBreak (n : Nat) : Bool :=
  Nat.ble n 0x3000 && ((Nat.ble 0x09 n && Nat.ble n 0x0D) || (Nat.ble 0x1C n && Nat.ble n 0x20) ||
    Nat.beq n 0x22 || (Nat.ble 0x27 n && Nat.ble n 0x29) || Nat.beq n 0x85 || Nat.beq n 0xA0 ||
    Nat.beq n 0x1680 || (Nat.ble 0x2000 n && Nat.ble n 0x200A) || Nat.beq n 0x2028 ||
    Nat.beq n 0x2029 || Nat.beq n 0x202F || Nat.beq n 0x205F || Nat.beq n 0x3000)

/-- The semicolon and the Greek question mark. -/
def isSemicolon (n : Nat) : Bool :=
  Nat.beq n 0x3B || Nat.beq n 0x37E

/-- Signs, the dot and the digits of any script. -/
def numerals : List Nat :=
  [0x2B, 0x2D, 0x2E] ++ digitZeros.flatMap fun z => List.range' z 10

def isNumeral (n : Nat) : Bool :=
  (bits numerals).testBit n

theorem isBreak_iff {c : Char} :
    isBreak c.toNat = true ↔ Scan.isDelimiter c = true ∧ c ≠ ';' := by
  have hchar : ∀ d : Char, c = d ↔ c.toNat = d.toNat := fun d => Char.toNat_inj.symm
  have hmarks : '('.toNat = 0x28 ∧ ')'.toNat = 0x29 ∧ '\''.toNat = 0x27 ∧ '"'.toNat = 0x22 ∧
      ';'.toNat = 0x3B := by
    decide
  obtain ⟨h1, h2, h3, h4, h5⟩ := hmarks
  simp only [isBreak, Scan.isDelimiter, isBlank, isSpace, Bool.or_eq_true, Bool.and_eq_true,
    decide_eq_true_eq, Nat.ble_eq, Nat.beq_eq, ne_eq, hchar, h1, h2, h3, h4, h5]
  omega

theorem traced_isBreak : Traced isBreak where
  table := by decide +kernel
  hangul := by
    intro n hn
    rw [Bool.eq_false_iff]
    intro h
    have := isHangul_iff.1 hn
    simp only [isBreak, Bool.or_eq_true, Bool.and_eq_true, Nat.ble_eq, Nat.beq_eq] at h
    omega

theorem traced_isSemicolon : Traced isSemicolon where
  table := by decide +kernel
  hangul := by
    intro n hn
    rw [Bool.eq_false_iff]
    intro h
    have := isHangul_iff.1 hn
    simp only [isSemicolon, Bool.or_eq_true, Nat.beq_eq] at h
    omega

theorem digitZeros_table : (digitZeros.all fun z =>
    (Nat.ble (z + 10) 0x1100 || (Nat.ble 0x1200 z && Nat.ble (z + 10) 0xAC00) ||
      Nat.ble 0xD7A4 z) && classRanges.all fun r => Nat.ble (z + 10) (r / 0x100000000) ||
        Nat.blt (r / 0x100 % 0x1000000) z) = true := by
  decide +kernel

theorem isNumeral_iff {n : Nat} : isNumeral n = true ↔
    n = 0x2B ∨ n = 0x2D ∨ n = 0x2E ∨ ∃ z ∈ digitZeros, z ≤ n ∧ n < z + 10 := by
  rw [isNumeral, testBit_bits_iff, numerals, List.mem_append, List.mem_flatMap]
  simp only [List.mem_cons, List.not_mem_nil, or_false, List.mem_range'_1, or_assoc]

theorem inert_isNumeral : Inert isNumeral where
  table := by decide +kernel
  hangul := by
    intro n hn
    rw [Bool.eq_false_iff]
    intro h
    have hhangul := isHangul_iff.1 hn
    obtain h | h | h | ⟨z, hz, hlow, hhigh⟩ := isNumeral_iff.1 h
    · omega
    · omega
    · omega
    · have htable := List.all_eq_true.1 digitZeros_table z hz
      simp only [Bool.and_eq_true, Bool.or_eq_true, Nat.ble_eq] at htable
      omega
  base := by
    intro c hc
    obtain h | h | h | ⟨z, hz, hlow, hhigh⟩ := isNumeral_iff.1 hc
    · exact if_pos (by omega)
    · exact if_pos (by omega)
    · exact if_pos (by omega)
    · refine combiningClass_eq_zero fun r hr => ?_
      have htable := List.all_eq_true.1 digitZeros_table z hz
      have hrange := List.all_eq_true.1 (Bool.and_eq_true _ _ ▸ htable).2 r hr
      rw [Bool.or_eq_true, Nat.ble_eq, Nat.blt_eq] at hrange
      omega

/-! ## Names -/

namespace Reader

/-- An atom other than the dot, and the name of the symbol that it stands for. -/
structure Spells (lexeme : List Char) (name : String) : Prop where
  nonempty : lexeme ≠ []
  chars : ∀ c ∈ lexeme, IsAtomChar c
  dot : lexeme ≠ ['.']
  means : AtomMeans lexeme (.sym name)

section

variable {lexeme : List Char} {name : String}

theorem Spells.name_eq (h : Spells lexeme name) : name = normalize (String.ofList lexeme) := by
  cases h.means
  rfl

theorem Spells.other (h : Spells lexeme name) :
    isInteger lexeme = false ∧ lexeme ≠ ['n', 'i', 'l'] := by
  cases h.means with
  | symbol hinteger hnil =>
    refine ⟨Bool.eq_false_iff.2 fun hint => ?_, hnil⟩
    exact hinteger _ _ (writesInteger_iff.2 ⟨hint, rfl, rfl⟩)

theorem means_symbol (hinteger : isInteger lexeme = false) (hnil : lexeme ≠ ['n', 'i', 'l']) :
    AtomMeans lexeme (.sym (normalize (String.ofList lexeme))) :=
  .symbol (fun _ _ h => absurd (writesInteger_iff.1 h).1 (by simp [hinteger])) hnil

/-- What is made of characters with one spelling was spelled that way. -/
theorem Spells.eq_of_inert (h : Spells lexeme name) {P : Nat → Bool} (hP : Inert P)
    (hname : ∀ c ∈ name.toList, P c.toNat = true) : name.toList = lexeme := by
  rw [h.name_eq] at hname ⊢
  rw [hP.eq_of_normalize hname, String.toList_ofList]

theorem exists_zero_of_isDecimalDigit {c : Char} (h : isDecimalDigit c = true) :
    ∃ z ∈ digitZeros, z ≤ c.toNat ∧ c.toNat < z + 10 := by
  rw [isDecimalDigit, digitValue?] at h
  split at h
  · split at h
    next hc => exact ⟨0x30, by decide, hc.1, Nat.lt_succ_of_le hc.2⟩
    next => exact absurd h (by simp)
  · rw [Option.isSome_map] at h
    obtain ⟨z, hz⟩ := Option.isSome_iff_exists.1 h
    have hrange := List.find?_some hz
    rw [Bool.and_eq_true, decide_eq_true_eq, decide_eq_true_eq] at hrange
    exact ⟨z, List.mem_of_find?_eq_some hz, hrange⟩

theorem isNumeral_of_isInteger {cs : List Char} (h : isInteger cs = true) :
    ∀ c ∈ cs, isNumeral c.toNat = true := by
  have hds : ∀ c ∈ (splitSign cs).2, isDecimalDigit c = true := by
    rw [isInteger, Bool.and_eq_true] at h
    exact List.all_eq_true.1 h.2
  obtain ⟨sign, factor, hsign, hcs, _⟩ := splitSign_eq cs
  rw [hcs]
  refine List.forall_mem_append.2 ⟨?_, fun c hc => isNumeral_iff.2 ?_⟩
  · simp only [signs, List.mem_cons, Prod.mk.injEq, List.not_mem_nil, or_false] at hsign
    obtain ⟨rfl, _⟩ | ⟨rfl, _⟩ | ⟨rfl, _⟩ := hsign
    · exact fun c hc => absurd hc List.not_mem_nil
    · exact List.forall_mem_singleton.2 (isNumeral_iff.2 (by decide))
    · exact List.forall_mem_singleton.2 (isNumeral_iff.2 (by decide))
  · exact .inr (.inr (.inr (exists_zero_of_isDecimalDigit (hds c hc))))

theorem isAtomChar_of_mem_normalize {d : Char} (hchars : ∀ c ∈ lexeme, IsAtomChar c)
    (hd : d ∈ (normalize (String.ofList lexeme)).toList) (hsemicolon : d ≠ ';') :
    IsAtomChar d := by
  by_contra hdelimiter
  have hbreak := isBreak_iff.2 ⟨isDelimiter_iff.2 hdelimiter, hsemicolon⟩
  obtain ⟨c, hc, hcbreak⟩ := traced_isBreak.exists_of_mem_normalize hd hbreak
  rw [String.toList_ofList] at hc
  exact isDelimiter_iff.1 (isBreak_iff.1 hcbreak).1 (hchars c hc)

/-- A semicolon in a name was a Greek question mark in the atom. -/
theorem Spells.question_mark (h : Spells lexeme name) (hname : ';' ∈ name.toList) :
    '\u037e' ∈ lexeme := by
  rw [h.name_eq] at hname
  obtain ⟨c, hc, hsemicolon⟩ := traced_isSemicolon.exists_of_mem_normalize hname (by decide)
  rw [String.toList_ofList] at hc
  rw [isSemicolon, Bool.or_eq_true, Nat.beq_eq, Nat.beq_eq] at hsemicolon
  obtain hchar | hchar := hsemicolon
  · obtain rfl : ';' = c := eq_ofNat hchar
    exact absurd (h.chars _ hc).2 (by simp)
  · obtain rfl : '\u037e' = c := eq_ofNat hchar
    exact hc

/-- A name without a semicolon spells itself. -/
theorem Spells.self (h : Spells lexeme name) (hsemicolon : ';' ∉ name.toList) :
    Spells name.toList name where
  nonempty := by
    intro hnil
    have heq := h.eq_of_inert inert_isNumeral fun c hc => absurd (hnil ▸ hc) List.not_mem_nil
    exact h.nonempty (heq.symm.trans hnil)
  chars := by
    intro d hd
    have hne : d ≠ ';' := fun hd' => hsemicolon (hd' ▸ hd)
    exact isAtomChar_of_mem_normalize h.chars (h.name_eq ▸ hd) hne
  dot := by
    intro hdot
    have hnumeral : ∀ c ∈ name.toList, isNumeral c.toNat = true := by
      rw [hdot]
      exact List.forall_mem_singleton.2 (isNumeral_iff.2 (by decide))
    exact h.dot ((h.eq_of_inert inert_isNumeral hnumeral).symm.trans hdot)
  means := by
    have hinteger : isInteger name.toList = false := by
      rw [Bool.eq_false_iff]
      intro hinteger
      have heq := h.eq_of_inert inert_isNumeral (isNumeral_of_isInteger hinteger)
      exact absurd (heq ▸ hinteger) (by simp [h.other.1])
    have hnil : name.toList ≠ ['n', 'i', 'l'] := by
      intro hnil
      have hsmall : (name.toList.all fun c => isSmall c.toNat) = true := by
        rw [hnil]
        rfl
      have heq := h.eq_of_inert inert_isSmall (List.all_eq_true.1 hsmall)
      exact h.other.2 (heq.symm.trans hnil)
    have hnormal : normalize (String.ofList name.toList) = name := by
      rw [String.ofList_toList, h.name_eq]
      exact normalize_normalize _
    have hmeans := means_symbol hinteger hnil
    rwa [hnormal] at hmeans

/-- What spells a name is read as the symbol. -/
theorem Spells.read_eq (h : Spells lexeme name) :
    Value.read (String.ofList lexeme) = .ok (.sym name) := by
  let t : Token := ⟨.atom, lexeme, 0⟩
  have htiles : Tiles 0 (String.ofList lexeme).toList [t] := by
    rw [String.toList_ofList]
    obtain ⟨c, more, rfl⟩ := List.exists_cons_of_ne_nil h.nonempty
    have hatom : Tiles 0 (c :: (more ++ [])) [t] :=
      .atom h.chars (fun a ha => absurd ha (by simp)) (.done _)
    rwa [List.append_nil] at hatom
  have hderives : Derives 200 [t] (.sym name) := .atom rfl h.dot h.means
  refine Accepts.read_eq ⟨htiles, hderives, ?_, ?_⟩
  · refine List.forall_mem_singleton.2 fun _ ds n hint => ?_
    exact absurd (writesInteger_iff.1 hint).1 (by simp [t, h.other.1])
  · exact List.forall_mem_singleton.2 fun hkind => absurd hkind (by simp [t])

theorem spells_quote : Spells "quote".toList "quote" :=
  ⟨by decide, forall_isAtomChar (by decide), by decide, means_symbol (by decide) (by decide)⟩

end

end Reader

/-! ## The symbols of a value -/

namespace Value

/-- The names of the symbols in a value of pairs and atoms. -/
def symbols : Value → List String
  | sym name => [name]
  | cons a b => symbols a ++ symbols b
  | _ => []

theorem mem_symbols_chain {name : String} {vs : List Value} {w : Value} :
    name ∈ (chain vs w).symbols ↔ (∃ v ∈ vs, name ∈ v.symbols) ∨ name ∈ w.symbols := by
  induction vs with
  | nil => simp [chain]
  | cons v vs ih =>
    rw [chain, List.foldr_cons, symbols, List.mem_append]
    rw [chain] at ih
    rw [ih, List.exists_mem_cons_iff, or_assoc]

theorem mem_symbols_ofList {name : String} {vs : List Value} :
    name ∈ (ofList vs).symbols ↔ ∃ v ∈ vs, name ∈ v.symbols :=
  mem_symbols_chain.trans (or_iff_left List.not_mem_nil)

end Value

namespace Reader

/-- A name that the tokens bring in: that of the quote mark, or one that an atom spells. -/
def NamedBy (ts : List Token) (name : String) : Prop :=
  name = "quote" ∨ ∃ t ∈ ts, t.kind = .atom ∧ t.lexeme ≠ ['.'] ∧ AtomMeans t.lexeme (.sym name)

theorem NamedBy.mono {ts us : List Token} {name : String} (h : NamedBy ts name)
    (hsub : ∀ t ∈ ts, t ∈ us) : NamedBy us name :=
  h.imp_right fun ⟨t, ht, hspells⟩ => ⟨t, hsub t ht, hspells⟩

mutual

/-- Every symbol comes from an atom or a quote mark, by recursion on the derivation. -/
theorem Derives.namedBy {levels : Nat} {ts : List Token} {v : Value} {name : String} :
    Derives levels ts v → name ∈ v.symbols → NamedBy ts name
  | @Derives.atom _ t _ hkind hdot means, hname => by
    cases means with
    | integer h => exact absurd hname List.not_mem_nil
    | nil h => exact absurd hname List.not_mem_nil
    | symbol hinteger hnil =>
      obtain rfl := List.mem_singleton.1 hname
      exact .inr ⟨t, List.mem_singleton_self t, hkind, hdot, .symbol hinteger hnil⟩
  | .string _ means, hname => by
    cases means
    exact absurd hname List.not_mem_nil
  | .quote _ datum, hname => by
    obtain ⟨w, hw, hmem⟩ := Value.mem_symbols_ofList.1 hname
    rcases List.mem_cons.1 hw with rfl | hw
    · exact .inl (List.mem_singleton.1 hmem)
    · have hdatum := datum.namedBy (List.mem_singleton.1 hw ▸ hmem)
      exact hdatum.mono fun t ht => List.mem_cons_of_mem _ ht
  | .list _ items _, hname => by
    obtain ⟨w, hw, hname⟩ := Value.mem_symbols_ofList.1 hname
    exact (items.namedBy hw hname).mono fun t ht =>
      List.mem_cons_of_mem _ (List.mem_append_left _ ht)
  | .dotted _ items _ _ tail _, hname => by
    obtain ⟨w, hw, hname⟩ | hname := Value.mem_symbols_chain.1 hname
    · exact (items.namedBy hw hname).mono fun t ht =>
        List.mem_cons_of_mem _ (List.mem_append_left _ ht)
    · exact (tail.namedBy hname).mono fun t ht => List.mem_cons_of_mem _
        (List.mem_append_right _ (List.mem_cons_of_mem _ (List.mem_append_left _ ht)))

theorem DerivesAll.namedBy {levels : Nat} {ts : List Token} {vs : List Value} {v : Value}
    {name : String} : DerivesAll levels ts vs → v ∈ vs → name ∈ v.symbols → NamedBy ts name
  | .nil, hv, _ => absurd hv List.not_mem_nil
  | .cons first others, hv, hname => by
    rcases List.mem_cons.1 hv with heq | hv
    · exact (first.namedBy (heq ▸ hname)).mono fun t ht => List.mem_append_left _ ht
    · exact (others.namedBy hv hname).mono fun t ht => List.mem_append_right _ ht

end

end Reader

namespace Value

open CommitChain.Reader

/-- The symbols of what is read, and how they were spelled. -/
theorem spells_of_read {text : String} {v : Value} {name : String} (h : read text = .ok v)
    (hname : name ∈ v.symbols) :
    name = "quote" ∨ ∃ lexeme, Spells lexeme name ∧ ∀ c ∈ lexeme, c ∈ text.toList := by
  obtain ⟨tokens, haccepts⟩ := accepts_of_read h
  refine (haccepts.derives.namedBy hname).imp_right ?_
  rintro ⟨t, ht, hkind, hdot, hmeans⟩
  obtain ⟨hne, hchars⟩ := haccepts.tiles.atom_chars ht hkind
  exact ⟨t.lexeme, ⟨hne, fun c hc => (hchars c hc).1, hdot, hmeans⟩, fun c hc => (hchars c hc).2⟩

theorem question_mark_entry : 0x37E00003B000000 ∈ decompositions := by
  decide +kernel

/-- No normal form contains the Greek question mark. -/
theorem question_mark_not_mem (s : String) : '\u037e' ∉ (normalize s).toList :=
  not_mem_normalize question_mark_entry rfl rfl s

/-- A symbol of what is read is what its name is read as, unless there is a semicolon in the name;
the text then contains a Greek question mark. -/
theorem symbol_readBack_iff {text : String} {v : Value} {name : String} (h : read text = .ok v)
    (hname : name ∈ v.symbols) : (read name = .ok (.sym name) ↔ ';' ∉ name.toList) ∧
      (';' ∈ name.toList → '\u037e' ∈ text.toList) := by
  have hback : ∀ {lexeme : List Char}, Spells lexeme name → ';' ∉ name.toList →
      read name = .ok (.sym name) := by
    intro lexeme hspells hsemicolon
    have hread := (hspells.self hsemicolon).read_eq
    rwa [String.ofList_toList] at hread
  obtain rfl | ⟨lexeme, hspells, hmem⟩ := spells_of_read h hname
  · have hquote : ';' ∉ "quote".toList := by decide
    have hread := hback spells_quote hquote
    exact ⟨iff_of_true hread hquote, fun hsemicolon => absurd hsemicolon hquote⟩
  · refine ⟨⟨fun hread hsemicolon => ?_, hback hspells⟩,
      fun hsemicolon => hmem _ (hspells.question_mark hsemicolon)⟩
    -- the name itself would have to contain a Greek question mark, but it is in normal form
    obtain rfl | ⟨lexeme', hspells', hmem'⟩ := spells_of_read hread (List.mem_singleton_self name)
    · exact absurd hsemicolon (by decide)
    · have hmark := hmem' _ (hspells'.question_mark hsemicolon)
      exact question_mark_not_mem _ (hspells.name_eq ▸ hmark)

theorem symbol_readBack_quoted : read "('a . (b-1 2))" = .ok (.chain [.ofList [.sym "quote",
      .sym "a"], .sym "b-1"] (.ofList [.num 2])) ∧
    "b-1" ∈ (chain [.ofList [.sym "quote", .sym "a"], .sym "b-1"] (.ofList [.num 2])).symbols ∧
    (read "b-1" = .ok (.sym "b-1") ↔ ';' ∉ "b-1".toList) ∧
      (';' ∈ "b-1".toList → '\u037e' ∈ "('a . (b-1 2))".toList) := by
  have hread : read "('a . (b-1 2))" = .ok (.chain [.ofList [.sym "quote", .sym "a"],
      .sym "b-1"] (.ofList [.num 2])) := by
    cbv
  have hname : "b-1" ∈ (chain [.ofList [.sym "quote", .sym "a"], .sym "b-1"]
      (.ofList [.num 2])).symbols := by
    decide
  exact ⟨hread, hname, symbol_readBack_iff hread hname⟩

theorem spells_question_mark : Spells ['\u037e'] ";" where
  nonempty := by decide
  chars := forall_isAtomChar (by decide)
  dot := by decide
  means := by
    have hname : normalize (String.ofList ['\u037e']) = ";" :=
      normalize_single question_mark_entry rfl rfl rfl (atomic_of_lt (by decide)) (by decide)
    exact hname ▸ means_symbol (by decide +kernel) (by decide)

/-- A Greek question mark is read as the symbol of a semicolon, and a semicolon is no expression. -/
theorem not_symbol_readBack : ¬∀ (text : String) (v : Value) (name : String),
    read text = .ok v → name ∈ v.symbols → read name = .ok (.sym name) := by
  intro h
  have hread : read "\u037e" = .ok (.sym ";") := spells_question_mark.read_eq
  have hback := h "\u037e" (.sym ";") ";" hread (List.mem_singleton_self _)
  exact absurd hback (by decide)

end Value

end CommitChain
