import CommitChain.Proofs.Reader.Exact
import CommitChain.Value.Printer

/-!
# Printing and reading back

A value of pairs, `nil`, numbers, strings and names that can be written (`Printable`) is printed as
a text that is read back as the value, exactly if the text is nested no deeper than the reader goes
(`print_readBack_iff`).

Each piece of the text adds its tokens in front of those of whatever stands behind it (`Lays`), and
pieces are put together without looking at the tokens again.  The text of the rest of a chain is
what the reader asks for behind an opened list (`Closes`), so the two recursions of the printer are
met by the two predicates of the grammar.
-/

namespace CommitChain

open CommitChain.Text CommitChain.Reader

/-! ## Pieces of text -/

/-- A text adds tokens of a kind in front of those of whatever stands behind it, unless that goes on
with a character of an atom. -/
def Lays (text : List Char) (P : List Token → Prop) : Prop :=
  ∀ (offset : Nat) (cs : List Char) (ts : List Token), (∀ c ∈ cs.head?, ¬IsAtomChar c) →
    Tiles (offset + text.length) cs ts → ∃ new, P new ∧ Tiles offset (text ++ cs) (new ++ ts)

theorem not_isAtomChar_head {c : Char} {cs : List Char} (h : ¬IsAtomChar c) :
    ∀ a ∈ (c :: cs).head?, ¬IsAtomChar a := by
  intro a ha
  obtain rfl := Option.some.inj ha
  exact h

namespace Lays

variable {text more : List Char} {P Q : List Token → Prop}

theorem imp (h : Lays text P) (hpq : ∀ ts, P ts → Q ts) : Lays text Q := by
  intro offset cs ts hhead htiles
  obtain ⟨new, hnew, hall⟩ := h offset cs ts hhead htiles
  exact ⟨new, hpq new hnew, hall⟩

/-- The second text must not go on with an atom that the first one ends in. -/
theorem append (h : Lays text P) (hne : more ≠ []) (hhead : ∀ c ∈ more.head?, ¬IsAtomChar c)
    (g : Lays more Q) : Lays (text ++ more) fun ts => ∃ us ws, ts = us ++ ws ∧ P us ∧ Q ws := by
  intro offset cs ts hcs htiles
  rw [List.length_append, ← Nat.add_assoc] at htiles
  obtain ⟨ws, hws, hmore⟩ := g (offset + text.length) cs ts hcs htiles
  have hjoin : ∀ c ∈ (more ++ cs).head?, ¬IsAtomChar c := by
    rwa [List.head?_append_of_ne_nil _ hne]
  obtain ⟨us, hus, hall⟩ := h offset (more ++ cs) (ws ++ ts) hjoin hmore
  refine ⟨us ++ ws, ⟨us, ws, rfl, hus, hws⟩, ?_⟩
  rwa [List.append_assoc, List.append_assoc]

theorem blank {c : Char} (hc : isBlank c = true) (h : Lays text P) : Lays (c :: text) P := by
  intro offset cs ts hcs htiles
  rw [add_length_cons] at htiles
  obtain ⟨new, hnew, hall⟩ := h (offset + 1) cs ts hcs htiles
  exact ⟨new, hnew, .blank hc hall⟩

theorem mark {c : Char} {kind : TokenKind} (hmark : (c, kind) ∈ marks) (h : Lays text P) :
    Lays (c :: text) fun ts => ∃ t us, ts = t :: us ∧ t.kind = kind ∧ P us := by
  intro offset cs ts hcs htiles
  rw [add_length_cons] at htiles
  obtain ⟨new, hnew, hall⟩ := h (offset + 1) cs ts hcs htiles
  exact ⟨⟨kind, [c], offset⟩ :: new, ⟨_, new, rfl, rfl, hnew⟩, .mark hmark hall⟩

theorem closing : Lays [')'] fun ts => ∃ c, ts = [c] ∧ c.kind = .closing := by
  intro offset cs ts hcs htiles
  exact ⟨[⟨.closing, [')'], offset⟩], ⟨_, rfl, rfl⟩, .mark (by simp [marks]) htiles⟩

theorem atom (hne : text ≠ []) (hchars : ∀ c ∈ text, IsAtomChar c) :
    Lays text fun ts => ∃ t, ts = [t] ∧ t.kind = .atom ∧ t.lexeme = text := by
  intro offset cs ts hcs htiles
  obtain ⟨c, more, rfl⟩ := List.exists_cons_of_ne_nil hne
  rw [add_length_cons] at htiles
  exact ⟨[⟨.atom, c :: more, offset⟩], ⟨_, rfl, rfl, rfl⟩, .atom hchars hcs htiles⟩

theorem string {body : List Char} (hbody : StringBody body) :
    Lays ('"' :: (body ++ ['"'])) fun ts => ∃ t, ts = [t] ∧ t.kind = .string ∧
      Reader.inner t.lexeme = body := by
  intro offset cs ts hcs htiles
  rw [add_length_cons, List.length_append, List.length_singleton, ← Nat.add_assoc] at htiles
  refine ⟨[⟨.string, '"' :: (body ++ ['"']), offset⟩], ⟨_, rfl, rfl, by simp [Reader.inner]⟩, ?_⟩
  rw [List.cons_append, List.append_assoc]
  exact .string hbody htiles

end Lays

namespace Value

/-! ## Levels of nesting -/

/-- The levels of nesting in the text of a value, or of the items and the end of a chain. -/
def levels (inTail : Bool) : Value → Nat
  | nil => if inTail then 0 else 1
  | cons (sym name) (cons x nil) =>
    if inTail then max 1 (levels false x)
    else if name = "quote" then levels false x + 1
    else max 1 (levels false x) + 1
  | cons a b => max (levels false a) (levels true b) + if inTail then 0 else 1
  | _ => 1

/-- The chains that have a case of their own: a name, one value, and no more. -/
def IsForm (a b : Value) : Prop :=
  ∃ name x, a = sym name ∧ b = cons x nil

/-- The chains that are printed as a quote mark and a value. -/
def IsQuoted (a b : Value) : Prop :=
  a = sym "quote" ∧ ∃ x, b = cons x nil

section

variable {a b : Value}

theorem levels_of_not_isForm (h : ¬IsForm a b) (inTail : Bool) : levels inTail (cons a b)
    = max (levels false a) (levels true b) + if inTail then 0 else 1 := by
  rw [levels]
  exact fun name x ha hb => h ⟨name, x, ha, hb⟩

theorem levels_tail (a b : Value) :
    levels true (cons a b) = max (levels false a) (levels true b) := by
  by_cases h : IsForm a b
  · obtain ⟨name, x, rfl, rfl⟩ := h
    simp [levels]
  · exact levels_of_not_isForm h true

theorem levels_list (h : ¬IsQuoted a b) :
    levels false (cons a b) = max (levels false a) (levels true b) + 1 := by
  by_cases hform : IsForm a b
  · obtain ⟨name, x, rfl, rfl⟩ := hform
    have hname : name ≠ "quote" := fun hname => h ⟨hname ▸ rfl, x, rfl⟩
    simp [levels, hname]
  · exact levels_of_not_isForm hform false

theorem levels_quoted (x : Value) :
    levels false (cons (sym "quote") (cons x nil)) = levels false x + 1 := by
  simp [levels]

/-! ## The printer -/

variable {s t : String}

theorem render_of_not_isForm (h : ¬IsForm a b) (inTail : Bool) (ha : render false a = some s)
    (hb : render true b = some t) :
    render inTail (cons a b) = some ((if inTail then " " else "(") ++ s ++ t) := by
  rw [render, ha, hb]
  · rfl
  · exact fun name x ha hb => h ⟨name, x, ha, hb⟩

theorem render_single {x : Value} (h : render true (cons x nil) = some t) :
    ∃ s, render false x = some s ∧ t = " " ++ s ++ ")" := by
  rw [render] at h
  · obtain ⟨s, hs, h⟩ := Option.bind_eq_some_iff.1 h
    cases h
    exact ⟨s, hs, rfl⟩
  · exact fun _ _ _ hb => by cases hb

theorem render_form {x : Value} (name : String) (inTail : Bool) (hx : render false x = some s) :
    render inTail (cons (sym name) (cons x nil)) = some (
      if inTail then " " ++ name ++ " " ++ s ++ ")"
      else if name = "quote" then "'" ++ s
      else "(" ++ name ++ " " ++ s ++ ")") := by
  rw [render, hx]
  rfl

theorem render_tail (ha : render false a = some s) (hb : render true b = some t) :
    render true (cons a b) = some (" " ++ s ++ t) := by
  by_cases h : IsForm a b
  · obtain ⟨name, x, rfl, rfl⟩ := h
    obtain ⟨text, hx, rfl⟩ := render_single hb
    cases ha
    rw [render_form name true hx]
    simp [asTail, String.append_assoc]
  · exact render_of_not_isForm h true ha hb

theorem render_list (h : ¬IsQuoted a b) (ha : render false a = some s)
    (hb : render true b = some t) : render false (cons a b) = some ("(" ++ s ++ t) := by
  by_cases hform : IsForm a b
  · obtain ⟨name, x, rfl, rfl⟩ := hform
    have hname : name ≠ "quote" := fun hname => h ⟨hname ▸ rfl, x, rfl⟩
    obtain ⟨text, hx, rfl⟩ := render_single hb
    cases ha
    rw [render_form name false hx, if_neg hname]
    simp [asTail, String.append_assoc]
  · exact render_of_not_isForm hform false ha hb

theorem render_quoted {x : Value} (hx : render false x = some s) :
    render false (cons (sym "quote") (cons x nil)) = some ("'" ++ s) := by
  rw [render_form "quote" false hx]
  rfl

end

/-! ## Values that can be written -/

/-- A name in normal form that is a single atom, and no dot, `nil` or integer. -/
structure IsName (name : String) : Prop where
  normal : IsNormal name
  atom : Token.scan name = .ok [⟨.atom, name.toList, 0⟩]
  dot : name ≠ "."
  nil : name ≠ "nil"
  integer : isInteger name.toList = false

/-- Pairs and `nil`, integers within the digit limit, strings in normal form and names. -/
inductive Printable : Value → Prop
  | num {n : Int} (h : (Nat.toDigits 10 n.natAbs).length ≤ 4300) : Printable (num n)
  | sym {name : String} (h : IsName name) : Printable (sym name)
  | str {s : String} (h : IsNormal s) : Printable (str s)
  | nil : Printable nil
  | cons {a b : Value} (ha : Printable a) (hb : Printable b) : Printable (cons a b)

/-- Tokens that make up an expression of a value, within as many levels as its text has. -/
structure Whole (v : Value) (ts : List Token) : Prop where
  derives : ∀ n, levels false v ≤ n → Derives n ts v
  admissible : ∀ t ∈ ts, Admissible t

/-- Tokens that make up the rest of a list behind some of its items. -/
structure Rest (v : Value) (ts : List Token) : Prop where
  closes : ∀ n, levels true v ≤ n → Closes n false ts v
  admissible : ∀ t ∈ ts, Admissible t

/-- A value is printed as a text that adds the tokens of an expression. -/
def PrintsWhole (v : Value) : Prop :=
  ∃ text, render false v = some text ∧ Lays text.toList (Whole v)

/-- The rest of a chain is printed as a text that begins with a blank or a parenthesis and adds the
tokens of the rest of a list. -/
def PrintsRest (v : Value) : Prop :=
  ∃ text, render true v = some text ∧ text.toList ≠ [] ∧
    (∀ c ∈ text.toList.head?, ¬IsAtomChar c) ∧ Lays text.toList (Rest v)

theorem admissible_mark {t : Token} {kind : TokenKind} (hkind : t.kind = kind)
    (h : kind ≠ .atom ∧ kind ≠ .string) : Admissible t :=
  admissible_of_kind (hkind ▸ h.1) (hkind ▸ h.2)

theorem PrintsWhole.quoted {x : Value} (h : PrintsWhole x) :
    PrintsWhole (cons (sym "quote") (cons x nil)) := by
  obtain ⟨s, hs, hx⟩ := h
  refine ⟨_, render_quoted hs, ?_⟩
  have hmark : ('\'', TokenKind.quote) ∈ marks := by simp [marks]
  have hlays := hx.mark hmark
  rw [String.toList_append]
  refine hlays.imp ?_
  rintro _ ⟨t, ts, rfl, hkind, hts⟩
  refine ⟨fun n hn => ?_,
    List.forall_mem_cons.2 ⟨admissible_mark hkind (by decide), hts.admissible⟩⟩
  rw [levels_quoted] at hn
  obtain ⟨n, rfl⟩ := exists_succ_of_le (Nat.succ_pos _) hn
  exact .quote hkind (hts.derives n (Nat.le_of_succ_le_succ hn))

theorem PrintsWhole.list {a b : Value} (h : ¬IsQuoted a b) (ha : PrintsWhole a)
    (hb : PrintsRest b) : PrintsWhole (cons a b) := by
  obtain ⟨s, hs, ha⟩ := ha
  obtain ⟨t, ht, hne, hhead, hb⟩ := hb
  refine ⟨_, render_list h hs ht, ?_⟩
  have hmark : ('(', TokenKind.opening) ∈ marks := by simp [marks]
  have hlays := (ha.append hne hhead hb).mark hmark
  rw [String.toList_append, String.toList_append, List.append_assoc]
  refine hlays.imp ?_
  rintro _ ⟨o, _, rfl, hopen, us, ws, rfl, hus, hws⟩
  refine ⟨fun n hn => ?_, ?_⟩
  · rw [levels_list h] at hn
    obtain ⟨n, rfl⟩ := exists_succ_of_le (Nat.succ_pos _) hn
    have hparts := Nat.max_le.1 (Nat.le_of_succ_le_succ hn)
    exact (Closes.item (hus.derives n hparts.1) (hws.closes n hparts.2)).derives hopen
  · exact List.forall_mem_cons.2 ⟨admissible_mark hopen (by decide),
      List.forall_mem_append.2 ⟨hus.admissible, hws.admissible⟩⟩

theorem PrintsRest.cons {a b : Value} (ha : PrintsWhole a) (hb : PrintsRest b) :
    PrintsRest (cons a b) := by
  obtain ⟨s, hs, ha⟩ := ha
  obtain ⟨t, ht, hne, hhead, hb⟩ := hb
  refine ⟨_, render_tail hs ht, ?_⟩
  have hblank : isBlank ' ' = true := by decide
  have hlays := (ha.append hne hhead hb).blank hblank
  rw [String.toList_append, String.toList_append, List.append_assoc]
  refine ⟨List.cons_ne_nil _ _, not_isAtomChar_head (by decide), hlays.imp ?_⟩
  rintro _ ⟨us, ws, rfl, hus, hws⟩
  refine ⟨fun n hn => ?_, List.forall_mem_append.2 ⟨hus.admissible, hws.admissible⟩⟩
  rw [levels_tail] at hn
  have hparts := Nat.max_le.1 hn
  exact .item (hus.derives n hparts.1) (hws.closes n hparts.2)

theorem printsRest_nil : PrintsRest nil := by
  refine ⟨")", rfl, List.cons_ne_nil _ _, not_isAtomChar_head (by decide), Lays.closing.imp ?_⟩
  rintro _ ⟨c, rfl, hclose⟩
  exact ⟨fun n _ => .close hclose,
    List.forall_mem_singleton.2 (admissible_mark hclose (by decide))⟩

/-- What is no pair and not `nil` stands behind a dot. -/
theorem PrintsWhole.rest {v : Value} (h : PrintsWhole v)
    (hrender : ∀ s, render false v = some s → render true v = some (" . " ++ s ++ ")"))
    (hlevels : levels true v = levels false v) : PrintsRest v := by
  obtain ⟨s, hs, h⟩ := h
  have hblank : isBlank ' ' = true := by decide
  have hdot : Lays ['.'] _ := Lays.atom (List.cons_ne_nil _ _)
    (List.forall_mem_singleton.2 (by decide))
  have hend := (h.append (List.cons_ne_nil _ _) (not_isAtomChar_head (by decide))
    Lays.closing).blank hblank
  have hlays := (hdot.append (List.cons_ne_nil _ _) (not_isAtomChar_head (by decide))
    hend).blank hblank
  have htext : (" . " ++ s ++ ")").toList = ' ' :: (['.'] ++ ' ' :: (s.toList ++ [')'])) := by
    rw [String.toList_append, String.toList_append, List.append_assoc]
    rfl
  refine ⟨_, hrender s hs, ?_⟩
  rw [htext]
  refine ⟨List.cons_ne_nil _ _, not_isAtomChar_head (by decide), hlays.imp ?_⟩
  rintro _ ⟨_, _, rfl, ⟨d, rfl, hkind, hlexeme⟩, us, _, rfl, hus, c, rfl, hclose⟩
  have hd : IsDot d := ⟨hkind, hlexeme⟩
  have hc : Admissible c := admissible_mark hclose (by decide)
  refine ⟨fun n hn => .dot hd (hus.derives n (hlevels ▸ hn)) hclose, ?_⟩
  simp only [List.forall_mem_append, List.forall_mem_singleton]
  exact ⟨hd.admissible, hus.admissible, hc⟩

/-! ## Atoms and strings -/

/-- A value that is printed as a single atom other than the dot. -/
theorem printsWhole_atom {v : Value} {s : String} (hs : render false v = some s)
    (hlevels : levels false v = 1) (hne : s.toList ≠ [])
    (hchars : ∀ c ∈ s.toList, IsAtomChar c) (hdot : s.toList ≠ ['.'])
    (hvalue : atomValue s.toList 0 = .ok v) : PrintsWhole v := by
  obtain ⟨hmeans, hshort⟩ := atomValue_eq_ok.1 hvalue
  refine ⟨s, hs, (Lays.atom hne hchars).imp ?_⟩
  rintro _ ⟨t, rfl, hkind, hlexeme⟩
  refine ⟨fun n hn => ?_, List.forall_mem_singleton.2 ⟨fun _ => hlexeme ▸ hshort, ?_⟩⟩
  · obtain ⟨n, rfl⟩ := exists_succ_of_le Nat.one_pos (hlevels ▸ hn)
    exact .atom hkind (hlexeme ▸ hdot) (hlexeme ▸ hmeans)
  · exact fun hstring => absurd (hkind.symm.trans hstring) (by decide)

theorem digit_of_isDigit {c : Char} (h : c.isDigit = true) :
    isDecimalDigit c = true ∧ IsAtomChar c := by
  have hall : ∀ n < 10, isDecimalDigit (Char.ofNat (0x30 + n)) = true ∧
      IsAtomChar (Char.ofNat (0x30 + n)) := by
    decide
  have hrange : 0x30 ≤ c.toNat ∧ c.toNat ≤ 0x39 := by
    rw [Char.isDigit, Bool.and_eq_true, decide_eq_true_eq, decide_eq_true_eq] at h
    exact h
  have hc := hall (c.toNat - 0x30) (by omega)
  rwa [Nat.add_sub_cancel' hrange.1, Char.ofNat_toNat] at hc

/-- An integer is written with its digits, behind a sign if it is negative. -/
theorem writesInteger_integerDigits (n : Int) :
    WritesInteger (integerDigits n).toList (Nat.toDigits 10 n.natAbs) n := by
  have hdigits : ∀ d ∈ Nat.toDigits 10 n.natAbs, isDecimalDigit d = true := fun d hd =>
    (digit_of_isDigit (Nat.isDigit_of_mem_toDigits (by decide) (by decide) hd)).1
  have hwrites : ∀ {sign : List Char} {factor : Int}, (sign, factor) ∈ signs →
      WritesInteger (sign ++ Nat.toDigits 10 n.natAbs) (Nat.toDigits 10 n.natAbs)
        (factor * n.natAbs) := by
    intro sign factor hsign
    have h := WritesInteger.intro hsign Nat.toDigits_ne_nil hdigits
    rwa [← natOfDigits_eq_ofDigits, natOfDigits_toDigits] at h
  rw [integerDigits]
  split
  next hneg =>
    have hn : (-1 : Int) * n.natAbs = n := by omega
    have h := hwrites (by simp [signs] : (['-'], -1) ∈ signs)
    rw [hn] at h
    rwa [String.toList_append, Nat.toList_repr]
  next hpos =>
    have hn : (1 : Int) * n.natAbs = n := by omega
    have h := hwrites (by simp [signs] : ([], 1) ∈ signs)
    rw [hn] at h
    rwa [Nat.toList_repr]

theorem isAtomChar_of_mem_integerDigits {n : Int} {c : Char} (h : c ∈ (integerDigits n).toList) :
    IsAtomChar c := by
  have hdigit : c ∈ n.natAbs.repr.toList → IsAtomChar c := fun h =>
    (digit_of_isDigit (Nat.isDigit_of_mem_toDigits (by decide) (by decide)
      (Nat.toList_repr ▸ h))).2
  rw [integerDigits] at h
  split at h
  · rw [String.toList_append, List.mem_append] at h
    rcases h with h | h
    · obtain rfl := List.mem_singleton.1 h
      decide
    · exact hdigit h
  · exact hdigit h

theorem printsWhole_num {n : Int} (h : (Nat.toDigits 10 n.natAbs).length ≤ 4300) :
    PrintsWhole (num n) := by
  have hwrites := writesInteger_integerDigits n
  have hn : n.natAbs < integerBound := length_toDigits_le_digitLimit.1 h
  have hrender : render false (num n) = some (integerDigits n) := by
    rw [render, integerText?, if_pos hn]
    rfl
  obtain ⟨hinteger, hds, _⟩ := writesInteger_iff.1 hwrites
  have hother : ∀ cs, isInteger cs = false → (integerDigits n).toList ≠ cs := by
    rintro cs hcs rfl
    exact absurd hinteger (by simp [hcs])
  refine printsWhole_atom hrender rfl (hother [] rfl)
    (fun c hc => isAtomChar_of_mem_integerDigits hc) (hother ['.'] (by decide))
    (atomValue_eq_ok.2 ⟨.integer hwrites, fun ds m h' => ?_⟩)
  obtain ⟨_, hds', _⟩ := writesInteger_iff.1 h'
  rwa [← hds', hds]

theorem IsName.chars {name : String} (h : IsName name) :
    name.toList ≠ [] ∧ ∀ c ∈ name.toList, IsAtomChar c := by
  have hchars := (scan_eq_ok.1 h.atom).atom_chars (List.mem_singleton_self _) rfl
  exact hchars.imp_right fun hall c hc => (hall c hc).1

theorem printsWhole_sym {name : String} (h : IsName name) : PrintsWhole (sym name) := by
  refine printsWhole_atom rfl rfl h.chars.1 h.chars.2 (fun hdot => h.dot ?_) ?_
  · exact String.toList_inj.1 hdot
  · have hnil : name.toList ≠ ['n', 'i', 'l'] := fun hnil => h.nil (String.toList_inj.1 hnil)
    have hinteger : ¬isInteger name.toList = true := by simp [h.integer]
    have hnormal : normalize name = name := h.normal
    show atomValue name.toList 0 = .ok (sym name)
    rw [atomValue, if_neg hinteger, if_neg hnil, symbol, String.ofList_toList, hnormal]

theorem printsWhole_nil : PrintsWhole nil :=
  printsWhole_atom rfl rfl (by decide) (forall_isAtomChar (by decide)) (by decide) rfl

/-- What stands for a character between double quotes is the character itself or an escape. -/
theorem escapedChar_cases (c : Char) :
    (∃ e, (e, c) ∈ escapes ∧ e ≠ '\n' ∧ escapedChar c = ['\\', e]) ∨
      c ≠ '"' ∧ c ≠ '\\' ∧ escapedChar c = [c] := by
  unfold escapedChar
  split
  next h => exact .inl ⟨'\\', by simp [h, escapes], by decide, rfl⟩
  next hslash =>
    split
    next h => exact .inl ⟨'"', by simp [h, escapes], by decide, rfl⟩
    next hquote =>
      split
      next h => exact .inl ⟨'n', by simp [h, escapes], by decide, rfl⟩
      next => exact .inr ⟨hquote, hslash, rfl⟩

theorem stringBody_escaped (cs : List Char) : StringBody (cs.flatMap escapedChar) := by
  induction cs with
  | nil => exact .nil
  | cons c cs ih =>
    rw [List.flatMap_cons]
    obtain ⟨e, _, hline, he⟩ | ⟨hquote, hslash, he⟩ := escapedChar_cases c
    · rw [he]
      exact .escape hline ih
    · rw [he]
      exact .plain hquote hslash ih

theorem unescapes_escaped (cs : List Char) : Unescapes (cs.flatMap escapedChar) cs := by
  induction cs with
  | nil => exact .nil
  | cons c cs ih =>
    rw [List.flatMap_cons]
    obtain ⟨e, hescape, _, he⟩ | ⟨_, hslash, he⟩ := escapedChar_cases c
    · rw [he]
      exact .escape hescape ih
    · rw [he]
      exact .plain hslash ih

theorem printsWhole_str {s : String} (h : IsNormal s) : PrintsWhole (str s) := by
  have htext : (printString s).toList = '"' :: (s.toList.flatMap escapedChar ++ ['"']) := by
    simp [printString]
  refine ⟨printString s, rfl, ?_⟩
  rw [htext]
  refine (Lays.string (stringBody_escaped s.toList)).imp ?_
  rintro _ ⟨t, rfl, hkind, hinner⟩
  have hunescapes : Unescapes (Reader.inner t.lexeme) s.toList := hinner ▸ unescapes_escaped s.toList
  have hmeans : StringMeans t.lexeme (str s) := by
    have hnormal : normalize s = s := h
    have hmeans := StringMeans.intro hunescapes
    rwa [String.ofList_toList, hnormal] at hmeans
  refine ⟨fun n hn => ?_, List.forall_mem_singleton.2 ⟨?_, fun _ => hunescapes.escapesKnown⟩⟩
  · obtain ⟨n, rfl⟩ := exists_succ_of_le Nat.one_pos (show 1 ≤ n from hn)
    exact .string hkind hmeans
  · exact fun hatom => absurd (hkind.symm.trans hatom) (by decide)

/-! ## Printing -/

/-- How a value is printed by itself and as the rest of a chain.  A quoted value is printed without
the chain that it is the head of. -/
structure Prints (v : Value) : Prop where
  whole : PrintsWhole v
  rest : PrintsRest v
  head : ∀ a b, v = cons a b → PrintsWhole a

theorem PrintsWhole.atom {v : Value} (h : PrintsWhole v)
    (hrender : ∀ s, render false v = some s → render true v = some (" . " ++ s ++ ")"))
    (hlevels : levels true v = levels false v) (hv : v.isCons = false) : Prints v := by
  refine ⟨h, h.rest hrender hlevels, ?_⟩
  rintro a b rfl
  cases hv

theorem Printable.prints {v : Value} (h : Printable v) : Prints v := by
  induction h with
  | @num n h =>
    refine (printsWhole_num h).atom (fun s hs => ?_) rfl rfl
    obtain ⟨text, htext, rfl⟩ := Option.map_eq_some_iff.1 hs
    rw [render, htext]
    rfl
  | sym h => exact (printsWhole_sym h).atom (fun s hs => by cases hs; rfl) rfl rfl
  | str h => exact (printsWhole_str h).atom (fun s hs => by cases hs; rfl) rfl rfl
  | nil =>
    refine ⟨printsWhole_nil, printsRest_nil, ?_⟩
    rintro a b h
    cases h
  | @cons a b ha hb iha ihb =>
    refine ⟨?_, .cons iha.whole ihb.rest, ?_⟩
    · by_cases hquoted : IsQuoted a b
      · obtain ⟨rfl, x, rfl⟩ := hquoted
        exact .quoted (ihb.head x .nil rfl)
      · exact .list hquoted iha.whole ihb.rest
    · rintro _ _ h
      cases h
      exact iha.whole

/-! ## Levels of what is read -/

theorem levels_tail_le (v : Value) :
    levels true v ≤ levels false v ∧ levels false v ≤ levels true v + 1 := by
  cases v with
  | nil => exact ⟨Nat.zero_le 1, Nat.le_refl 1⟩
  | cons a b =>
    rw [levels_tail]
    by_cases h : IsQuoted a b
    · obtain ⟨rfl, x, rfl⟩ := h
      rw [levels_quoted, levels_tail]
      have hname : levels false (sym "quote") = 1 := rfl
      have hnil : levels true nil = 0 := rfl
      omega
    · rw [levels_list h]
      omega
  | _ => exact ⟨Nat.le_refl 1, Nat.le_succ 1⟩

mutual

/-- No text of a value is nested less deeply than the one that is printed. -/
theorem levels_le_of_derives {n : Nat} {ts : List Token} {v : Value} :
    Derives n ts v → levels false v ≤ n
  | .atom _ _ means => by
    cases means <;> exact Nat.succ_pos _
  | .string _ means => by
    cases means
    exact Nat.succ_pos _
  | @Derives.quote _ _ _ v _ datum => by
    show levels false (cons (sym "quote") (cons v nil)) ≤ _
    rw [levels_quoted]
    exact Nat.succ_le_succ (levels_le_of_derives datum)
  | .list _ items _ => by
    have hitems := levels_le_of_derivesAll (show levels true nil ≤ _ from Nat.zero_le _) items
    exact Nat.le_trans (levels_tail_le _).2 (Nat.succ_le_succ hitems)
  | .dotted _ items _ _ tail _ => by
    have htail := Nat.le_trans (levels_tail_le _).1 (levels_le_of_derives tail)
    have hitems := levels_le_of_derivesAll htail items
    exact Nat.le_trans (levels_tail_le _).2 (Nat.succ_le_succ hitems)

theorem levels_le_of_derivesAll {n : Nat} {ts : List Token} {vs : List Value} {w : Value}
    (hw : levels true w ≤ n) : DerivesAll n ts vs → levels true (chain vs w) ≤ n
  | .nil => hw
  | .cons first others => by
    rw [chain, List.foldr_cons, levels_tail]
    exact Nat.max_le.2 ⟨levels_le_of_derives first, levels_le_of_derivesAll hw others⟩

end

theorem levels_le_of_read {text : String} {v : Value} (h : read text = .ok v) :
    levels false v ≤ 200 := by
  obtain ⟨tokens, haccepts⟩ := accepts_of_read h
  exact levels_le_of_derives haccepts.derives

theorem Printable.reads_back {v : Value} (h : Printable v) : ∃ text, v.print? = some text ∧
    (levels false v ≤ 200 → read text = .ok v) := by
  obtain ⟨text, hrender, hlays⟩ := h.prints.whole
  refine ⟨text, hrender, fun hlevels => ?_⟩
  obtain ⟨tokens, hwhole, htiles⟩ := hlays 0 [] [] (fun c hc => absurd hc (by simp)) (.done _)
  rw [List.append_nil, List.append_nil] at htiles
  exact Accepts.read_eq ⟨htiles, hwhole.derives 200 hlevels,
    fun t ht => (hwhole.admissible t ht).integer, fun t ht => (hwhole.admissible t ht).escapes⟩

/-- A value that can be written is printed, and its text is read back as the value exactly if it is
not nested deeper than the reader goes. -/
theorem print_readBack_iff {v : Value} (h : Printable v) : ∃ text, v.print? = some text ∧
    (read text = .ok v ↔ levels false v ≤ 200) := by
  obtain ⟨text, htext, hread⟩ := h.reads_back
  exact ⟨text, htext, levels_le_of_read, hread⟩

/-- Quote marks where they are printed and where they are not, a dotted end and a string with every
kind of escape. -/
def quotes : Value :=
  .chain [.chain [.sym "quote", .str "\"\\\n\t;\u00e9"] (.num (-12)), .ofList [.sym "quote", .nil],
    .sym "quote"] (.ofList [.sym "a.b"])

theorem isName_quote : IsName "quote" :=
  ⟨by decide, by cbv, by decide, by decide, by decide⟩

theorem print_readBack_quotes : Printable quotes ∧ levels false quotes = 3 ∧
    quotes.print? = some "((quote \"\\\"\\\\\\n\t;\u00e9\" . -12) 'nil quote a.b)" ∧
    ∃ text, quotes.print? = some text ∧ (read text = .ok quotes ↔ levels false quotes ≤ 200) := by
  have hname : Printable (.sym "quote") := .sym isName_quote
  have hquotes : Printable quotes :=
    .cons (.cons hname (.cons (.str (by decide)) (.num (by decide))))
      (.cons (.cons hname (.cons .nil .nil)) (.cons hname (.cons (.sym
        ⟨by decide, by cbv, by decide, by decide, by decide⟩) .nil)))
  exact ⟨hquotes, by decide, by decide +kernel, print_readBack_iff hquotes⟩

end Value

end CommitChain
