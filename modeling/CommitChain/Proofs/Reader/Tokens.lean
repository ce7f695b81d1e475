import CommitChain.Reader.Token
import Mathlib.Data.List.Basic

/-!
# The tokens of a text

`Tiles` says how a text is laid out: blanks, comments and tokens stand side by side, each token at
its offset, and comments and atoms go on as far as they can.  The scanner reads exactly the texts
that are laid out so (`scan_eq_ok`).  It takes one character at a time; what each of its states still
asks of the text is `Scan.Reads`, and one character is one lemma a state.
-/

namespace CommitChain

open CommitChain.Text

/-! ## Layout -/

/-- What atoms are made of. -/
def IsAtomChar (c : Char) : Prop :=
  isBlank c = false ∧ c ∉ ['(', ')', '\'', '"', ';']

instance (c : Char) : Decidable (IsAtomChar c) :=
  inferInstanceAs (Decidable (_ ∧ _))

/-- What may stand between the quotes of a string: a backslash is followed by another character on
the same line. -/
inductive StringBody : List Char → Prop
  | nil : StringBody []
  | plain {c : Char} {cs : List Char} (hquote : c ≠ '"') (hslash : c ≠ '\\') (h : StringBody cs) :
      StringBody (c :: cs)
  | escape {c : Char} {cs : List Char} (hline : c ≠ '\n') (h : StringBody cs) :
      StringBody ('\\' :: c :: cs)

/-- The tokens that are a single character. -/
def marks : List (Char × TokenKind) :=
  [('(', .opening), (')', .closing), ('\'', .quote)]

/-- A text from `offset` on is laid out as these tokens with blanks and comments between them. -/
inductive Tiles : Nat → List Char → List Token → Prop
  | done (offset : Nat) : Tiles offset [] []
  | blank {offset : Nat} {c : Char} {cs : List Char} {ts : List Token} (hc : isBlank c = true)
      (others : Tiles (offset + 1) cs ts) : Tiles offset (c :: cs) ts
  | comment {offset : Nat} {line cs : List Char} {ts : List Token} (hline : '\n' ∉ line)
      (ends : ∀ c ∈ cs.head?, c = '\n') (others : Tiles (offset + 1 + line.length) cs ts) :
      Tiles offset (';' :: (line ++ cs)) ts
  | mark {offset : Nat} {c : Char} {kind : TokenKind} {cs : List Char} {ts : List Token}
      (hmark : (c, kind) ∈ marks) (others : Tiles (offset + 1) cs ts) :
      Tiles offset (c :: cs) (⟨kind, [c], offset⟩ :: ts)
  | string {offset : Nat} {body cs : List Char} {ts : List Token} (hbody : StringBody body)
      (others : Tiles (offset + 1 + body.length + 1) cs ts) :
      Tiles offset ('"' :: (body ++ '"' :: cs)) (⟨.string, '"' :: (body ++ ['"']), offset⟩ :: ts)
  | atom {offset : Nat} {c : Char} {more cs : List Char} {ts : List Token}
      (hchars : ∀ a ∈ c :: more, IsAtomChar a) (ends : ∀ a ∈ cs.head?, ¬IsAtomChar a)
      (others : Tiles (offset + 1 + more.length) cs ts) :
      Tiles offset (c :: (more ++ cs)) (⟨.atom, c :: more, offset⟩ :: ts)

theorem add_length_cons (offset : Nat) (c : Char) (cs : List Char) :
    offset + (c :: cs).length = offset + 1 + cs.length := by
  rw [List.length_cons, Nat.add_comm cs.length, Nat.add_assoc]

theorem tiles_nil {offset : Nat} {ts : List Token} : Tiles offset [] ts ↔ ts = [] := by
  constructor
  · intro h
    cases h
    rfl
  · rintro rfl
    exact .done offset

/-- What a character between two tokens can be. -/
theorem char_cases (c : Char) : isBlank c = true ∨ c = ';' ∨ (∃ kind, (c, kind) ∈ marks) ∨
    c = '"' ∨ IsAtomChar c := by
  have hmarks : (∃ kind, (c, kind) ∈ marks) ↔ c = '(' ∨ c = ')' ∨ c = '\'' := by
    simp only [marks, List.mem_cons, Prod.mk.injEq, List.not_mem_nil, or_false, exists_or,
      exists_and_left, exists_eq, and_true]
  simp only [hmarks, IsAtomChar, List.mem_cons, List.not_mem_nil, or_false]
  cases isBlank c <;> tauto

theorem isDelimiter_iff {c : Char} : Scan.isDelimiter c = true ↔ ¬IsAtomChar c := by
  simp only [Scan.isDelimiter, IsAtomChar, Bool.or_eq_true, decide_eq_true_eq, List.mem_cons,
    List.not_mem_nil, or_false, not_and_or, not_not, Bool.not_eq_false]
  tauto

theorem forall_isAtomChar {cs : List Char} (h : (cs.all fun c => decide (IsAtomChar c)) = true) :
    ∀ c ∈ cs, IsAtomChar c :=
  fun c hc => of_decide_eq_true (List.all_eq_true.1 h c hc)

/-- An atom is a piece of the text without delimiters. -/
theorem Tiles.atom_chars {offset : Nat} {cs : List Char} {ts : List Token} {t : Token}
    (h : Tiles offset cs ts) (ht : t ∈ ts) (hkind : t.kind = .atom) :
    t.lexeme ≠ [] ∧ ∀ c ∈ t.lexeme, IsAtomChar c ∧ c ∈ cs := by
  have further : ∀ (before : List Char) {cs : List Char},
      (t.lexeme ≠ [] ∧ ∀ c ∈ t.lexeme, IsAtomChar c ∧ c ∈ cs) →
        t.lexeme ≠ [] ∧ ∀ c ∈ t.lexeme, IsAtomChar c ∧ c ∈ before ++ cs :=
    fun before _ h => h.imp_right fun hchars c hc =>
      (hchars c hc).imp_right (List.mem_append_right before)
  induction h with
  | done => exact absurd ht List.not_mem_nil
  | @blank offset c cs ts hc others ih => exact further [c] (ih ht)
  | @comment offset line cs ts hline ends others ih => exact further (';' :: line) (ih ht)
  | @mark offset c kind cs ts hmark others ih =>
    rcases List.mem_cons.1 ht with rfl | ht
    · obtain rfl : kind = .atom := hkind
      exact absurd hmark (by simp [marks])
    · exact further [c] (ih ht)
  | @string offset body cs ts hbody others ih =>
    rcases List.mem_cons.1 ht with rfl | ht
    · cases hkind
    · have hmore := further ('"' :: (body ++ ['"'])) (ih ht)
      rwa [List.cons_append, List.append_assoc] at hmore
  | @atom offset c more cs ts hall ends others ih =>
    rcases List.mem_cons.1 ht with rfl | ht
    · exact ⟨List.cons_ne_nil c more, fun a ha => ⟨hall a ha, List.mem_append_left cs ha⟩⟩
    · exact further (c :: more) (ih ht)

/-! ## What the scanner asks for -/

/-- What a state of the scanner asks of the rest of a text, and the tokens it makes of it. -/
def Scan.Reads : Scan → Nat → List Char → List Token → Prop
  | between, offset, cs, ts => Tiles offset cs ts
  | comment, offset, cs, ts => ∃ line others, cs = line ++ others ∧ '\n' ∉ line ∧
    (∀ c ∈ others.head?, c = '\n') ∧ Tiles (offset + line.length) others ts
  | atom start before, offset, cs, ts => ∃ more others ts', cs = more ++ others ∧
    (∀ c ∈ more, IsAtomChar c) ∧ (∀ c ∈ others.head?, ¬IsAtomChar c) ∧
    Tiles (offset + more.length) others ts' ∧
    ts = ⟨.atom, before.reverse ++ more, start⟩ :: ts'
  | string start before escaped, offset, cs, ts => ∃ more others ts', cs = more ++ '"' :: others ∧
    StringBody (if escaped then '\\' :: more else more) ∧
    Tiles (offset + more.length + 1) others ts' ∧
    ts = ⟨.string, before.reverse ++ more ++ ['"'], start⟩ :: ts'

section

variable {offset : Nat} {c : Char} {cs : List Char} {ts : List Token}

theorem enter_of_isAtomChar (h : IsAtomChar c) : Scan.enter offset c = ([], .atom offset [c]) := by
  obtain ⟨hblank, hmarks⟩ := h
  simp only [List.mem_cons, List.not_mem_nil, or_false, not_or] at hmarks
  obtain ⟨hopen, hclose, hquote, hstring, hcomment⟩ := hmarks
  simp only [Scan.enter, hblank, Bool.false_eq_true, if_false, hopen, hclose, hquote, hstring,
    hcomment]

theorem enter_of_mem_marks {kind : TokenKind} (h : (c, kind) ∈ marks) :
    Scan.enter offset c = ([⟨kind, [c], offset⟩], .between) := by
  simp only [marks, List.mem_cons, Prod.mk.injEq, List.not_mem_nil, or_false] at h
  obtain ⟨rfl, rfl⟩ | ⟨rfl, rfl⟩ | ⟨rfl, rfl⟩ := h <;> rfl

/-- The character after a token, a blank or a comment. -/
theorem tiles_cons : Tiles offset (c :: cs) ts ↔
    ∃ ts', (Scan.enter offset c).2.Reads (offset + 1) cs ts' ∧
      ts = (Scan.enter offset c).1 ++ ts' := by
  constructor
  · intro h
    generalize htext : c :: cs = text at h
    cases h with
    | done => cases htext
    | blank hc others =>
      cases htext
      rw [Scan.enter, if_pos hc]
      exact ⟨ts, others, rfl⟩
    | comment hline ends others =>
      cases htext
      exact ⟨ts, ⟨_, _, rfl, hline, ends, others⟩, rfl⟩
    | mark hmark others =>
      cases htext
      rw [enter_of_mem_marks hmark]
      exact ⟨_, others, rfl⟩
    | string hbody others =>
      cases htext
      exact ⟨_, ⟨_, _, _, rfl, hbody, others, rfl⟩, rfl⟩
    | atom hchars ends others =>
      cases htext
      obtain ⟨hc, hmore⟩ := List.forall_mem_cons.1 hchars
      rw [enter_of_isAtomChar hc]
      exact ⟨_, ⟨_, _, _, rfl, hmore, ends, others, rfl⟩, rfl⟩
  · rintro ⟨ts', h, rfl⟩
    obtain hblank | rfl | ⟨kind, hkind⟩ | rfl | hatom := char_cases c
    · rw [Scan.enter, if_pos hblank] at h ⊢
      exact .blank hblank h
    · obtain ⟨line, others, rfl, hline, ends, hothers⟩ := h
      exact .comment hline ends hothers
    · rw [enter_of_mem_marks hkind] at h ⊢
      exact .mark hkind h
    · obtain ⟨body, others, ts', rfl, hbody, hothers, rfl⟩ := h
      exact .string hbody hothers
    · rw [enter_of_isAtomChar hatom] at h ⊢
      obtain ⟨more, others, ts', rfl, hmore, ends, hothers, rfl⟩ := h
      exact .atom (List.forall_mem_cons.2 ⟨hatom, hmore⟩) ends hothers

theorem reads_comment_cons : Scan.comment.Reads offset (c :: cs) ts ↔
    (if c = '\n' then Scan.between else .comment).Reads (offset + 1) cs ts := by
  constructor
  · rintro ⟨line, others, htext, hline, ends, hothers⟩
    cases line with
    | nil =>
      obtain rfl : c :: cs = others := htext
      obtain rfl := ends c rfl
      -- the end of the line is a blank
      obtain ⟨_, h, rfl⟩ := tiles_cons.1 hothers
      exact h
    | cons a line =>
      cases htext
      obtain ⟨ha, hline⟩ := List.ne_and_not_mem_of_not_mem_cons hline
      rw [if_neg (Ne.symm ha)]
      refine ⟨line, others, rfl, hline, ends, ?_⟩
      rwa [add_length_cons] at hothers
  · split
    next hc =>
      intro h
      refine ⟨[], c :: cs, rfl, List.not_mem_nil, fun a ha => ?_, .blank (hc ▸ rfl) h⟩
      exact (Option.some.inj ha).symm.trans hc
    next hc =>
      rintro ⟨line, others, rfl, hline, ends, hothers⟩
      refine ⟨c :: line, others, rfl, List.not_mem_cons_of_ne_of_not_mem (Ne.symm hc) hline, ends, ?_⟩
      rwa [add_length_cons]

theorem reads_atom_cons {start : Nat} {before : List Char} :
    (Scan.atom start before).Reads offset (c :: cs) ts ↔
      if Scan.isDelimiter c then
        ∃ ts', (Scan.enter offset c).2.Reads (offset + 1) cs ts' ∧
          ts = ⟨.atom, before.reverse, start⟩ :: (Scan.enter offset c).1 ++ ts'
      else (Scan.atom start (c :: before)).Reads (offset + 1) cs ts := by
  constructor
  · rintro ⟨more, others, ts', htext, hmore, ends, hothers, rfl⟩
    cases more with
    | nil =>
      obtain rfl : c :: cs = others := htext
      rw [if_pos (isDelimiter_iff.2 (ends c rfl))]
      obtain ⟨ts', h, rfl⟩ := tiles_cons.1 hothers
      exact ⟨ts', h, by rw [List.append_nil]; rfl⟩
    | cons a more =>
      cases htext
      obtain ⟨ha, hmore⟩ := List.forall_mem_cons.1 hmore
      rw [if_neg (fun h => isDelimiter_iff.1 h ha)]
      refine ⟨more, others, ts', rfl, hmore, ends, ?_, ?_⟩
      · rwa [add_length_cons] at hothers
      · simp
  · split
    next hc =>
      rintro ⟨ts', h, rfl⟩
      refine ⟨[], c :: cs, _, rfl, fun _ h => absurd h List.not_mem_nil, fun a ha => ?_,
        tiles_cons.2 ⟨ts', h, rfl⟩, by rw [List.append_nil]; rfl⟩
      exact Option.some.inj ha ▸ isDelimiter_iff.1 hc
    next hc =>
      rintro ⟨more, others, ts', rfl, hmore, ends, hothers, rfl⟩
      have ha : IsAtomChar c := not_not.1 (mt isDelimiter_iff.2 hc)
      refine ⟨c :: more, others, ts', rfl, List.forall_mem_cons.2 ⟨ha, hmore⟩, ends, ?_, ?_⟩
      · rwa [add_length_cons]
      · simp

theorem stringBody_cons : StringBody (c :: cs) ↔
    c ≠ '"' ∧ StringBody (if c = '\\' then '\\' :: cs else cs) := by
  constructor
  · intro h
    cases h with
    | plain hquote hslash h => exact ⟨hquote, by rwa [if_neg hslash]⟩
    | escape hline h => exact ⟨by decide, .escape hline h⟩
  · rintro ⟨hquote, h⟩
    split at h
    next hc =>
      obtain rfl := hc
      exact h
    next hc => exact .plain hquote hc h

theorem stringBody_escape : StringBody ('\\' :: cs) ↔
    ∃ c more, cs = c :: more ∧ c ≠ '\n' ∧ StringBody more := by
  constructor
  · intro h
    cases h with
    | plain _ hslash => exact absurd rfl hslash
    | escape hline h => exact ⟨_, _, rfl, hline, h⟩
  · rintro ⟨c, more, rfl, hline, h⟩
    exact .escape hline h

theorem reads_string_cons {start : Nat} {before : List Char} :
    (Scan.string start before false).Reads offset (c :: cs) ts ↔
      if c = '"' then
        ∃ ts', Tiles (offset + 1) cs ts' ∧ ts = ⟨.string, (c :: before).reverse, start⟩ :: ts'
      else (Scan.string start (c :: before) (c = '\\')).Reads (offset + 1) cs ts := by
  constructor
  · rintro ⟨more, others, ts', htext, hbody, hothers, rfl⟩
    cases more with
    | nil =>
      cases htext
      rw [if_pos rfl]
      exact ⟨ts', hothers, by rw [List.append_nil, List.reverse_cons]⟩
    | cons a more =>
      cases htext
      obtain ⟨hquote, hbody⟩ := stringBody_cons.1 hbody
      rw [if_neg hquote]
      refine ⟨more, others, ts', rfl, by simpa using hbody, ?_, ?_⟩
      · rwa [add_length_cons] at hothers
      · simp
  · split
    next hc =>
      rintro ⟨ts', h, rfl⟩
      exact ⟨[], cs, ts', hc ▸ rfl, .nil, h, by rw [hc, List.append_nil, List.reverse_cons]⟩
    next hc =>
      rintro ⟨more, others, ts', rfl, hbody, hothers, rfl⟩
      refine ⟨c :: more, others, ts', rfl, ?_, ?_, ?_⟩
      · exact stringBody_cons.2 ⟨hc, by simpa using hbody⟩
      · rwa [add_length_cons]
      · simp

theorem reads_escaped_cons {start : Nat} {before : List Char} :
    (Scan.string start before true).Reads offset (c :: cs) ts ↔
      c ≠ '\n' ∧ (Scan.string start (c :: before) false).Reads (offset + 1) cs ts := by
  constructor
  · rintro ⟨more, others, ts', htext, hbody, hothers, rfl⟩
    rw [if_pos rfl] at hbody
    obtain ⟨a, more, rfl, hline, hmore⟩ := stringBody_escape.1 hbody
    cases htext
    refine ⟨hline, more, others, ts', rfl, hmore, ?_, ?_⟩
    · rwa [add_length_cons] at hothers
    · simp
  · rintro ⟨hline, more, others, ts', rfl, hbody, hothers, rfl⟩
    refine ⟨c :: more, others, ts', rfl, stringBody_escape.2 ⟨c, more, rfl, hline, hbody⟩, ?_, ?_⟩
    · rwa [add_length_cons]
    · simp

/-- One character, in any state. -/
theorem reads_cons {scan : Scan} : scan.Reads offset (c :: cs) ts ↔
    ∃ new next ts', scan.feed offset c = .ok (new, next) ∧ next.Reads (offset + 1) cs ts' ∧
      ts = new ++ ts' := by
  have step : ∀ {new : List Token} {next : Scan}, scan.feed offset c = .ok (new, next) →
      ((∃ new next ts', scan.feed offset c = .ok (new, next) ∧ next.Reads (offset + 1) cs ts' ∧
        ts = new ++ ts') ↔ ∃ ts', next.Reads (offset + 1) cs ts' ∧ ts = new ++ ts') := by
    intro new next hfeed
    simp only [hfeed, Except.ok.injEq, Prod.mk.injEq, and_assoc, exists_and_left, exists_eq_left']
  cases scan with
  | between => exact tiles_cons.trans (step rfl).symm
  | comment =>
    rw [step rfl, reads_comment_cons]
    simp
  | atom start before =>
    rw [reads_atom_cons]
    split
    next hc => rw [step (by rw [Scan.feed, if_pos hc])]
    next hc =>
      rw [step (by rw [Scan.feed, if_neg hc])]
      simp
  | string start before escaped =>
    cases escaped with
    | false =>
      rw [reads_string_cons]
      split
      next hc =>
        rw [step (by rw [Scan.feed, if_pos hc])]
        rfl
      next hc =>
        rw [step (by rw [Scan.feed, if_neg hc])]
        simp
    | true =>
      rw [reads_escaped_cons]
      by_cases hc : c = '\n'
      · have hfeed : (Scan.string start before true).feed offset c
            = .error (.unexpectedCharacter '"' start) := by
          rw [Scan.feed, if_pos hc]
        rw [hfeed]
        simp [hc]
      · rw [step (by rw [Scan.feed, if_neg hc])]
        simp [hc]

end

/-! ## The main result -/

theorem run_cons_eq_ok {scan : Scan} {offset : Nat} {c : Char} {cs : List Char}
    {ts : List Token} : scan.run offset (c :: cs) = .ok ts ↔
      ∃ new next ts', scan.feed offset c = .ok (new, next) ∧ next.run (offset + 1) cs = .ok ts' ∧
        ts = new ++ ts' := by
  rw [Scan.run]
  cases scan.feed offset c with
  | error e => simp
  | ok r =>
    obtain ⟨new, next⟩ := r
    cases new with
    | nil => simp
    | cons t new =>
      cases hrun : next.run (offset + 1) cs with
      | error e => simp [hrun]
      | ok ts' => simp [hrun, eq_comm]

theorem run_nil_eq_ok {scan : Scan} {offset : Nat} {ts : List Token} :
    scan.run offset [] = .ok ts ↔ scan.Reads offset [] ts := by
  rw [Scan.run]
  cases scan with
  | between =>
    rw [Scan.Reads, tiles_nil, Scan.finish, Except.ok.injEq]
    exact eq_comm
  | comment => simp [Scan.Reads, Scan.finish, tiles_nil, eq_comm]
  | atom start before => simp [Scan.Reads, Scan.finish, tiles_nil, eq_comm]
  | string start before escaped => simp [Scan.Reads, Scan.finish]

/-- The scanner makes of the rest of a text what its state asks for, by induction on the text. -/
theorem run_eq_ok {scan : Scan} {offset : Nat} {cs : List Char} {ts : List Token} :
    scan.run offset cs = .ok ts ↔ scan.Reads offset cs ts := by
  induction cs generalizing scan offset ts with
  | nil => exact run_nil_eq_ok
  | cons c cs ih => simp only [run_cons_eq_ok, reads_cons, ih]

/-- The scanner reads the texts that are laid out as tokens, and no others. -/
theorem scan_eq_ok {text : String} {ts : List Token} :
    Token.scan text = .ok ts ↔ Tiles 0 text.toList ts :=
  run_eq_ok

end CommitChain
