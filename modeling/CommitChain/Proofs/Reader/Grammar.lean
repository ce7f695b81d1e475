import CommitChain.Proofs.Outcome
import CommitChain.Proofs.Text.Integer
import CommitChain.Reader.Datum
import Mathlib.Data.Nat.Digits.Defs

/-!
# The grammar of expressions

An expression is an atom other than `.`, a string, a quote mark and an expression, a list of
expressions in parentheses, or at least one expression, a dot and an expression in parentheses
(`Derives`).  Each expression is one level of nesting and its parts are one level deeper.

What an atom or a string stands for is told by rules of their own, `AtomMeans` and `StringMeans`; the
reader gives these values (`atomValue_eq_ok`, `stringValue_eq_ok`), unless an integer has too many
digits.
-/

namespace CommitChain.Reader

open CommitChain.Text

/-! ## Atoms -/

def digitOf (c : Char) : Nat :=
  (digitValue? c).getD 0

/-- The signs of integers with their factors. -/
def signs : List (List Char × Int) :=
  [([], 1), (['+'], 1), (['-'], -1)]

/-- An optional sign and at least one digit, of any script, write an integer. -/
inductive WritesInteger : List Char → List Char → Int → Prop
  | intro {sign ds : List Char} {factor : Int} (hsign : (sign, factor) ∈ signs) (hne : ds ≠ [])
      (hdigits : ∀ d ∈ ds, isDecimalDigit d = true) :
      WritesInteger (sign ++ ds) ds (factor * (Nat.ofDigits 10 (ds.reverse.map digitOf) : Nat))

/-- What an atom stands for: an integer, `nil`, or else a symbol in normal form. -/
inductive AtomMeans (lexeme : List Char) : Value → Prop
  | integer {ds : List Char} {n : Int} (h : WritesInteger lexeme ds n) : AtomMeans lexeme (.num n)
  | nil (h : lexeme = ['n', 'i', 'l']) : AtomMeans lexeme .nil
  | symbol (hinteger : ∀ ds n, ¬WritesInteger lexeme ds n) (hnil : lexeme ≠ ['n', 'i', 'l']) :
      AtomMeans lexeme (.sym (normalize (String.ofList lexeme)))

theorem natOfDigits_eq_ofDigits (ds : List Char) :
    natOfDigits ds = Nat.ofDigits 10 (ds.reverse.map digitOf) := by
  induction ds using List.reverseRecOn with
  | nil => rfl
  | append_singleton ds c ih =>
    rw [natOfDigits_concat, ih, List.reverse_append, List.reverse_singleton, List.singleton_append,
      List.map_cons, Nat.ofDigits_cons]
    exact Nat.add_comm _ _

/-- The sign in front of an atom. -/
theorem splitSign_eq (lexeme : List Char) : ∃ sign factor, (sign, factor) ∈ signs ∧
    lexeme = sign ++ (splitSign lexeme).2 ∧
    factor = if (splitSign lexeme).1 then -1 else 1 := by
  unfold splitSign
  split
  · exact ⟨['-'], -1, by simp [signs], rfl, rfl⟩
  · exact ⟨['+'], 1, by simp [signs], rfl, rfl⟩
  · exact ⟨[], 1, by simp [signs], rfl, rfl⟩

theorem splitSign_append {sign ds : List Char} {factor : Int} (h : (sign, factor) ∈ signs)
    (hne : ds ≠ []) (hdigits : ∀ d ∈ ds, isDecimalDigit d = true) :
    (splitSign (sign ++ ds)).2 = ds ∧
      (if (splitSign (sign ++ ds)).1 then (-1 : Int) else 1) = factor := by
  simp only [signs, List.mem_cons, Prod.mk.injEq, List.not_mem_nil, or_false] at h
  obtain ⟨rfl, rfl⟩ | ⟨rfl, rfl⟩ | ⟨rfl, rfl⟩ := h
  · obtain ⟨d, ds, rfl⟩ := List.exists_cons_of_ne_nil hne
    have hd := hdigits d List.mem_cons_self
    have hminus : d ≠ '-' := by
      rintro rfl
      exact absurd hd (by decide)
    have hplus : d ≠ '+' := by
      rintro rfl
      exact absurd hd (by decide)
    simp [splitSign, hminus, hplus]
  · exact ⟨rfl, rfl⟩
  · exact ⟨rfl, rfl⟩

/-- What an integer is, in terms of the sign that is split off. -/
theorem writesInteger_iff {lexeme ds : List Char} {n : Int} : WritesInteger lexeme ds n ↔
    isInteger lexeme = true ∧ (splitSign lexeme).2 = ds ∧
      (if (splitSign lexeme).1 then -(natOfDigits ds : Int) else natOfDigits ds) = n := by
  have hinteger : isInteger lexeme = true ↔
      (splitSign lexeme).2 ≠ [] ∧ ∀ d ∈ (splitSign lexeme).2, isDecimalDigit d = true := by
    simp [isInteger]
  have hsigned : ∀ (negative : Bool) (k : Nat),
      (if negative then -(k : Int) else k) = (if negative then -1 else 1) * k := by
    intro negative k
    cases negative <;> simp
  rw [hinteger, hsigned]
  constructor
  · intro h
    cases h with
    | intro hsign hne hdigits =>
      obtain ⟨hds, hfactor⟩ := splitSign_append hsign hne hdigits
      rw [hds, hfactor, natOfDigits_eq_ofDigits]
      exact ⟨⟨hne, hdigits⟩, rfl, rfl⟩
  · rintro ⟨⟨hne, hdigits⟩, rfl, rfl⟩
    obtain ⟨sign, factor, hsign, hlexeme, hfactor⟩ := splitSign_eq lexeme
    have h := WritesInteger.intro hsign hne hdigits
    rwa [← hlexeme, ← natOfDigits_eq_ofDigits, hfactor] at h

/-- The reader gives an atom what it stands for, unless it is an integer with too many digits. -/
theorem atomValue_eq_ok {lexeme : List Char} {offset : Nat} {v : Value} :
    atomValue lexeme offset = .ok v ↔
      AtomMeans lexeme v ∧ ∀ ds n, WritesInteger lexeme ds n → ds.length ≤ digitLimit := by
  by_cases hint : isInteger lexeme = true
  · have hwrites := writesInteger_iff.2 ⟨hint, rfl, rfl⟩
    have hunique : ∀ {ds n}, WritesInteger lexeme ds n → _ ∧ _ := fun h =>
      (writesInteger_iff.1 h).2
    rw [atomValue, if_pos hint]
    dsimp only
    by_cases hlong : digitLimit < (splitSign lexeme).2.length
    · rw [if_pos hlong]
      exact iff_of_false (by simp) fun h => Nat.not_le.2 hlong (h.2 _ _ hwrites)
    · rw [if_neg hlong]
      constructor
      · intro h
        cases h
        refine ⟨.integer hwrites, fun ds n h => ?_⟩
        obtain ⟨rfl, _⟩ := hunique h
        exact Nat.not_lt.1 hlong
      · rintro ⟨hmeans, _⟩
        cases hmeans with
        | integer h =>
          obtain ⟨rfl, rfl⟩ := hunique h
          rfl
        | nil h => exact absurd hint (by rw [h]; decide)
        | symbol hinteger => exact absurd hwrites (hinteger _ _)
  · have hnone : ∀ ds n, ¬WritesInteger lexeme ds n := fun ds n h =>
      hint (writesInteger_iff.1 h).1
    rw [atomValue, if_neg hint]
    constructor
    · intro h
      refine ⟨?_, fun ds n h => absurd h (hnone ds n)⟩
      split at h
      next hnil =>
        cases h
        exact .nil hnil
      next hnil =>
        cases h
        exact .symbol hnone hnil
    · rintro ⟨hmeans, _⟩
      cases hmeans with
      | integer h => exact absurd h (hnone _ _)
      | nil h => rw [if_pos h]
      | symbol _ hnil =>
        rw [if_neg hnil]
        rfl

/-! ## Strings -/

/-- The characters that may stand behind a backslash, with what they stand for. -/
def escapes : List (Char × Char) :=
  [('n', '\n'), ('t', '\t'), ('\\', '\\'), ('"', '"')]

/-- What the characters between the quotes of a string stand for. -/
inductive Unescapes : List Char → List Char → Prop
  | nil : Unescapes [] []
  | plain {c : Char} {cs ds : List Char} (hc : c ≠ '\\') (h : Unescapes cs ds) :
      Unescapes (c :: cs) (c :: ds)
  | escape {e c : Char} {cs ds : List Char} (he : (e, c) ∈ escapes) (h : Unescapes cs ds) :
      Unescapes ('\\' :: e :: cs) (c :: ds)

/-- Every backslash escapes a character that may be escaped. -/
inductive EscapesKnown : List Char → Prop
  | nil : EscapesKnown []
  | plain {c : Char} {cs : List Char} (hc : c ≠ '\\') (h : EscapesKnown cs) :
      EscapesKnown (c :: cs)
  | escape {e : Char} {cs : List Char} (he : e ∈ ['n', 't', '\\', '"']) (h : EscapesKnown cs) :
      EscapesKnown ('\\' :: e :: cs)

/-- What lies between the quotes of a string. -/
def inner (lexeme : List Char) : List Char :=
  (lexeme.drop 1).dropLast

/-- What a string stands for. -/
inductive StringMeans (lexeme : List Char) : Value → Prop
  | intro {cs : List Char} (h : Unescapes (inner lexeme) cs) :
      StringMeans lexeme (.str (normalize (String.ofList cs)))

theorem Unescapes.escapesKnown {cs ds : List Char} (h : Unescapes cs ds) : EscapesKnown cs := by
  induction h with
  | nil => exact .nil
  | plain hc _ ih => exact .plain hc ih
  | @escape e c _ _ he _ ih =>
    have hmem : e ∈ escapes.map Prod.fst := List.mem_map.2 ⟨(e, c), he, rfl⟩
    exact .escape hmem ih

theorem unescape?_plain {c : Char} (hc : c ≠ '\\') (cs : List Char) :
    unescape? (c :: cs) = (unescape? cs).map (c :: ·) := by
  rw [unescape?.eq_def]
  split <;> simp_all

theorem unescape?_eq_some {cs ds : List Char} : unescape? cs = some ds ↔ Unescapes cs ds := by
  constructor
  · intro h
    fun_induction unescape? cs generalizing ds with
    | case1 =>
      cases h
      exact .nil
    | case2 cs ih =>
      obtain ⟨ds, hds, rfl⟩ := Option.map_eq_some_iff.1 h
      exact .escape (by simp [escapes]) (ih hds)
    | case3 cs ih =>
      obtain ⟨ds, hds, rfl⟩ := Option.map_eq_some_iff.1 h
      exact .escape (by simp [escapes]) (ih hds)
    | case4 cs ih =>
      obtain ⟨ds, hds, rfl⟩ := Option.map_eq_some_iff.1 h
      exact .escape (by simp [escapes]) (ih hds)
    | case5 cs ih =>
      obtain ⟨ds, hds, rfl⟩ := Option.map_eq_some_iff.1 h
      exact .escape (by simp [escapes]) (ih hds)
    | case6 => cases h
    | case7 c cs _ _ _ _ hc ih =>
      obtain ⟨ds, hds, rfl⟩ := Option.map_eq_some_iff.1 h
      exact .plain hc (ih hds)
  · intro h
    induction h with
    | nil => rfl
    | plain hc _ ih => rw [unescape?_plain hc, ih, Option.map_some]
    | escape he _ ih =>
      simp only [escapes, List.mem_cons, Prod.mk.injEq, List.not_mem_nil, or_false] at he
      obtain ⟨rfl, rfl⟩ | ⟨rfl, rfl⟩ | ⟨rfl, rfl⟩ | ⟨rfl, rfl⟩ := he <;>
        rw [unescape?, ih, Option.map_some]

/-- The reader gives a string what it stands for. -/
theorem stringValue_eq_ok {lexeme : List Char} {offset : Nat} {v : Value} :
    stringValue lexeme offset = .ok v ↔ StringMeans lexeme v := by
  rw [stringValue]
  constructor
  · intro h
    split at h
    next cs hcs =>
      cases h
      exact .intro (unescape?_eq_some.1 hcs)
    · cases h
  · intro h
    cases h with
    | intro h =>
      rw [← inner, unescape?_eq_some.2 h]
      rfl

/-! ## Expressions -/

/-- A dot that stands alone. -/
def IsDot (t : Token) : Prop :=
  t.kind = .atom ∧ t.lexeme = ['.']

mutual

/-- Tokens that make up one expression of a value, nested at most so many levels deep. -/
inductive Derives : Nat → List Token → Value → Prop
  | atom {levels : Nat} {t : Token} {v : Value} (hkind : t.kind = .atom) (hdot : t.lexeme ≠ ['.'])
      (means : AtomMeans t.lexeme v) : Derives (levels + 1) [t] v
  | string {levels : Nat} {t : Token} {v : Value} (hkind : t.kind = .string)
      (means : StringMeans t.lexeme v) : Derives (levels + 1) [t] v
  | quote {levels : Nat} {t : Token} {ts : List Token} {v : Value} (hkind : t.kind = .quote)
      (datum : Derives levels ts v) :
      Derives (levels + 1) (t :: ts) (.ofList [.sym "quote", v])
  | list {levels : Nat} {t c : Token} {ts : List Token} {vs : List Value}
      (hopen : t.kind = .opening) (items : DerivesAll levels ts vs) (hclose : c.kind = .closing) :
      Derives (levels + 1) (t :: (ts ++ [c])) (.ofList vs)
  | dotted {levels : Nat} {t d c : Token} {ts ts' : List Token} {vs : List Value} {v : Value}
      (hopen : t.kind = .opening) (items : DerivesAll levels ts vs) (hne : vs ≠ []) (hdot : IsDot d)
      (tail : Derives levels ts' v) (hclose : c.kind = .closing) :
      Derives (levels + 1) (t :: (ts ++ d :: (ts' ++ [c]))) (.chain vs v)

/-- Tokens that make up some expressions one after the other. -/
inductive DerivesAll : Nat → List Token → List Value → Prop
  | nil {levels : Nat} : DerivesAll levels [] []
  | cons {levels : Nat} {ts ts' : List Token} {v : Value} {vs : List Value}
      (first : Derives levels ts v) (others : DerivesAll levels ts' vs) :
      DerivesAll levels (ts ++ ts') (v :: vs)

end

/-- What the reader asks of a token in an expression: its integer is not too long, and its escapes
are known. -/
structure Admissible (t : Token) : Prop where
  integer : t.kind = .atom → ∀ ds n, WritesInteger t.lexeme ds n → ds.length ≤ digitLimit
  escapes : t.kind = .string → EscapesKnown (inner t.lexeme)

end CommitChain.Reader
