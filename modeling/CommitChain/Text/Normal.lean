import CommitChain.Text.Normal.CombiningClass
import CommitChain.Text.Normal.Decomposition
import Std.Data.HashMap

/-!
# The composed normal form of text

`normalize` brings text into Unicode's normal form C: every character is decomposed, the marks after
each base character are put in the order of their classes, and what composes is composed again.
Names and strings are kept in this form, so two spellings of one name are one name.

Characters below U+0300 neither decompose for good nor carry a class, so text of such characters is
already normal; `normalize` returns it at once.
-/

namespace CommitChain.Text.Normal

/-- The combining class of a character, zero for a base character. -/
def combiningClass (c : Char) : Nat :=
  if c.toNat < 0x300 then 0
  else
    match classRanges.find? fun r =>
        r / 0x100000000 ≤ c.toNat && c.toNat ≤ r / 0x100 % 0x1000000 with
    | some r => r % 0x100
    | none => 0

/-! ## Hangul syllables -/

/-- The number of vowels of the Hangul alphabet. -/
def vowelCount : Nat := 21

/-- The number of final consonants, counting none. -/
def finalCount : Nat := 28

def firstSyllable : Nat := 0xAC00
def firstLeading : Nat := 0x1100
def firstVowel : Nat := 0x1161
def firstFinal : Nat := 0x11A7

/-- The letters of a Hangul syllable. -/
def decomposeSyllable? (c : Char) : Option (List Char) :=
  let s := c.toNat - firstSyllable
  if firstSyllable ≤ c.toNat ∧ s < 19 * vowelCount * finalCount then
    let leading := Char.ofNat (firstLeading + s / (vowelCount * finalCount))
    let vowel := Char.ofNat (firstVowel + s % (vowelCount * finalCount) / finalCount)
    if s % finalCount = 0 then some [leading, vowel]
    else some [leading, vowel, Char.ofNat (firstFinal + s % finalCount)]
  else none

/-- The syllable that two Hangul letters, or a syllable and a final consonant, make. -/
def composeSyllable? (a b : Char) : Option Char :=
  let l := a.toNat - firstLeading
  let v := b.toNat - firstVowel
  let s := a.toNat - firstSyllable
  let f := b.toNat - firstFinal
  if firstLeading ≤ a.toNat ∧ l < 19 ∧ firstVowel ≤ b.toNat ∧ v < vowelCount then
    some (Char.ofNat (firstSyllable + (l * vowelCount + v) * finalCount))
  else if firstSyllable ≤ a.toNat ∧ s < 19 * vowelCount * finalCount ∧ s % finalCount = 0
      ∧ firstFinal < b.toNat ∧ f < finalCount then
    some (Char.ofNat (a.toNat + f))
  else none

/-! ## The tables as maps -/

/-- The one or two parts of each character of the table. -/
def partsOf : Std.HashMap Nat (Nat × Nat) :=
  Std.HashMap.ofList <|
    decompositions.map fun e => (e / 0x1000000000000, (e / 0x1000000 % 0x1000000, e % 0x1000000))

/-- The character that two parts compose to. -/
def wholeOf : Std.HashMap (Nat × Nat) Nat :=
  Std.HashMap.ofList <|
    (decompositions.filter fun e =>
      e % 0x1000000 ≠ 0 && !uncomposed.contains (e / 0x1000000000000)).map fun e =>
        ((e / 0x1000000 % 0x1000000, e % 0x1000000), e / 0x1000000000000)

/-! ## The three passes -/

/-- The full decomposition of a character; the table is at most three steps deep. -/
def decompose : Nat → Char → List Char
  | 0, c => [c]
  | n + 1, c =>
    match decomposeSyllable? c with
    | some letters => letters
    | none =>
      match partsOf[c.toNat]? with
      | none => [c]
      | some (a, b) =>
        decompose n (Char.ofNat a) ++ if b = 0 then [] else decompose n (Char.ofNat b)

/-- Puts a mark in front of the first base character or mark of a class not smaller than its own. -/
def insertMark (c : Char) : List Char → List Char
  | [] => [c]
  | d :: ds =>
    if combiningClass d ≠ 0 ∧ combiningClass d < combiningClass c then d :: insertMark c ds
    else c :: d :: ds

/-- The marks behind each base character, sorted by class; equal classes keep their order. -/
def orderMarks : List Char → List Char
  | [] => []
  | c :: cs => if combiningClass c = 0 then c :: orderMarks cs else insertMark c (orderMarks cs)

/-- The character that `a` and a following `b` compose to. -/
def compose? (a b : Char) : Option Char :=
  match composeSyllable? a b with
  | some c => some c
  | none => wholeOf[(a.toNat, b.toNat)]?.map Char.ofNat

/-- Composes `base` with what follows.  `marks` holds the marks passed over so far, the last one
first; a character is out of reach of the base behind a mark of a class not smaller than its own. -/
def composeOnto (base : Char) (marks : List Char) : List Char → List Char
  | [] => base :: marks.reverse
  | c :: cs =>
    let reachable :=
      match marks with
      | [] => true
      | m :: _ => combiningClass m < combiningClass c
    match if reachable then compose? base c else none with
    | some whole => composeOnto whole marks cs
    | none =>
      if combiningClass c = 0 then base :: (marks.reverse ++ composeOnto c [] cs)
      else composeOnto base (c :: marks) cs

/-- Composes ordered text; marks in front of the first base character stay as they are. -/
def composeAll : List Char → List Char
  | [] => []
  | c :: cs => if combiningClass c = 0 then composeOnto c [] cs else c :: composeAll cs

end Normal

open CommitChain.Text.Normal in
/-- Text in Unicode's normal form C. -/
def normalize (s : String) : String :=
  if s.toList.all fun c => c.toNat < 0x300 then s
  else String.ofList (composeAll (orderMarks (s.toList.flatMap (decompose 3))))

/-- Text that normalization leaves alone. -/
def IsNormal (s : String) : Prop :=
  normalize s = s

instance (s : String) : Decidable (IsNormal s) :=
  inferInstanceAs (Decidable (normalize s = s))

end CommitChain.Text
