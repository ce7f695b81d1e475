import CommitChain.Text.Printable

/-!
# Quoted text

How a message quotes a text: between apostrophes, or between double quotes if it holds an apostrophe
and no double quote.  The backslash and the chosen quote are escaped, and so is every character that
is not printable.
-/

namespace CommitChain.Text

/-- `width` lowercase hexadecimal digits of `n`. -/
def hexDigits (width n : Nat) : String :=
  String.ofList ((List.range width).map fun i => (n / Nat.pow 16 (width - 1 - i) % 16).digitChar)

/-- One character of a text between `quote`s. -/
def quotedChar (quote c : Char) : String :=
  if c = quote ∨ c = '\\' then String.ofList ['\\', c]
  else if c = '\n' then "\\n"
  else if c = '\r' then "\\r"
  else if c = '\t' then "\\t"
  else if isPrintable c then String.singleton c
  else if c.toNat < 0x100 then "\\x" ++ hexDigits 2 c.toNat
  else if c.toNat < 0x10000 then "\\u" ++ hexDigits 4 c.toNat
  else "\\U" ++ hexDigits 8 c.toNat

/-- The text as a message quotes it. -/
def quoted (s : String) : String :=
  let cs := s.toList
  let quote := if cs.contains '\'' && !cs.contains '"' then '"' else '\''
  String.singleton quote ++ String.join (cs.map (quotedChar quote)) ++ String.singleton quote

end CommitChain.Text
