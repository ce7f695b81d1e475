import CommitChain.Json.Basic
import CommitChain.Number.Shortest
import CommitChain.Text.Integer
import CommitChain.Text.Quoted

/-!
# Writing JSON text

`Json.render` writes a tree in a `Layout`: what stands between items, whether characters beyond
ASCII are escaped, and whether items stand on lines of their own.
-/

namespace CommitChain.Json

/-- How a tree is laid out. -/
structure Layout where
  /-- Between two items. -/
  itemMark : String
  /-- Between a name and its value. -/
  nameMark : String
  /-- Characters outside ASCII are escaped. -/
  asciiOnly : Bool
  /-- The indentation for each level, if items stand on lines of their own. -/
  indent : Option Nat

namespace Layout

/-- No character more than needed. -/
def compact : Layout := ⟨",", ":", false, none⟩

/-- On one line, with a blank behind each mark. -/
def spaced : Layout := ⟨", ", ": ", true, none⟩

/-- A line for each item. -/
def indented : Layout := ⟨",", ": ", false, some 2⟩

end Layout

/-- The escape of a unit of 16 bits. -/
def unitEscape (n : Nat) : String :=
  "\\u" ++ Text.hexDigits 4 n

/-- One character of a string. -/
def charText (asciiOnly : Bool) (c : Char) : String :=
  if c = '"' then "\\\""
  else if c = '\\' then "\\\\"
  else if c = '\n' then "\\n"
  else if c = '\r' then "\\r"
  else if c = '\t' then "\\t"
  else if c = '\x08' then "\\b"
  else if c = '\x0c' then "\\f"
  else if c.toNat < 0x20 then unitEscape c.toNat
  else if asciiOnly && 0x7F ≤ c.toNat then
    if c.toNat < 0x10000 then unitEscape c.toNat
    else
      let n := c.toNat - 0x10000
      unitEscape (0xD800 + n / 0x400) ++ unitEscape (0xDC00 + n % 0x400)
  else String.singleton c

/-- A string between quotes. -/
def stringText (asciiOnly : Bool) (s : String) : String :=
  "\"" ++ String.join (s.toList.map (charText asciiOnly)) ++ "\""

/-- The text of a number with a fraction. -/
def floatText : Binary64 → String
  | .nan => "NaN"
  | .infinite negative => if negative then "-Infinity" else "Infinity"
  | x => x.text

/-- The texts with `mark` between any two. -/
def joined (mark : String) : List String → String
  | [] => ""
  | [s] => s
  | s :: r => s ++ mark ++ joined mark r

/-- What stands in front of an item inside `level` arrays and objects. -/
def Layout.lineStart (layout : Layout) (level : Nat) : String :=
  match layout.indent with
  | none => ""
  | some k => "\n" ++ String.ofList (List.replicate (k * level) ' ')

/-- Texts between two brackets. -/
def Layout.enclosed (layout : Layout) (level : Nat) (opening closing : String)
    (texts : List String) : String :=
  if texts.isEmpty then opening ++ closing
  else
    opening ++ layout.lineStart (level + 1)
      ++ joined (layout.itemMark ++ layout.lineStart (level + 1)) texts
      ++ layout.lineStart level ++ closing

mutual

/-- The text of a tree inside `level` arrays and objects. -/
def renderAt (layout : Layout) (level : Nat) : Json → String
  | null => "null"
  | bool b => if b then "true" else "false"
  | int n => Text.integerDigits n
  | float x => floatText x
  | str s => stringText layout.asciiOnly s
  | arr items => layout.enclosed level "[" "]" (renderItems layout (level + 1) items)
  | obj members =>
    layout.enclosed level "\x7b" "\x7d" (renderMembers layout (level + 1) members)

def renderItems (layout : Layout) (level : Nat) : List Json → List String
  | [] => []
  | x :: xs => renderAt layout level x :: renderItems layout level xs

def renderMembers (layout : Layout) (level : Nat) : List (String × Json) → List String
  | [] => []
  | (k, x) :: xs =>
    (stringText layout.asciiOnly k ++ layout.nameMark ++ renderAt layout level x)
      :: renderMembers layout level xs

end

/-- The text of a tree. -/
def render (layout : Layout) (x : Json) : String :=
  renderAt layout 0 x

end CommitChain.Json
