/-!
# Paths

A path is the list of names that lead from the working directory to a file.  Empty names and `.` do
not count, and the empty path is the working directory itself, written `.`.
-/

namespace CommitChain

/-- The names on the way to a file. -/
abbrev Path := List String

namespace Path

/-- Splits a text at slashes. -/
def splitChars (before : List Char) : List Char → List String
  | [] => [String.ofList before.reverse]
  | c :: cs =>
    if c = '/' then String.ofList before.reverse :: splitChars [] cs
    else splitChars (c :: before) cs

/-- The path that a text names; one that starts with a slash keeps it as its first name. -/
def ofText (s : String) : Path :=
  let names := (splitChars [] s.toList).filter fun name => name ≠ "" && name ≠ "."
  if s.toList.head? = some '/' then "/" :: names else names

/-- The text of a path. -/
def text (p : Path) : String :=
  match p with
  | [] => "."
  | "/" :: names => "/" ++ String.intercalate "/" names
  | names => String.intercalate "/" names

/-- The name of a file without what follows its last dot, unless the dot is its first or last
character. -/
def stem (name : String) : String :=
  let cs := name.toList
  let suffixSize := (cs.reverse.takeWhile (· ≠ '.')).length
  if 0 < suffixSize ∧ suffixSize + 1 < cs.length then
    String.ofList (cs.take (cs.length - suffixSize - 1))
  else name

/-- Whether a name ends in `.json`. -/
def isJsonName (name : String) : Bool :=
  name.toList.drop (name.length - 5) = ".json".toList

end Path

end CommitChain
