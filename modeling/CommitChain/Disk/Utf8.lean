/-!
# Text files

A text file holds UTF-8.  It is read in blocks: the lines that end in a block in front of the first
bad byte can be had, those behind cannot.  A carriage return, alone or in front of a newline, ends a
line too.
-/

namespace CommitChain.Text

/-- The number of bytes that are read at a time. -/
def blockSize : Nat := 8192

/-- The number of bytes in front of the first that belongs to no character. -/
def validSize (bytes : ByteArray) : Nat → Nat → Nat
  | 0, i => i
  | fuel + 1, i =>
    if i < bytes.size then
      match bytes.utf8DecodeChar? i with
      | some c => validSize bytes fuel (i + c.utf8Size)
      | none => i
    else i

/-- Turns every end of line into a newline. -/
def unifyNewlines : List Char → List Char
  | [] => []
  | '\r' :: '\n' :: cs => '\n' :: unifyNewlines cs
  | '\r' :: cs => '\n' :: unifyNewlines cs
  | c :: cs => c :: unifyNewlines cs

/-- The lines with their newlines; the last one may lack it.  `before` is the start of the first
one, its last character first. -/
def linesFrom (before : List Char) : List Char → List String
  | [] => if before.isEmpty then [] else [String.ofList before.reverse]
  | c :: cs =>
    if c = '\n' then String.ofList (c :: before).reverse :: linesFrom [] cs
    else linesFrom (c :: before) cs

/-- The lines of a text. -/
def lines (s : String) : List String :=
  linesFrom [] (unifyNewlines s.toList)

/-- What can be read of a text file: lines, and whether a bad byte stands behind them. -/
structure Lines where
  good : List String
  broken : Bool

/-- The lines of a file. -/
def readLines (bytes : ByteArray) : Lines :=
  match String.fromUTF8? bytes with
  | some s => ⟨lines s, false⟩
  | none =>
    let size := validSize bytes bytes.size 0
    let start := bytes.extract 0 (size / blockSize * blockSize)
    let whole := start.extract 0 (validSize start start.size 0)
    let read := lines ((String.fromUTF8? whole).getD "")
    ⟨read.filter fun line => line.toList.getLast? = some '\n', true⟩

end CommitChain.Text
