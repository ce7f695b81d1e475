import CommitChain.Json.Canonical
import CommitChain.Language.FreeVariables

/-!
# Values as JSON trees

`encode` writes a value as a tree that does not depend on how its environments happen to be laid
out: the environment of a function keeps the free variables of its code alone, in the order of their
names, and a chain of pairs becomes one list and its end.  `decode` reads such trees back.

`encodeStrict` is what commitments hash.  It refuses suspended computations, which have no form of
their own, with the path to the first one.
-/

namespace CommitChain

/-- Why a value has no encoding, or a tree stands for no value. -/
inductive EncodingFault
  | suspended (path : String)
  | tooDeepToEncode (path : String)
  | tooDeepToDecode (path : String)
  | malformed (what path : String)
  | unknownTag (tag path : String)
  | nonCanonicalTail (path : String)
  | noEnvironment (path : String)
  | noParameters (path : String)
  | canonical (fault : Json.CanonicalFault)
  deriving DecidableEq, Repr

def EncodingFault.message : EncodingFault → String
  | suspended path =>
    s!"Suspended computation at {path} has no canonical encoding; force it first"
  | tooDeepToEncode path => s!"Value at {path} is nested too deeply to encode"
  | tooDeepToDecode path => s!"Value at {path} is nested too deeply to decode"
  | malformed what path => s!"Malformed {what} at {path}"
  | unknownTag tag path => s!"Unknown value tag '{tag}' at {path}"
  | nonCanonicalTail path => s!"Non-canonical cons tail at {path}"
  | noEnvironment path => s!"Environment at {path} must be an object"
  | noParameters path => s!"Parameters at {path} must be a list of names"
  | canonical fault => fault.message

namespace Value

/-! ## Encoding -/

/-- The tree of a chain with these items and this end; a chain without items is its end. -/
def pack : List Json × Json → Json
  | ([], last) => last
  | (items, last) => .arr [.str "cons", .arr items, last]

/-- The tree of a list of names. -/
def namesJson (names : List String) : Json :=
  .arr (names.map .str)

mutual

/-- The trees of the items of a chain and of its end. -/
def parts : Value → List Json × Json
  | num n => ([], .arr [.str "num", .int n])
  | sym name => ([], .arr [.str "sym", .str name])
  | str s => ([], .arr [.str "str", .str s])
  | nil => ([], .arr [.str "nil"])
  | cons a b => (pack (parts a) :: (parts b).1, (parts b).2)
  | closure params body env =>
    ([], .arr [.str "fun", namesJson params, pack (parts body),
      .obj (scopeParts (freeInFunction params body) env)])
  | fix name params body env =>
    ([], .arr [.str "fix", .str name, namesJson params, pack (parts body),
      .obj (scopeParts (freeInFix name params body) env)])
  | thunk expr env =>
    ([], .arr [.str "thunk", pack (parts expr), .obj (scopeParts (freeVariables expr) env)])

/-- The members for the bindings of the names in `keep`. -/
def scopeParts (keep : List String) : List (String × Value) → List (String × Json)
  | [] => []
  | (name, v) :: env =>
    if keep.contains name then (name, pack (parts v)) :: scopeParts keep env
    else scopeParts keep env

end

/-- The tree of a value, with suspended computations. -/
def encode (v : Value) : Json :=
  pack (parts v)

/-- The object for the bindings of the names in `keep`. -/
def encodeScope (keep : List String) (env : Env) : Json :=
  .obj (scopeParts keep env)

mutual

/-- The path to the first suspended computation of a value.  For the rest of a chain `index` is the
number of items in front of it. -/
def suspended? (path : String) (index : Option Nat) : Value → Option String
  | cons a b =>
    let i := index.getD 0
    match suspended? s!"{path}[{i}]" none a with
    | some found => some found
    | none => suspended? path (some (i + 1)) b
  | closure params body env =>
    let path := if index.isSome then path ++ ".tail" else path
    match suspended? (path ++ ".body") none body with
    | some found => some found
    | none => suspendedInScope? path (freeInFunction params body) env
  | fix name params body env =>
    let path := if index.isSome then path ++ ".tail" else path
    match suspended? (path ++ ".body") none body with
    | some found => some found
    | none => suspendedInScope? path (freeInFix name params body) env
  | thunk .. => some (if index.isSome then path ++ ".tail" else path)
  | num _ | sym _ | str _ | nil => none

def suspendedInScope? (path : String) (keep : List String) :
    List (String × Value) → Option String
  | [] => none
  | (name, v) :: env =>
    if keep.contains name then
      match suspended? (path ++ ".env." ++ name) none v with
      | some found => some found
      | none => suspendedInScope? path keep env
    else suspendedInScope? path keep env

end

/-- The tree of a value within the limit on nesting. -/
def encode? (v : Value) : Except EncodingFault Json :=
  if Json.nestingLimit < (encode v).depth then .error (.tooDeepToEncode "$") else .ok (encode v)

/-- The tree of a value without suspended computations. -/
def encodeStrict (v : Value) : Except EncodingFault Json :=
  if Json.nestingLimit < (encode v).depth then .error (.tooDeepToEncode "$")
  else
    match suspended? "$" none v with
    | some path => .error (.suspended path)
    | none => .ok (encode v)

/-! ## Decoding -/

/-- The names of a parameter list. -/
def decodeParams (path : String) : Json → Except EncodingFault (List String)
  | .arr names =>
    match names.mapM fun | .str s => some s | _ => none with
    | some names => .ok names
    | none => .error (.noParameters path)
  | _ => .error (.noParameters path)

mutual

/-- The value that a tree stands for. -/
def decodeAt (path : String) : Json → Except EncodingFault Value
  | .arr [.str "num", .int n] => .ok (num n)
  | .arr [.str "sym", .str name] => .ok (symbol name)
  | .arr [.str "str", .str s] => .ok (text s)
  | .arr [.str "nil"] => .ok nil
  | .arr [.str "cons", .arr (x :: xs), last] => do
    let first ← decodeAt s!"{path}[0]" x
    let others ← decodeItems path 1 xs
    let last ← decodeAt (path ++ ".tail") last
    if last.isCons then .error (.nonCanonicalTail path) else .ok (chain (first :: others) last)
  | .arr [.str "fun", params, body, env] => do
    let params ← decodeParams path params
    let body ← decodeAt (path ++ ".body") body
    let env ← decodeScope (path ++ ".env") env
    .ok (function params body env)
  | .arr [.str "fix", .str name, params, body, env] => do
    let params ← decodeParams path params
    let body ← decodeAt (path ++ ".body") body
    let env ← decodeScope (path ++ ".env") env
    .ok (recursive name params body env)
  | .arr (.str tag :: _) =>
    if ["num", "sym", "str", "nil", "cons", "fun", "fix"].contains tag then
      .error (.malformed tag path)
    else .error (.unknownTag tag path)
  | _ => .error (.malformed "value" path)

/-- The values of the items of a chain from number `index` on. -/
def decodeItems (path : String) (index : Nat) : List Json → Except EncodingFault (List Value)
  | [] => .ok []
  | x :: xs => do
    let v ← decodeAt s!"{path}[{index}]" x
    let vs ← decodeItems path (index + 1) xs
    .ok (v :: vs)

/-- The environment that an object stands for. -/
def decodeScope (path : String) : Json → Except EncodingFault Env
  | .obj members => do
    let pairs ← decodeMembers path members
    .ok (Env.ofPairs pairs)
  | _ => .error (.noEnvironment path)

def decodeMembers (path : String) :
    List (String × Json) → Except EncodingFault (List (String × Value))
  | [] => .ok []
  | (name, x) :: xs => do
    let v ← decodeAt (path ++ "." ++ name) x
    let vs ← decodeMembers path xs
    .ok ((name, v) :: vs)

end

/-- The value that a tree stands for; `path` names the tree in messages. -/
def decodeFrom (path : String) (x : Json) : Except EncodingFault Value :=
  if Json.nestingLimit < x.depth then .error (.tooDeepToDecode path) else decodeAt path x

/-- The value that a tree stands for. -/
def decode (x : Json) : Except EncodingFault Value :=
  decodeFrom "$" x

end Value

end CommitChain
