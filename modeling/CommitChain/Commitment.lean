import CommitChain.Json.Digest
import CommitChain.Store
import CommitChain.Value.Encoding

/-!
# Committing to values

The commitment of a value is the digest of its encoding.  `commit` stores a value under its
commitment, and `fetch` gets it back.
-/

namespace CommitChain

/-- A value with the encoding under which it was stored. -/
structure Payload where
  value : Value
  encoding : Json

/-- The commitment of an encoding. -/
def commitmentOf (encoding : Json) : Except EncodingFault Commitment :=
  match encoding.digest Hash.commitDomain with
  | .ok c => .ok c
  | .error fault => .error (.canonical fault)

namespace Value

/-- The commitment of a value. -/
def commitment (v : Value) : Except EncodingFault Commitment :=
  v.encodeStrict.bind commitmentOf

end Value

/-- Payloads are the same if the canonical texts of their encodings are. -/
def Payload.same (a b : Payload) : Except Failure Bool := do
  let s ← orFail .canonical a.encoding.canonical
  let t ← orFail .canonical b.encoding.canonical
  .ok (s == t)

/-- The payloads under their commitments. -/
abbrev Payloads (ω : Type) := Store ω Commitment Payload

namespace Payloads

variable {ω : Type}

/-- Stores a payload under a commitment and tells whether it is new. -/
def put (c : Commitment) (p : Payload) : Action (Payloads ω × ω) Bool :=
  Store.put Commitment.text Payload.same c p

/-- Stores a value under its commitment. -/
def commit (v : Value) : Action (Payloads ω × ω) Commitment := do
  let encoding ← Action.of (orFail .serialization v.encodeStrict)
  let c ← Action.of (orFail .serialization (commitmentOf encoding))
  let _ ← put c ⟨v, encoding⟩
  return c

/-- The payload under a commitment. -/
def fetch (s : Payloads ω) (c : Commitment) : Except Failure Payload :=
  match s.find? c with
  | some p => .ok p
  | none => .error (.unknownCommitment c)

/-- Stores the value that an encoding stands for; it is encoded anew. -/
def restore (encoding : Json) : Action (Payloads ω × ω) Commitment := do
  let v ← Action.of (orFail .serialization (Value.decode encoding))
  commit v

end Payloads

end CommitChain
