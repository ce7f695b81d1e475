import CommitChain.Hash.Digest
import CommitChain.Json.Basic

/-!
# Traces

A frame records one reduction by the digests of the machine before and after it.  A trace is the row
of frames of one evaluation together with the encoding of its result.
-/

namespace CommitChain

open CommitChain.Hash

/-- One reduction.  `family` names its family; frames from outside may carry any text. -/
structure Frame where
  index : Nat
  input : Digest
  output : Digest
  family : String
  deriving DecidableEq

/-- The frames of one evaluation and the encoding of its result. -/
structure Trace where
  frames : List Frame
  result : Json

/-- Each frame starts from the state in which the one before it ended. -/
def Linked : List Frame → Prop
  | [] => True
  | [_] => True
  | a :: b :: r => a.output = b.input ∧ Linked (b :: r)

end CommitChain
