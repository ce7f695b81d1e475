import CommitChain.Failure
import CommitChain.Trace

/-!
# Folding

A proof takes the frames of a trace in portions.  Each portion runs on one circuit: with a single
circuit all frames do; with several, the core has circuit zero and each special family one of its
own.  On circuit zero a portion has a fixed number of frames and elsewhere one; a portion that comes
out short is filled up with frames that lead from its last state to the same state.
-/

namespace CommitChain

open CommitChain.Hash

/-- One circuit for all families, or one for each. -/
inductive FoldingKind
  | single
  | several
  deriving DecidableEq, Repr

namespace FoldingKind

def name : FoldingKind → String
  | single => "ivc"
  | several => "nivc"

def ofName? : String → Option FoldingKind
  | "ivc" => some single
  | "nivc" => some several
  | _ => none

end FoldingKind

/-- How frames are distributed; `portion` is the number of frames of a portion on circuit zero. -/
structure Folding where
  kind : FoldingKind := .several
  portion : Nat := 10
  portion_pos : 0 < portion := by decide

namespace Folding

def ofParts (kind : String) (portion : Int) : Except Refusal Folding :=
  match FoldingKind.ofName? kind with
  | none => .error (.folding kind)
  | some kind =>
    if h : 0 < portion.toNat then .ok ⟨kind, portion.toNat, h⟩ else .error .reductionCount

/-- The circuit of the frames of a family. -/
def circuit (f : Folding) (family : String) : Except ProvingFault Nat :=
  match f.kind with
  | .single => .ok 0
  | .several =>
    if family = Family.core.name then .ok 0
    else
      match Family.special.findIdx? fun s => s.name = family with
      | some i => .ok (i + 1)
      | none => .error (.noCircuit family)

def circuitCount (f : Folding) : Nat :=
  match f.kind with
  | .single => 1
  | .several => Family.special.length + 1

end Folding

/-- A portion of frames for one circuit, and the circuit of the portion behind it. -/
structure Portion where
  circuit : Nat
  first : Frame
  others : List Frame
  next : Nat

namespace Portion

def frames (p : Portion) : List Frame :=
  p.first :: p.others

def last (p : Portion) : Frame :=
  p.others.getLast?.getD p.first

def input (p : Portion) : Digest :=
  p.first.input

def output (p : Portion) : Digest :=
  p.last.output

/-- What is hashed of a portion. -/
def toJson (p : Portion) : Json :=
  .obj [("circuit", .int p.circuit), ("next", .int p.next),
    ("frames", .arr (p.frames.map fun f => .arr [.str f.input.hex, .str f.output.hex]))]

end Portion

namespace Folding

/-- Neighbouring frames on the same circuit. -/
def groups : List (Nat × Frame) → List (Nat × List Frame)
  | [] => []
  | (c, f) :: rest =>
    match groups rest with
    | (d, fs) :: gs => if c = d then (c, f :: fs) :: gs else (c, [f]) :: (d, fs) :: gs
    | [] => [(c, [f])]

/-- Cuts frames into pieces of a size; the last one may be shorter. -/
def pieces (size : Nat) : Nat → List Frame → List (Frame × List Frame)
  | 0, _ => []
  | _ + 1, [] => []
  | fuel + 1, f :: fs =>
    (f, fs.take (size - 1)) :: pieces size fuel (fs.drop (size - 1))

/-- A frame that leads nowhere. -/
def idle (f : Frame) : Frame :=
  { f with input := f.output }

/-- A portion of a piece, filled up to its size. -/
def fill (size circuit : Nat) (piece : Frame × List Frame) : Portion :=
  let last := piece.2.getLast?.getD piece.1
  ⟨circuit, piece.1, piece.2 ++ List.replicate (size - 1 - piece.2.length) (idle last), 0⟩

/-- Tells each portion the circuit of the one behind it. -/
def linkPortions : List Portion → List Portion
  | [] => []
  | [p] => [p]
  | p :: q :: rest => { p with next := q.circuit } :: linkPortions (q :: rest)

/-- The number of frames of a portion on a circuit. -/
def portionSize (f : Folding) (circuit : Nat) : Nat :=
  if circuit = 0 then f.portion else 1

/-- The portions of the frames of a trace. -/
def portions (f : Folding) (frames : List Frame) : Except ProvingFault (List Portion) := do
  let circuits ← frames.mapM fun frame => f.circuit frame.family
  let parts := (groups (circuits.zip frames)).flatMap fun (circuit, group) =>
    (pieces (f.portionSize circuit) group.length group).map
      (fill (f.portionSize circuit) circuit)
  .ok (linkPortions parts)

end Folding

end CommitChain
