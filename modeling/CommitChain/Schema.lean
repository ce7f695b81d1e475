import CommitChain.Disk.Files
import CommitChain.Language.Builtin
import CommitChain.Proof.Artifact
import CommitChain.Config

/-!
# Schemas

The shapes of the files that others may read, as JSON Schema.  `generate` writes one file for each
into the directory `schemas`.
-/

namespace CommitChain.Schema

/-- The schema of a part of any shape. -/
def anything (title : String) : Json :=
  .obj [("title", .str title)]

def text (title : String) : Json :=
  .obj [("title", .str title), ("type", .str "string")]

def textOr (default title : String) : Json :=
  .obj [("default", .str default), ("title", .str title), ("type", .str "string")]

def integer (least : Nat) (title : String) : Json :=
  .obj [("minimum", .int least), ("title", .str title), ("type", .str "integer")]

def integerOr (default least : Nat) (title : String) : Json :=
  .obj [("default", .int default), ("minimum", .int least), ("title", .str title),
    ("type", .str "integer")]

/-- A reference to a named shape. -/
def reference (name : String) : Json :=
  .obj [("$ref", .str ("#/$defs/" ++ name))]

def array (items : Json) (title : String) : Json :=
  .obj [("items", items), ("title", .str title), ("type", .str "array")]

/-- The members of an object without others. -/
def object (title description : String) (properties : List (String × Json))
    (required : List String) : List (String × Json) :=
  [("additionalProperties", .bool false), ("description", .str description),
    ("properties", .obj properties)]
  ++ (if required.isEmpty then [] else [("required", .arr (required.map .str))])
  ++ [("title", .str title), ("type", .str "object")]

def claim : Json :=
  .obj (object "Claim"
    ("Public statement proven about one chain step.\n\n\"Applying the function committed under "
      ++ "prior to input yields output,\nand the next function is committed under new_head.\"")
    [("prior", text "Prior"), ("input", anything "Input"), ("output", anything "Output"),
      ("new_head", text "New Head")]
    ["prior", "input", "output", "new_head"])

def frame : Json :=
  .obj (object "Frame"
    ("One reduction of the evaluator: machine state digest before and after.\n\n"
      ++ "meta names the reduction family: \"core\" for control flow and\napplication, "
      ++ "or a builtin family (\"arith\", \"cmp\", \"pair\").")
    [("index", integer 0 "Index"), ("input", text "Input"), ("output", text "Output"),
      ("meta", textOr Family.core.name "Meta")]
    ["index", "input", "output"])

def trace : Json :=
  .obj (object "Trace"
    ("Machine-checkable record of one evaluation.\n\n"
      ++ "result is the canonical encoding of the value the evaluation halted with.")
    [("frames", array (reference "Frame") "Frames"), ("result", anything "Result")]
    ["frames", "result"])

def proofArtifact : Json :=
  .obj (("$defs", .obj [("Claim", claim)]) ::
    object "ProofArtifact" "Parsed content of proof artifact bytes."
      [("format", textOr ProofArtifact.currentFormat "Format"),
        ("version", textOr ProofArtifact.currentVersion "Version"),
        ("backend", text "Backend"), ("params", text "Params"), ("claim", reference "Claim"),
        ("num_steps", integer 1 "Num Steps"), ("num_frames", integer 1 "Num Frames"),
        ("z0", text "Z0"), ("zi", text "Zi"), ("accumulator", text "Accumulator"),
        ("seal", text "Seal")]
      ["backend", "params", "claim", "num_steps", "num_frames", "z0", "zi", "accumulator", "seal"])

def stepRecord : Json :=
  .obj (("$defs", .obj [("Frame", frame), ("Trace", trace)]) ::
    object "StepRecord" "Result of one chain() invocation; consumed by the proof manager."
      [("index", integer 1 "Index"), ("prior", text "Prior"), ("input", anything "Input"),
        ("output", anything "Output"), ("new_head", text "New Head"), ("trace", reference "Trace")]
      ["index", "prior", "input", "output", "new_head", "trace"])

def config : Json :=
  let timeout : Json := .obj
    [("anyOf", .arr [.obj [("exclusiveMinimum", .int 0), ("type", .str "number")],
      .obj [("type", .str "null")]]),
      ("default", .null), ("title", .str "Prove Timeout")]
  let folding : Json := .obj
    [("default", .str Config.default.folding.name),
      ("enum", .arr [.str FoldingKind.single.name, .str FoldingKind.several.name]),
      ("title", .str "Folding"), ("type", .str "string")]
  .obj (object "EngineConfig"
    "Tunables shared by the evaluator, chain controller and proof manager."
    [("step_limit", integerOr Config.default.stepLimit 1 "Step Limit"),
      ("reduction_count", integerOr Config.default.portion 1 "Reduction Count"),
      ("folding", folding), ("prove_timeout", timeout),
      ("max_proof_frames", integerOr Config.default.maxProofFrames 1 "Max Proof Frames")]
    [])

/-- The schemas with the names of their files. -/
def all : List (String × Json) :=
  [("proof_artifact.schema.json", proofArtifact), ("step_record.schema.json", stepRecord),
    ("engine_config.schema.json", config)]

def directory : Path := ["schemas"]

/-- Writes the files and says which. -/
def generateAll : List (String × Json) → Action Disk String
  | [] => return "\nSchema generation complete!\n"
  | (name, schema) :: rest => do
    let path := directory ++ [name]
    Disk.saveBytes path (schema.render .indented).toUTF8
    let others ← generateAll rest
    return "Generated: " ++ Path.text path ++ "\n" ++ others

def generate : Action Disk String :=
  generateAll all

end CommitChain.Schema
