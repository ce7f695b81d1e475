import CommitChain.Action
import CommitChain.Chain
import CommitChain.CommandLine
import CommitChain.CommandLine.Arguments
import CommitChain.Commitment
import CommitChain.Config
import CommitChain.Disk
import CommitChain.Disk.Files
import CommitChain.Disk.Path
import CommitChain.Disk.Utf8
import CommitChain.Failure
import CommitChain.Hash.Address
import CommitChain.Hash.Base32
import CommitChain.Hash.Digest
import CommitChain.Hash.Sha256
import CommitChain.Json.Basic
import CommitChain.Json.Canonical
import CommitChain.Json.Check
import CommitChain.Json.Digest
import CommitChain.Json.Parser
import CommitChain.Json.Printer
import CommitChain.Keyed
import CommitChain.Language.Builtin
import CommitChain.Language.Form
import CommitChain.Language.FreeVariables
import CommitChain.Machine.Run
import CommitChain.Machine.State
import CommitChain.Machine.Step
import CommitChain.Main
import CommitChain.Number.Binary64
import CommitChain.Number.Reading
import CommitChain.Number.Shortest
import CommitChain.Proof.Artifact
import CommitChain.Proof.Folding
import CommitChain.Proof.HashFold
import CommitChain.Proof.Prover
import CommitChain.Proofs.Action
import CommitChain.Proofs.Chain.Advance
import CommitChain.Proofs.Chain.Evaluated
import CommitChain.Proofs.Chain.Linked
import CommitChain.Proofs.Chain.Sound
import CommitChain.Proofs.Commitment
import CommitChain.Proofs.Json.Canonical
import CommitChain.Proofs.Json.CanonicalForm
import CommitChain.Proofs.Json.Check
import CommitChain.Proofs.Json.RoundTrip
import CommitChain.Proofs.Keyed
import CommitChain.Proofs.Language.FreeVariables
import CommitChain.Proofs.Machine.Agreement
import CommitChain.Proofs.Machine.Faults
import CommitChain.Proofs.Machine.Pruned
import CommitChain.Proofs.Machine.PrunedStep
import CommitChain.Proofs.Machine.Reductions
import CommitChain.Proofs.Machine.Hereditary
import CommitChain.Proofs.Machine.Regular
import CommitChain.Proofs.Outcome
import CommitChain.Proofs.Proof.Artifact
import CommitChain.Proofs.Proof.Folding
import CommitChain.Proofs.Proof.HashFold
import CommitChain.Proofs.Proof.Prover
import CommitChain.Proofs.Reached
import CommitChain.Proofs.Record
import CommitChain.Proofs.Store
import CommitChain.Proofs.Text.Hex
import CommitChain.Proofs.Text.Integer
import CommitChain.Proofs.Text.Utf8
import CommitChain.Proofs.Trace
import CommitChain.Proofs.Value.Encoding
import CommitChain.Proofs.Value.Pruned
import CommitChain.Proofs.Value.Hereditary
import CommitChain.Proofs.Value.Regular
import CommitChain.Reader.Datum
import CommitChain.Reader.Token
import CommitChain.Record
import CommitChain.Schema
import CommitChain.Sentinel
import CommitChain.Session
import CommitChain.Session.Archive
import CommitChain.Session.Audit
import CommitChain.Store
import CommitChain.Text.Blank
import CommitChain.Text.DecimalDigit
import CommitChain.Text.Hex
import CommitChain.Text.Integer
import CommitChain.Text.Normal
import CommitChain.Text.Normal.CombiningClass
import CommitChain.Text.Normal.Decomposition
import CommitChain.Text.Printable
import CommitChain.Text.Quoted
import CommitChain.Trace
import CommitChain.Value
import CommitChain.Value.Encoding
import CommitChain.Value.Printer
import CommitChain.Proofs.Disk
import CommitChain.Proofs.Disk.Files
import CommitChain.Proofs.Json.Lines
import CommitChain.Proofs.Json.Nesting
import CommitChain.Proofs.Reader
import CommitChain.Proofs.Record.Written
import CommitChain.Proofs.Session.Directives
import CommitChain.Proofs.Session.Reopening
import CommitChain.Proofs.Chain.Proven
import CommitChain.Proofs.Text.Base32
import CommitChain.Proofs.Store.Heard
import CommitChain.Proofs.Session.Runs
import CommitChain.Proofs.Session.Mirrored
import CommitChain.Proofs.Session.Torn
import CommitChain.Proofs.Session.Stopping
import CommitChain.Proofs.Session.Interrupted
import CommitChain.Proofs.Session.Durable
import CommitChain.Proofs.Session.Problems
import CommitChain.Proofs.Session.Audited
import CommitChain.Proofs.Chain.Atomic
import CommitChain.Proofs.Session.Changes
import CommitChain.Proofs.Session.Genuine
import CommitChain.Proofs.Session.LostLines
import CommitChain.Proofs.Language.Semantics
import CommitChain.Proofs.Machine.Rules
import CommitChain.Proofs.Machine.Returns
import CommitChain.Proofs.Machine.Meaning
import CommitChain.Proofs.Session.PayloadFiles
import CommitChain.Proofs.Chain.Replay
import CommitChain.Proofs.Session.Live
import CommitChain.Proofs.Session.FailedSteps
import CommitChain.Proofs.Hash.Framed
import CommitChain.Proofs.Json.WellFormed
import CommitChain.Proofs.Json.Equality
import CommitChain.Proofs.Json.Digest
import CommitChain.Proofs.Value.Shape
import CommitChain.Proofs.Record.Valid
import CommitChain.Proofs.Proof.Accepted
import CommitChain.Proofs.Proof.Verified
import CommitChain.Proofs.Proof.Sealed
import CommitChain.Proofs.Proof.Rows
import CommitChain.Proofs.Proof.Accumulated
import CommitChain.Proofs.Language.Source
import CommitChain.Proofs.Machine.Determined
import CommitChain.Proofs.Machine.Closed
import CommitChain.Proofs.Json.Bounded
import CommitChain.Proofs.Proof.Reported
import CommitChain.Proofs.Chain.Coded
import CommitChain.Proofs.Session.InMemory
import CommitChain.Proofs.Machine.Fitting
import CommitChain.Proofs.Machine.Budget
import CommitChain.Proofs.Proof.Partition
import CommitChain.Proofs.Proof.Provable
import CommitChain.Proofs.Json.Reordered
import CommitChain.Proofs.Store.Calls
import CommitChain.Proofs.Value.RoundTrip
import CommitChain.Proofs.Chain.Resuming
import CommitChain.Proofs.Proof.Proving
import CommitChain.Proofs.Proof.Pending
import CommitChain.Proofs.Value.Numbers
import CommitChain.Proofs.Machine.Numbers
import CommitChain.Proofs.Chain.Counter
import CommitChain.Proofs.Reader.Tokens
import CommitChain.Proofs.Reader.Grammar
import CommitChain.Proofs.Reader.Exact
import CommitChain.Proofs.Reader.Printed
import CommitChain.Proofs.Reader.Sequence
import CommitChain.Proofs.Reader.Symbols
import CommitChain.Proofs.Value.Layout
import CommitChain.Proofs.Hash.Domains
import CommitChain.Proofs.Hash.Address
