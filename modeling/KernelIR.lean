import KernelIR.Binary64
import KernelIR.Binary64.Rounding
import KernelIR.Binary64.Shortest
import KernelIR.CommandLine
import KernelIR.Constant
import KernelIR.Context.Basic
import KernelIR.Context.Builder
import KernelIR.Context.Edit
import KernelIR.Context.Misuse
import KernelIR.Decimal
import KernelIR.Kernel
import KernelIR.Kind
import KernelIR.Main
import KernelIR.Numeral
import KernelIR.Operation
import KernelIR.Pipeline
import KernelIR.Proofs.Accounting
import KernelIR.Proofs.Binary64
import KernelIR.Proofs.Canonical
import KernelIR.Proofs.Completeness
import KernelIR.Proofs.Context.Intact
import KernelIR.Proofs.Context.Parts
import KernelIR.Proofs.Context.Uses
import KernelIR.Proofs.Execution
import KernelIR.Proofs.Execution.Frame
import KernelIR.Proofs.Execution.Rewrite
import KernelIR.Proofs.Execution.Simulation
import KernelIR.Proofs.Finished
import KernelIR.Proofs.Fixpoint
import KernelIR.Proofs.Idempotence
import KernelIR.Proofs.Independence
import KernelIR.Proofs.Limits
import KernelIR.Proofs.Lockstep
import KernelIR.Proofs.Meaning
import KernelIR.Proofs.Naming
import KernelIR.Proofs.Overwriting
import KernelIR.Proofs.Rejection
import KernelIR.Proofs.Removal
import KernelIR.Proofs.RoundTrip
import KernelIR.Proofs.Safety
import KernelIR.Proofs.Slot.Flags
import KernelIR.Proofs.Slot.Renaming
import KernelIR.Proofs.Slot.Rewrite
import KernelIR.Proofs.Slot.State
import KernelIR.Proofs.Slot.Tracking
import KernelIR.Proofs.Slot.Unread
import KernelIR.Proofs.Slot.Value
import KernelIR.Proofs.Slot.Walk
import KernelIR.Proofs.Sweep
import KernelIR.Proofs.Text.Build
import KernelIR.Proofs.Text.Literal
import KernelIR.Proofs.Text.Numbering
import KernelIR.Proofs.Text.Reading
import KernelIR.Proofs.Text.Rebuild
import KernelIR.Proofs.Text.Renaming
import KernelIR.Proofs.Text.Renumbering
import KernelIR.Proofs.Text.Resolve
import KernelIR.Proofs.Text.Scan
import KernelIR.Proofs.Text.Statement
import KernelIR.Proofs.Text.Written
import KernelIR.Proofs.Tree.Edit
import KernelIR.Proofs.Tree.Likeness
import KernelIR.Proofs.Tree.Placement
import KernelIR.Proofs.Tree.Scope
import KernelIR.Proofs.Tree.Succession
import KernelIR.Proofs.Types
import KernelIR.Proofs.Verdict
import KernelIR.Proofs.Verifier
import KernelIR.Ref
import KernelIR.Slot.Event
import KernelIR.Slot.Optimize
import KernelIR.Slot.Scan
import KernelIR.Slot.State
import KernelIR.Source
import KernelIR.Text.Draft
import KernelIR.Text.Grammar
import KernelIR.Text.Literal
import KernelIR.Text.Parse
import KernelIR.Text.Print
import KernelIR.Text.Resolve
import KernelIR.Text.Scan
import KernelIR.Tree
import KernelIR.Tree.Walk
import KernelIR.ValueType
import KernelIR.Verifier
import KernelIR.Proofs.Context.Substitution
import KernelIR.Proofs.Erasure
import KernelIR.Proofs.Constants
import KernelIR.Proofs.Text.Progress
import KernelIR.Proofs.Agreement
import KernelIR.Proofs.Containment
import KernelIR.Proofs.Text.Visibility
import KernelIR.Proofs.Resolution
import KernelIR.Proofs.Text.Lexeme
import KernelIR.Proofs.Text.Piece
import KernelIR.Proofs.Text.Spelling
import KernelIR.Proofs.Text.Spelled
import KernelIR.Proofs.Layout
import KernelIR.Proofs.Text.Token
import KernelIR.Proofs.Text.Numerals
import KernelIR.Proofs.Numerals
import KernelIR.Proofs.Tree.Unfolding
import KernelIR.Proofs.Traversal
