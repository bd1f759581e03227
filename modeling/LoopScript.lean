import LoopScript.Text.Blank
import LoopScript.Text.Lines
import LoopScript.Text.Printable
import LoopScript.Text.Identifier
import LoopScript.Text.DecimalDigit
import LoopScript.Token.Scan
import LoopScript.Program.Parser
import LoopScript.Text.Quoted
import LoopScript.Text.Json
import LoopScript.Decimal.Layout
import LoopScript.Decimal.Reader
import LoopScript.Value
import LoopScript.Value.Order
import LoopScript.Value.Convert
import LoopScript.Scope
import LoopScript.Value.Operators
import LoopScript.Value.Access
import LoopScript.Services
import LoopScript.Machine.Context
import LoopScript.Machine.Core
import LoopScript.Machine.Run
import LoopScript.Traceback
import LoopScript.Farm.Library
import LoopScript.Pacer
import LoopScript.Path
import LoopScript.Surroundings
import LoopScript.Repl
import LoopScript.Options
import LoopScript.Shell
import LoopScript.Main
import LoopScript.Proofs.Execution.Budget
import LoopScript.Proofs.Execution.CallStack
import LoopScript.Proofs.Execution.Reuse
import LoopScript.Proofs.Execution.Verbose
import LoopScript.Proofs.Program.RoundTrip
import LoopScript.Proofs.Token.Layout
import LoopScript.Proofs.Token.Strings
import LoopScript.Proofs.Execution.Failures
import LoopScript.Proofs.Execution.Containment
import LoopScript.Proofs.Execution.Finality
import LoopScript.Proofs.Execution.Instructions
import LoopScript.Proofs.Execution.Lifecycle
import LoopScript.Proofs.Pacer.Bookkeeping
import LoopScript.Proofs.Pacer.Ending
import LoopScript.Proofs.Pacer.Waits
import LoopScript.Proofs.Execution.Interleaving
import LoopScript.Proofs.Program.FrontEnd
import LoopScript.Proofs.Execution.Strays
import LoopScript.Proofs.Execution.Frames
import LoopScript.Proofs.Execution.CallEvents
import LoopScript.Proofs.Token.Blocks
import LoopScript.Proofs.Token.Insertion
import LoopScript.Proofs.Execution.Vocabulary
import LoopScript.Proofs.Program.Beginnings
import LoopScript.Proofs.Services.Globals
import LoopScript.Proofs.Services.Handlers
import LoopScript.Proofs.Services.Independence
import LoopScript.Proofs.Farm.Ledger
import LoopScript.Proofs.Farm.Ripeness
import LoopScript.Proofs.Shell.Session
import LoopScript.Proofs.Decimal.Order
import LoopScript.Proofs.Value.Acyclic
import LoopScript.Proofs.Value.Ordering
import LoopScript.Proofs.Value.Keys
import LoopScript.Proofs.Value.Sameness
import LoopScript.Proofs.Machine.Grounded
import LoopScript.Proofs.Machine.Grounding
import LoopScript.Proofs.Execution.Grounded
import LoopScript.Proofs.Machine.Binding
import LoopScript.Proofs.Machine.ReadBack
import LoopScript.Proofs.Execution.Sameness
import LoopScript.Proofs.Execution.ReadBack
import LoopScript.Proofs.Program.Grouping
import LoopScript.Proofs.Program.Precedence
import LoopScript.Proofs.Machine.Sorting
import LoopScript.Proofs.Machine.SortCalls
import LoopScript.Proofs.Machine.Arguments
import LoopScript.Proofs.Execution.Arguments
import LoopScript.Proofs.Decimal.Exactness
import LoopScript.Proofs.Value.Slots
import LoopScript.Proofs.Machine.Items
import LoopScript.Proofs.Machine.Leads
import LoopScript.Proofs.Machine.Slicing
import LoopScript.Proofs.Machine.Twins
import LoopScript.Proofs.Machine.Looks
import LoopScript.Proofs.Machine.Augmented
import LoopScript.Proofs.Machine.Snapshots
import LoopScript.Proofs.Execution.Environments
