import ExprMachine.Chunk.Limits
import ExprMachine.Main
import ExprMachine.Token.Description
import ExprMachine.Proofs.Syntax.Climbing
import ExprMachine.Proofs.Syntax.Programs
import ExprMachine.Proofs.Chunk.Lines
import ExprMachine.Proofs.Chunk.Pool
import ExprMachine.Proofs.Chunk.Decoding
import ExprMachine.Proofs.Compile.Postorder
import ExprMachine.Proofs.Compile.Acceptance
import ExprMachine.Proofs.Machine.Interning
import ExprMachine.Proofs.Machine.Values
import ExprMachine.Proofs.Machine.Reading
import ExprMachine.Proofs.Content.Machine
import ExprMachine.Proofs.Content.Handles
import ExprMachine.Proofs.Content.Operators
import ExprMachine.Proofs.Content.Simulation
import ExprMachine.Proofs.Content.History
import ExprMachine.Proofs.Compile.Heights
import ExprMachine.Proofs.Compile.Verified
import ExprMachine.Proofs.Compile.Meaning
import ExprMachine.Proofs.Machine.Actions
import ExprMachine.Proofs.Machine.Atomicity
import ExprMachine.Proofs.Machine.Faults
import ExprMachine.Proofs.Machine.Dispatches
import ExprMachine.Proofs.Compile.Capacity
import ExprMachine.Proofs.Machine.Endurance
import ExprMachine.Proofs.Machine.Widening
import ExprMachine.Proofs.Token.Lexemes
import ExprMachine.Proofs.Token.Splitting
import ExprMachine.Proofs.Syntax.Embedding
import ExprMachine.Proofs.Syntax.Relabelling
import ExprMachine.Proofs.Token.Joined
import ExprMachine.Proofs.Compile.Relabelling
import ExprMachine.Proofs.Compile.Joined
import ExprMachine.Proofs.Compile.InTurn
import ExprMachine.Proofs.Token.Layout
import ExprMachine.Proofs.Compile.Layout
import ExprMachine.Proofs.Source.Lines
import ExprMachine.Proofs.Token.Places
import ExprMachine.Proofs.Compile.Culprits
import ExprMachine.Proofs.Compile.Diagnostics
import ExprMachine.Proofs.Chunk.RoundTrip
import ExprMachine.Proofs.Chunk.Listings
import ExprMachine.Proofs.Machine.Tracing
import ExprMachine.Proofs.Machine.Filling
import ExprMachine.Proofs.Machine.Life
import ExprMachine.Proofs.Source.Reports
import ExprMachine.Proofs.CommandLine.Inspection
import ExprMachine.Proofs.Decimal.Nearest
import ExprMachine.Proofs.Decimal.Closeness
import ExprMachine.Proofs.Decimal.Shortest
import ExprMachine.Proofs.Decimal.Arithmetic
import ExprMachine.Proofs.Json.Numerals
import ExprMachine.Proofs.Json.Gathering
import ExprMachine.Proofs.Json.Scaling
import ExprMachine.Proofs.Json.Rereading
import ExprMachine.Proofs.Json.Accuracy
import ExprMachine.Proofs.Json.Scalars
import ExprMachine.Proofs.Json.Documents
import ExprMachine.Proofs.Chunk.Stored
import ExprMachine.Proofs.Compile.Stored
import ExprMachine.Proofs.Syntax.Prefixes
import ExprMachine.Proofs.Syntax.Unfinished
import ExprMachine.Proofs.Syntax.Recovery
import ExprMachine.Proofs.Compile.Mistakes
import ExprMachine.Proofs.Compile.Failures
import ExprMachine.Proofs.Compile.Columns
import ExprMachine.Proofs.CommandLine.Independence
import ExprMachine.Proofs.Machine.HeapCalls
import ExprMachine.Proofs.Machine.Releases
import ExprMachine.Proofs.Decimal.Order
import ExprMachine.Proofs.Compile.Comparisons
import ExprMachine.Proofs.Compile.Reading
import ExprMachine.Proofs.Compile.Progress
import ExprMachine.Proofs.Calls
import ExprMachine.Proofs.Machine.StackCalls
import ExprMachine.Proofs.Chunk.Writing
import ExprMachine.Proofs.Chunk.Tables
import ExprMachine.Proofs.Chunk.Interning
import ExprMachine.Proofs.Chunk.Margins
import ExprMachine.Proofs.Compile.Listed
import ExprMachine.Proofs.Json.Records
import ExprMachine.Proofs.Settings.Values
import ExprMachine.Proofs.Settings.Layering
import ExprMachine.Proofs.Settings.Objections
import ExprMachine.Proofs.Machine.Sums
