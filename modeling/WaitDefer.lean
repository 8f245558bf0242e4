import WaitDefer.Token.Lexer
import WaitDefer.Tree
import WaitDefer.Tree.Walk
import WaitDefer.Tree.Ids
import WaitDefer.Grammar.Precedence
import WaitDefer.Tree.Printer
import WaitDefer.Grammar.Cursor
import WaitDefer.Grammar.Statement
import WaitDefer.Json.Writer
import WaitDefer.Json.Reader
import WaitDefer.Tree.Encode
import WaitDefer.Tree.Decode
import WaitDefer.Marks
import WaitDefer.Config
import WaitDefer.Marking
import WaitDefer.Hoisting
import WaitDefer.Rotation
import WaitDefer.Rotation.Check
import WaitDefer.Compile
import WaitDefer.Report
import WaitDefer.Config.Document
import WaitDefer.Proofs.Marking.Ready
import WaitDefer.Proofs.Rotation.Clean
import WaitDefer.Proofs.Rotation.Weaving
import WaitDefer.Proofs.Compile.Session
import WaitDefer.Proofs.Compile.Source
import WaitDefer.Proofs.Rotation.Taking
import WaitDefer.Proofs.Rotation.Turned
import WaitDefer.Proofs.Rotation.Weighed
import WaitDefer.Proofs.Compile.Weighed
import WaitDefer.Proofs.Compile.Distinct
import WaitDefer.Proofs.Tree.Scopes
import WaitDefer.Proofs.Tree.Around
import WaitDefer.Proofs.Marking.Violations
import WaitDefer.Proofs.Rotation.Scoped
import WaitDefer.Proofs.Compile.Scoped
import WaitDefer.Proofs.Rotation.Bindings
import WaitDefer.Proofs.Rotation.Capture
import WaitDefer.Proofs.Tree.Varied
import WaitDefer.Proofs.Tree.Paired
import WaitDefer.Proofs.Tree.Renaming
import WaitDefer.Proofs.Marking.Varied
import WaitDefer.Proofs.Rotation.Recursive
import WaitDefer.Proofs.Rotation.Varied
import WaitDefer.Proofs.Rotation.VariedUnits
import WaitDefer.Proofs.Compile.Varied
import WaitDefer.Proofs.Compile.Renamed
import WaitDefer.Proofs.Compile.Names
import WaitDefer.Proofs.Rotation.Lost
import WaitDefer.Proofs.Rotation.Inside
import WaitDefer.Proofs.Rotation.Kept
import WaitDefer.Proofs.Rotation.Tails
import WaitDefer.Proofs.Rotation.Placed
import WaitDefer.Proofs.Rotation.Targets
import WaitDefer.Proofs.Rotation.Counters
import WaitDefer.Proofs.Compile.Conserved
import WaitDefer.Proofs.Compile.Desugared
import WaitDefer.Proofs.Grammar.Spelling
import WaitDefer.Proofs.Tree.Shape
import WaitDefer.Proofs.Grammar.Printable
import WaitDefer.Proofs.Grammar.Layout
import WaitDefer.Proofs.Grammar.Keeping
import WaitDefer.Proofs.Grammar.Facing
import WaitDefer.Proofs.Grammar.Operators
import WaitDefer.Proofs.Grammar.Sentences
import WaitDefer.Proofs.Grammar.RoundTrip
import WaitDefer.Proofs.Grammar.Reprint
import WaitDefer.Proofs.Grammar.Progress
import WaitDefer.Proofs.Grammar.Rounds
import WaitDefer.Proofs.Grammar.Layers
import WaitDefer.Proofs.Grammar.Copied
import WaitDefer.Proofs.Grammar.Heights
import WaitDefer.Proofs.Rotation.Checked
import WaitDefer.Proofs.Rotation.Declarations
import WaitDefer.Proofs.Tree.Placed
import WaitDefer.Proofs.Compile.Units
import WaitDefer.Proofs.Compile.Independent
import WaitDefer.Proofs.Source.Places
import WaitDefer.Proofs.Token.Fronts
import WaitDefer.Proofs.Token.Tiling
import WaitDefer.Proofs.Tree.Spots
import WaitDefer.Proofs.Grammar.Laid
import WaitDefer.Proofs.Grammar.Laying
import WaitDefer.Proofs.Grammar.Overlay
import WaitDefer.Proofs.Report.Labels
import WaitDefer.Proofs.Report.Syntax
import WaitDefer.Proofs.Report.Rules
import WaitDefer.Proofs.Report.Session
import WaitDefer.Proofs.Compile.Fresh
import WaitDefer.Proofs.Grammar.Nesting
import WaitDefer.Proofs.Json.Text
import WaitDefer.Proofs.Json.Lossless
import WaitDefer.Proofs.Behaviour.Threads
import WaitDefer.Proofs.Behaviour.Kept
import WaitDefer.Proofs.Behaviour.Leads
import WaitDefer.Proofs.Behaviour.Simulation
import WaitDefer.Proofs.Behaviour.Answers
import WaitDefer.Proofs.Behaviour.Preserved
