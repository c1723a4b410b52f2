import Treewalk.Position
import Treewalk.Diagnostic
import Treewalk.Text.Alphabetic
import Treewalk.Text.Escape
import Treewalk.Text.Visible
import Treewalk.Token
import Treewalk.Lexeme
import Treewalk.Token.Scan
import Treewalk.Tree
import Treewalk.Grammar.Cursor
import Treewalk.Grammar.Expression
import Treewalk.Grammar.Statement
import Treewalk.Grammar.Program
import Treewalk.Number.Binary32
import Treewalk.Number.Decimal
import Treewalk.Number.Reading
import Treewalk.Ty
import Treewalk.Value
import Treewalk.Heap
import Treewalk.Table
import Treewalk.Frame
import Treewalk.Operator
import Treewalk.Symbol
import Treewalk.Builtin
import Treewalk.Fault
import Treewalk.Machine
import Treewalk.Eval.Place
import Treewalk.Eval.Expression
import Treewalk.Eval.Statement
import Treewalk.Eval.Call
import Treewalk.Session
import Treewalk.Report
import Treewalk.JsonValue
import Treewalk.Report.View
import Treewalk.Outline
import Treewalk.CommandLine.Options
import Treewalk.CommandLine
import Treewalk.Main
import Treewalk.Proofs.Balance
import Treewalk.Proofs.Discipline
import Treewalk.Proofs.Jump
import Treewalk.Proofs.Confined
import Treewalk.Proofs.Reading
import Treewalk.Proofs.Recorded
import Treewalk.Proofs.Formed
import Treewalk.Proofs.Isolation
import Treewalk.Proofs.Unfolding
import Treewalk.Proofs.Limits
import Treewalk.Proofs.Termination
import Treewalk.Proofs.RoundTrip
import Treewalk.Proofs.Diagnosis
import Treewalk.Proofs.Steady
import Treewalk.Proofs.Forgetting
import Treewalk.Proofs.Pointers
import Treewalk.Proofs.KeptKinds
import Treewalk.Proofs.Pieces
import Treewalk.Proofs.Coverage
import Treewalk.Proofs.Forward.Motion
import Treewalk.Proofs.Forward.Skipping
import Treewalk.Proofs.Derivation
import Treewalk.Proofs.Recovery
import Treewalk.Proofs.Lines
import Treewalk.Proofs.Respelling
import Treewalk.Proofs.Entries
import Treewalk.Proofs.Hoisting
import Treewalk.Proofs.LineEnds
import Treewalk.Proofs.Proper.Parsed
import Treewalk.Proofs.Failure
import Treewalk.Proofs.Writing
import Treewalk.Proofs.Sizes
import Treewalk.Proofs.Copying
import Treewalk.Proofs.Chains
import Treewalk.Proofs.Literals
import Treewalk.Proofs.Owners
import Treewalk.Proofs.Register
import Treewalk.Proofs.Glyphs
import Treewalk.Proofs.Printed
import Treewalk.Proofs.TextOrder
import Treewalk.Proofs.Division
import Treewalk.Proofs.TextAlgebra
import Treewalk.Proofs.Transient
