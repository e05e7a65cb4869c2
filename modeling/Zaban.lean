import Zaban.Text.Position
import Zaban.Text.Cursor
import Zaban.Text.Ranges
import Zaban.Text.Hidden
import Zaban.Text.Blank
import Zaban.Text.Joining
import Zaban.Text.Cluster
import Zaban.Text.Erase
import Zaban.Text.Quoted
import Zaban.Text.Utf8
import Zaban.Number.Binary
import Zaban.Number.Remainder
import Zaban.Number.Shortest
import Zaban.Number.Layout
import Zaban.Number.Numeral
import Zaban.Token.Basic
import Zaban.Token.Lexer
import Zaban.Syntax.Operator
import Zaban.Syntax.Node
import Zaban.Syntax.Text
import Zaban.Syntax.ParseError
import Zaban.Syntax.Grammar
import Zaban.Json.Basic
import Zaban.Json.Printer
import Zaban.Json.Numeral
import Zaban.Json.Reader
import Zaban.Syntax.Stored
import Zaban.Eval.Value
import Zaban.Eval.Store
import Zaban.Eval.World
import Zaban.Eval.Arithmetic
import Zaban.Eval.Semantics
import Zaban.Eval.Natives
import Zaban.Eval.Run
import Zaban.Host.Path
import Zaban.Host.Directory
import Zaban.Host.File
import Zaban.Host.Repl
import Zaban.Host.CommandLine
import Zaban.Main
import Zaban.Proofs.Grammar.Derivation
import Zaban.Proofs.Grammar.Atoms
import Zaban.Proofs.Grammar.Complete
import Zaban.Proofs.Eval.Frames
import Zaban.Proofs.Eval.Lockstep
import Zaban.Proofs.Grammar.Recognition
import Zaban.Proofs.Eval.Locality
import Zaban.Proofs.Eval.Addressed
import Zaban.Proofs.Eval.Chains
import Zaban.Proofs.Eval.Addressing
import Zaban.Proofs.Token.Vocabulary
import Zaban.Proofs.Token.Words
import Zaban.Proofs.Token.Decomposition
import Zaban.Proofs.Eval.CallDepth
import Zaban.Proofs.Grammar.Readers
import Zaban.Proofs.Grammar.LookAhead
import Zaban.Proofs.Token.Order
import Zaban.Proofs.Grammar.EarliestError
import Zaban.Proofs.Json.Spelling
import Zaban.Proofs.Json.Reading
import Zaban.Proofs.Json.Numbers
import Zaban.Proofs.Json.Writing
import Zaban.Proofs.Syntax.Stored
import Zaban.Proofs.Host.Persistence
import Zaban.Proofs.Token.Spacing
import Zaban.Proofs.Grammar.Placeless
import Zaban.Proofs.Grammar.Sequence
import Zaban.Proofs.Eval.Sources
import Zaban.Proofs.Syntax.Legible
import Zaban.Proofs.Syntax.ReadBack
import Zaban.Proofs.Eval.Forest
import Zaban.Proofs.Eval.Watched
import Zaban.Proofs.Eval.Sessions
import Zaban.Proofs.Eval.Paired
import Zaban.Proofs.Eval.FullSink
import Zaban.Proofs.Eval.Stepwise
import Zaban.Proofs.Eval.Descent
import Zaban.Proofs.Eval.Halting
import Zaban.Proofs.Eval.Appending
import Zaban.Proofs.Host.Agreement
import Zaban.Proofs.Grammar.Ranked
import Zaban.Proofs.Grammar.Ordered
import Zaban.Proofs.Grammar.Climbing
import Zaban.Proofs.Eval.Assignment
import Zaban.Proofs.Eval.Blocks
import Zaban.Proofs.Token.Endings
import Zaban.Proofs.Token.Interleaving
import Zaban.Proofs.Grammar.Built
import Zaban.Proofs.Grammar.ErrorOrigin
import Zaban.Proofs.Eval.Courses
import Zaban.Proofs.Eval.Counting
import Zaban.Proofs.Eval.Conveying
import Zaban.Proofs.Eval.Identity
import Zaban.Proofs.Number.Finite
import Zaban.Proofs.Json.Accepting
import Zaban.Proofs.Syntax.Outermost
import Zaban.Proofs.Syntax.Canonical
import Zaban.Proofs.Host.Rewriting
import Zaban.Proofs.Json.Converting
import Zaban.Proofs.Syntax.Respelling
import Zaban.Proofs.Grammar.Following
import Zaban.Proofs.Grammar.Progress
import Zaban.Proofs.Syntax.Producible
import Zaban.Proofs.Number.Exact
import Zaban.Proofs.Number.Nearest
import Zaban.Proofs.Number.Shortest
import Zaban.Proofs.Number.Numerals
import Zaban.Proofs.Number.Formatting
import Zaban.Proofs.Number.Texts
import Zaban.Proofs.Number.Rounding
import Zaban.Proofs.Number.Decoding
