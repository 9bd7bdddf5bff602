import MonkeyLang.Json.Read
import MonkeyLang.Main
import MonkeyLang.Proofs.Eval.Code
import MonkeyLang.Proofs.Heap.Reachability
import MonkeyLang.Value.Inspect
import MonkeyLang.Proofs.Eval.Simulation
import MonkeyLang.Proofs.Eval.Call
import MonkeyLang.Proofs.Eval.Invariant
import MonkeyLang.Proofs.Eval.Frame
import MonkeyLang.Proofs.Eval.Interpreter
import MonkeyLang.Proofs.Eval.Release
import MonkeyLang.Proofs.Eval.Script
import MonkeyLang.Proofs.Eval.Lexical
import MonkeyLang.Proofs.Eval.Moment
import MonkeyLang.Proofs.Eval.Steps
import MonkeyLang.Proofs.Eval.StaticScope
import MonkeyLang.Proofs.Eval.Escape
import MonkeyLang.Proofs.Parser.Outcome
import MonkeyLang.Proofs.Parser.Reads
import MonkeyLang.Proofs.Parser.Clean
import MonkeyLang.Proofs.Parser.Progress
import MonkeyLang.Proofs.Parser.Grammar
import MonkeyLang.Proofs.Parser.Sound
import MonkeyLang.Proofs.Parser.Words
import MonkeyLang.Proofs.Parser.Greedy
import MonkeyLang.Proofs.Token.Lexer
import MonkeyLang.Proofs.Parser.Accepts
import MonkeyLang.Proofs.Syntax.WellFormed
import MonkeyLang.Proofs.Syntax.Printing
import MonkeyLang.Proofs.Parser.ReadBack
import MonkeyLang.Proofs.Token.Spaced
import MonkeyLang.Proofs.Parser.RoundTrip
import MonkeyLang.Proofs.Token.Spelled
import MonkeyLang.Proofs.Parser.Needs
import MonkeyLang.Proofs.Parser.Meets
import MonkeyLang.Proofs.Parser.FirstError
import MonkeyLang.Proofs.Token.Separate
import MonkeyLang.Proofs.Token.Tokenization
import MonkeyLang.Proofs.Parser.Append
import MonkeyLang.Proofs.Eval.Shift
import MonkeyLang.Proofs.Session
import MonkeyLang.Proofs.Eval.Signals
import MonkeyLang.Proofs.Parser.Walk
import MonkeyLang.Proofs.Parser.Layout
import MonkeyLang.Proofs.Syntax.Rendering
import MonkeyLang.Proofs.Parser.Rendered
import MonkeyLang.Proofs.Heap.Search
import MonkeyLang.Proofs.Eval.Unwind
import MonkeyLang.Proofs.Eval.Context
import MonkeyLang.Proofs.Eval.Catalogue
import MonkeyLang.Proofs.Eval.Unmentioned
import MonkeyLang.Proofs.Parser.Nodes
import MonkeyLang.Proofs.Parser.Seam
import MonkeyLang.Proofs.Eval.Pairing
import MonkeyLang.Proofs.Eval.Again
import MonkeyLang.Proofs.Eval.Budget
import MonkeyLang.Proofs.Eval.Body
import MonkeyLang.Proofs.Token.Boundary
import MonkeyLang.Proofs.Eval.Arithmetic
import MonkeyLang.Proofs.Parser.Attempts
import MonkeyLang.Proofs.Parser.Termination
import MonkeyLang.Proofs.Token.Stream
import MonkeyLang.Proofs.Integer
import MonkeyLang.Proofs.Heap.History
import MonkeyLang.Proofs.Json.Written
import MonkeyLang.Proofs.Syntax.Encoding
