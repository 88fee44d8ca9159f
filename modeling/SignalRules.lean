import SignalRules.Arity
import SignalRules.CommandLine
import SignalRules.CommandLine.Arguments
import SignalRules.Dialect
import SignalRules.Expr
import SignalRules.Expr.Build
import SignalRules.Expr.Describe
import SignalRules.Expr.Eval
import SignalRules.Expr.Outline
import SignalRules.Expr.Printer
import SignalRules.ExprType
import SignalRules.Fault
import SignalRules.Fixture
import SignalRules.Grammar
import SignalRules.Host
import SignalRules.Host.Definition
import SignalRules.Host.NameMap
import SignalRules.Json
import SignalRules.Json.Literal
import SignalRules.Json.Reader
import SignalRules.Main
import SignalRules.Message
import SignalRules.Message.Template
import SignalRules.Number.Binary64
import SignalRules.Number.Decimal
import SignalRules.Number.Fixed
import SignalRules.Operator
import SignalRules.ParseError
import SignalRules.Parser
import SignalRules.Parser.Algebraic
import SignalRules.Parser.Expect
import SignalRules.Parser.Polish
import SignalRules.Punctuation
import SignalRules.Session
import SignalRules.Session.Agenda
import SignalRules.SourceError
import SignalRules.Span
import SignalRules.StatusBoard
import SignalRules.Taken
import SignalRules.Text.Blank
import SignalRules.Text.Quoted
import SignalRules.Token
import SignalRules.Token.Lexer
import SignalRules.Value
import SignalRules.Proofs.Erasure
import SignalRules.Proofs.Lexeme
import SignalRules.Proofs.Algebraic.Reading
import SignalRules.Proofs.Polish.Reading
import SignalRules.Proofs.Polish.Term
import SignalRules.Proofs.Algebraic.Phrase
import SignalRules.Proofs.Algebraic.Climbing
import SignalRules.Proofs.Algebraic.Exactness
import SignalRules.Proofs.Algebraic.Soundness
import SignalRules.Proofs.Algebraic.Unambiguous
import SignalRules.Proofs.Built
import SignalRules.Proofs.Lexing
import SignalRules.Proofs.Parsing
import SignalRules.Proofs.Checked
import SignalRules.Proofs.WellFormed
import SignalRules.Proofs.HostStates
import SignalRules.Proofs.Spelling
import SignalRules.Proofs.Algebraic.Written
import SignalRules.Proofs.Algebraic.Canonical
import SignalRules.Proofs.Polish.Canonical
import SignalRules.Proofs.Rereading
import SignalRules.Proofs.Rebuilding
import SignalRules.Proofs.Balanced
import SignalRules.Proofs.Verbatim
import SignalRules.Proofs.RoundTrip
import SignalRules.Proofs.Keeping
import SignalRules.Proofs.Canonicalization
import SignalRules.Proofs.Markers
import SignalRules.Proofs.Placement
import SignalRules.Proofs.ErrorPlaces
import SignalRules.Proofs.TypeSoundness
import SignalRules.Proofs.Execution
import SignalRules.Proofs.Macros
import SignalRules.Proofs.Strictness
import SignalRules.Proofs.Accessors
import SignalRules.Proofs.Presence
import SignalRules.Proofs.Numerals
import SignalRules.Proofs.Splicing
import SignalRules.Proofs.Regrouping
import SignalRules.Proofs.Coverage
import SignalRules.Proofs.Layout
import SignalRules.Proofs.Anchoring
import SignalRules.Proofs.Polish.Standing
import SignalRules.Proofs.Algebraic.Standing
import SignalRules.Proofs.NodeSpans
import SignalRules.Proofs.Algebraic.Weight
import SignalRules.Proofs.Algebraic.Lightest
import SignalRules.Proofs.Algebraic.Opening
import SignalRules.Proofs.Parentheses
import SignalRules.Proofs.LexiconOrder
import SignalRules.Proofs.Polish.Derivation
import SignalRules.Proofs.Arithmetic
import SignalRules.Proofs.HostDependence
import SignalRules.Proofs.Filling
import SignalRules.Proofs.Quoting
import SignalRules.Proofs.ElementOrder
import SignalRules.Proofs.Formulas
