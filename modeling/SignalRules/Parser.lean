import SignalRules.Parser.Algebraic
import SignalRules.Parser.Polish
import SignalRules.Token.Lexer

/-!
# Reading an expression

A source is cut into tokens under the lexicon of its grammar; all of them must make up one
expression, and that must not be a bare name.

## Main definitions

* `Context.parse`: read a source.
-/

namespace SignalRules.Context

/-- Read an expression from the front of a list of tokens. -/
def expression (ctx : Context) (finish : Nat) (tokens : List Token) :
    Except ParseError (Taken Expr tokens) :=
  match ctx.grammar with
  | .polish => Polish.expression ctx finish tokens
  | .algebraic => Algebraic.expression ctx finish 0 tokens

/-- A bare name is not an expression by itself. -/
def notBare (e : Expr) : Except ParseError Expr :=
  match e.head with
  | .symbol name => .error (.located (.bareName name) e.span)
  | _ => .ok e

/-- Read all of a list of tokens as one expression. -/
def parseTokens (ctx : Context) (finish : Nat) (tokens : List Token) : Except ParseError Expr :=
  if tokens.isEmpty then .error (.located .emptySource ⟨0, finish⟩)
  else do
    let ⟨e, rest, _⟩ ← ctx.expression finish tokens
    match rest with
    | t :: _ => .error (.located (.trailingToken t.text) t.span)
    | [] => notBare e

/-- Read a source as one expression. -/
def parse (ctx : Context) (source : List Char) : Except ParseError Expr := do
  let tokens ← (Lexicon.ofGrammar ctx.grammar).tokenize source
  ctx.parseTokens (Text.byteLength source) tokens

end SignalRules.Context
