import SignalRules.Expr.Build
import SignalRules.Taken

/-!
# Expected tokens

What the readers of both grammars need: the error about a token that does not fit or about the
end of the source, and reading one given symbol.

## Main definitions

* `unexpected`: the error about the next token, or about the end of the source.
* `expectSymbol`: read one given symbol.
-/

namespace SignalRules

/-- The error about a token that does not fit. -/
def unexpectedToken (expected : Expectation) (t : Token) : ParseError :=
  .located (.unexpectedToken expected t.kind t.text) t.span

/-- The error about the end of the source, which lies at the offset `finish`. -/
def unexpectedEnd (expected : Expectation) (finish : Nat) : ParseError :=
  .located (.unexpectedEnd expected) ⟨finish, finish⟩

/-- The error about whatever comes next. -/
def unexpected (expected : Expectation) (finish : Nat) : List Token → ParseError
  | [] => unexpectedEnd expected finish
  | t :: _ => unexpectedToken expected t

/-- Whether the next token is the symbol `c`. -/
def startsWith (c : Char) : List Token → Bool
  | [] => false
  | t :: _ => t.isSymbol c

/-- Read the symbol `c` and give its span. -/
def expectSymbol (c : Char) (expected : Expectation) (finish : Nat) (tokens : List Token) :
    Except ParseError (Taken Span tokens) :=
  match tokens with
  | [] => .error (unexpectedEnd expected finish)
  | t :: rest =>
    if t.isSymbol c then .ok (.first t.span t rest) else .error (unexpectedToken expected t)

end SignalRules
