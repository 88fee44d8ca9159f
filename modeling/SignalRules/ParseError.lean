import SignalRules.ExprType
import SignalRules.Token

/-!
# Errors of reading

Reading a source gives a whole expression or exactly one error. An error has a cause and, where it
is known, the span of the source that it is about. The wording of every cause is fixed here.

## Main definitions

* `Cause`: what can be wrong with a source; `Cause.kind`, `Cause.message`.
* `ParseError`: a cause with its place.
-/

namespace SignalRules

/-- What a grammar asks for at some point. -/
inductive Expectation where
  | expression
  | openParen
  | closeParen
  | commaOrClose
  | name
  | operatorKeyword
deriving DecidableEq, Inhabited

/-- What is asked for, in words. -/
def Expectation.text : Expectation → String
  | expression => "an expression"
  | openParen => "'('"
  | closeParen => "')'"
  | commaOrClose => "',' or ')'"
  | name => "a name"
  | operatorKeyword => "an operator keyword after '('"

/-- The kinds of errors. -/
inductive ErrorKind where
  /-- Malformed text. -/
  | malformed
  /-- The wrong number of operands. -/
  | arity
  /-- An operand of the wrong type. -/
  | type
  /-- A literal that is refused, or a macro that fails. -/
  | value
  /-- A name that does not resolve. -/
  | unresolved
deriving DecidableEq, Inhabited

/-- The public code of a kind. -/
def ErrorKind.code : ErrorKind → String
  | malformed => "sigscript::syntax"
  | arity => "sigscript::arity"
  | type => "sigscript::type"
  | value => "sigscript::value"
  | unresolved => "sigscript::bad_state"

/-- The label of a kind at the place of an error. -/
def ErrorKind.label : ErrorKind → String
  | malformed => "syntax error"
  | arity => "arity error"
  | type => "type error"
  | value => "value error"
  | unresolved => "unresolved reference"

/-- What is wrong with a source. Operators appear by their spelling in the grammar at hand. -/
inductive Cause where
  | unterminatedString
  | invalidIdentifier (word : String)
  | missingSeparator (lexeme : String) (found : Char)
  | emptySource
  | bareName (name : String)
  | unexpectedToken (expected : Expectation) (kind : TokenKind) (text : String)
  | unexpectedEnd (expected : Expectation)
  | trailingToken (text : String)
  | misplacedKeyword (keyword : String)
  | unclosedForm
  | unknownOperator (keyword : String)
  | malformedNumber (text : String)
  | unterminatedMacro
  | operandCount (spelling : String) (arity : Arity) (found : Nat)
  | argumentCount (action : String) (arity : Arity) (found : Nat)
  | nameExpected (spelling : String)
  | argumentType (position : Nat) (action parameter : String) (expected : ValueType)
      (found : ExprType)
  | incomparable (left right : ValueType)
  | unorderedString (spelling : String)
  | valueExpected (spelling : String) (found : ExprType)
  | booleanExpected (spelling : String) (found : ExprType)
  | numberExpected (spelling : String) (found : ExprType)
  | referenceExpected (spelling : String)
  | wrongElementType (spelling reference : String) (holds : ValueType)
  | lengthOfScalar (spelling reference : String)
  | indexOfScalar (reference : String)
  | collectionWithoutIndex (spelling reference : String)
  | indexType (spelling : String) (found : ExprType)
  | bareNameExpected (spelling : String) (found : ExprType)
  | macroType (found : ExprType)
  | optionRefused (literal signal : String)
  | macroFailed (body : String) (fault : Fault)
  | unresolved (notice : Notice)
deriving DecidableEq, Inhabited

namespace Cause

/-- The kind of a cause. -/
def kind : Cause → ErrorKind
  | unterminatedString | invalidIdentifier _ | missingSeparator .. | emptySource | bareName _
  | unexpectedToken .. | unexpectedEnd _ | trailingToken _ | misplacedKeyword _ | unclosedForm
  | unknownOperator _ | malformedNumber _ | unterminatedMacro => .malformed
  | operandCount .. | argumentCount .. => .arity
  | nameExpected _ | argumentType .. | incomparable .. | unorderedString _ | valueExpected ..
  | booleanExpected .. | numberExpected .. | referenceExpected _ | wrongElementType ..
  | lengthOfScalar .. | indexOfScalar _ | collectionWithoutIndex .. | indexType ..
  | bareNameExpected .. | macroType _ => .type
  | optionRefused .. | macroFailed .. => .value
  | unresolved _ => .unresolved

/-- The notice about a name that does not resolve. -/
def notice? : Cause → Option Notice
  | unresolved notice => some notice
  | _ => none

/-- How a token is shown in a message. -/
def shownToken : TokenKind → String → String
  | .string, text => "string '" ++ text ++ "'"
  | _, text => "'" ++ text ++ "'"

/-- The wording of a cause. -/
def message : Cause → String
  | unterminatedString => "unterminated string literal"
  | invalidIdentifier word => "invalid identifier '" ++ word ++ "'"
  | missingSeparator lexeme found =>
    "expected a separator after '" ++ lexeme ++ "', found '" ++ String.singleton found ++ "'"
  | emptySource => "empty expression"
  | bareName name => "'" ++ name ++ "' is a bare name, not an expression"
  | unexpectedToken expected kind text =>
    "expected " ++ expected.text ++ ", found " ++ shownToken kind text
  | unexpectedEnd expected => "unexpected end of input, expected " ++ expected.text
  | trailingToken text => "unexpected '" ++ text ++ "' after the end of the expression"
  | misplacedKeyword keyword => "'" ++ keyword ++ "' must directly follow '('"
  | unclosedForm => "unclosed '('"
  | unknownOperator keyword => "unknown operator '" ++ keyword ++ "'"
  | malformedNumber text => "malformed number '" ++ text ++ "'"
  | unterminatedMacro => "unterminated macro: missing '%\x7d'"
  | operandCount spelling arity found =>
    "'" ++ spelling ++ "' expects " ++ arity.phrase "operand" ++ ", found " ++ toString found
  | argumentCount action arity found =>
    action ++ " expects " ++ arity.phrase "argument" ++ ", found " ++ toString found
  | nameExpected spelling => "'" ++ spelling ++ "' expects a name as its first operand"
  | argumentType position action parameter expected found =>
    "argument " ++ toString position ++ " of " ++ action ++ " ('" ++ parameter ++ "') must be a " ++
      expected.name ++ ", found " ++ found.name
  | incomparable left right => "cannot compare " ++ left.name ++ " with " ++ right.name
  | unorderedString spelling => "'" ++ spelling ++ "' is not defined for strings"
  | valueExpected spelling found =>
    "operands of '" ++ spelling ++ "' must be values, found " ++ found.name
  | booleanExpected spelling found =>
    "operands of '" ++ spelling ++ "' must be boolean, found " ++ found.name
  | numberExpected spelling found =>
    "operands of '" ++ spelling ++ "' must be numbers, found " ++ found.name
  | referenceExpected spelling =>
    "'" ++ spelling ++ "' expects a quoted 'Component.Property' reference as its first operand"
  | wrongElementType spelling reference holds =>
    "'" ++ spelling ++ "' cannot read " ++ reference ++ ": it holds " ++ holds.name ++ " values"
  | lengthOfScalar spelling reference =>
    "'" ++ spelling ++ "' needs a collection, but " ++ reference ++ " is a single value"
  | indexOfScalar reference => reference ++ " is a single value and cannot be indexed"
  | collectionWithoutIndex spelling reference =>
    reference ++ " is a collection; pass an index to '" ++ spelling ++ "'"
  | indexType spelling found =>
    "the index of '" ++ spelling ++ "' must be a number, found " ++ found.name
  | bareNameExpected spelling found =>
    "'" ++ spelling ++ "' expects bare names, found " ++ found.name
  | macroType found => "a macro must be a condition or a value, found " ++ found.name
  | optionRefused literal signal => (Notice.mk .valueNotAllowed [literal, signal]).text
  | macroFailed body fault => "macro '" ++ body ++ "' failed: " ++ fault.text
  | unresolved notice => notice.text

end Cause

/-- An error of reading. -/
structure ParseError where
  /-- What is wrong. -/
  cause : Cause
  /-- Where it is, if the place is known. -/
  span : Option Span
deriving DecidableEq, Inhabited

namespace ParseError

/-- An error at a known place. -/
def located (cause : Cause) (span : Span) : ParseError := ⟨cause, some span⟩

/-- The error seen from a larger source that the text was cut from. -/
def shift (e : ParseError) (delta : Nat) : ParseError :=
  ⟨e.cause, e.span.map fun s => s.shift delta⟩

end ParseError

end SignalRules
