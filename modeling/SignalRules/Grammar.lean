import SignalRules.Operator
import SignalRules.Text.Blank

/-!
# Grammars

Expressions are written in one of two grammars. In the *Polish* grammar every operator stands
first in a pair of parentheses, as in `(eq (sig Door.Position) 100)`. In the *algebraic* grammar
operators stand between their operands and names are called with arguments, as in
`Door.Position == 100`. A source can force a grammar by a marker at its very beginning.

## Main definitions

* `Grammar`, with its name, marker and character classes.
* `Grammar.keywords`, `Grammar.stopKeywords`: reserved words and operators of several symbols.
* `Grammar.stripMarker?`: recognise a marker.
-/

namespace SignalRules

/-- The two ways to write expressions. -/
inductive Grammar where
  /-- Operators first, in parentheses. -/
  | polish
  /-- Operators between operands. -/
  | algebraic
deriving DecidableEq, Inhabited

namespace Grammar

/-- Both grammars, in the order in which they are listed. -/
def all : List Grammar := [polish, algebraic]

/-- The public name of a grammar. -/
def name : Grammar → String
  | polish => "prefix"
  | algebraic => "infix"

/-- The text that forces a grammar at the beginning of a source. -/
def marker : Grammar → String
  | polish => "#!prefix"
  | algebraic => "#!infix"

/-- The characters that enclose a text literal. -/
def quotes : Grammar → List Char
  | _ => ['\'', '"']

/-- The characters that are tokens by themselves; a space only separates. -/
def stopSymbols : Grammar → List Char
  | polish => [' ', '(', ')']
  | algebraic => [' ', '(', ')', ',', '+', '-', '*', '/', '%', '<', '>', '=', '!']

/-- A one-line description for documentation. -/
def description : Grammar → String
  | polish => "Parenthesised forms with the operator keyword first."
  | algebraic => "Operators between operands, calls written as `name(args)`."

/-- The grammar with a given name. -/
def ofName? (s : String) : Option Grammar := all.find? fun g => g.name == s

/-- Whether a spelling is made of letters only. -/
def isWord (s : String) : Bool :=
  s.toList.all fun c => ('a' ≤ c && c ≤ 'z') || ('A' ≤ c && c ≤ 'Z')

/-- The reserved words of a grammar. -/
def keywords : Grammar → List String
  | polish => Operator.all.map Operator.keyword
  | algebraic => Operator.all.filterMap fun op =>
    match op.form with
    | .call s => some s
    | .binary s | .unary s => if isWord s then some s else none
    | .named => none

/-- The operators made of several stop symbols. -/
def stopKeywords : Grammar → List String
  | polish => []
  | algebraic => Operator.all.filterMap fun op =>
    match op.form with
    | .binary s => if 1 < s.length && !isWord s then some s else none
    | _ => none

/-- How an operator is written in a grammar. -/
def spelling : Grammar → Operator → String
  | polish, op => op.keyword
  | algebraic, op => op.infixed

/-- The rest of a source behind the marker of `g`, if the source starts with that marker and white
space or nothing follows. -/
def behindMarker? (g : Grammar) (source : List Char) : Option (List Char) :=
  match Text.stripStart? g.marker.toList source with
  | none => none
  | some [] => some []
  | some (c :: rest) => if Text.isWhite c then some (c :: rest) else none

/-- The grammar that a marker forces, and the source behind it. -/
def stripMarker? (source : List Char) : Option (Grammar × List Char) :=
  all.findSome? fun g => (g.behindMarker? source).map fun rest => (g, rest)

end Grammar

end SignalRules
