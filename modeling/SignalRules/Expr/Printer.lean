import SignalRules.Expr
import SignalRules.Grammar
import SignalRules.Text.Quoted

/-!
# Canonical text of expressions

An expression is written as a sequence of pieces: words, literals, marks, blanks, and the
parentheses that group an operand. The text is the pieces one after the other. In the algebraic
grammar only those operands are grouped that would otherwise be read differently: a first operand
that binds looser than its operator, a later one that binds looser or as tightly, unless both
belong to one merged chain, and a number literal behind a minus sign, which would be read as a
negative literal.

## Main definitions

* `Piece`: a piece of text.
* `Operator.groupsOperand`, `Operator.groupsUnary`: when an operand is grouped.
* `Expr.pieces`, `Expr.write`: the canonical pieces and text in a grammar.
-/

namespace SignalRules

/-- A piece of canonical text. -/
inductive Piece where
  /-- A space. -/
  | blank
  /-- A single symbol that is not a grouping parenthesis. -/
  | mark (c : Char)
  /-- A name, a keyword, an operator or a number literal. -/
  | word (text : String)
  /-- A text literal with the given content. -/
  | literal (content : String)
  /-- The parenthesis that opens a grouped operand. -/
  | openGroup
  /-- The parenthesis that closes a grouped operand. -/
  | closeGroup
deriving DecidableEq, Inhabited

/-- The characters of a piece. -/
def Piece.chars : Piece → List Char
  | blank => [' ']
  | mark c => [c]
  | word s => s.toList
  | literal s => Text.quote s.toList
  | openGroup => ['(']
  | closeGroup => [')']

/-- Whether an operand of a binary operator is grouped. -/
def Operator.groupsOperand (op : Operator) (isFirst : Bool) (operand : Head) : Bool :=
  let sameChain := op.isFlattened && operand.operator? == some op
  operand.precedence < op.precedence ||
    (!isFirst && operand.precedence == op.precedence && !sameChain)

/-- Whether the operand of a unary operator is grouped because of how tightly it binds. -/
def Operator.groupsUnary (op : Operator) (operand : Head) : Bool :=
  operand.precedence < op.operandPrecedence && operand.operator? != some op

/-- Whether a head is a number literal. -/
def Head.isNumber : Head → Bool
  | constant (.number _) => true
  | _ => false

/-- The name of an action as it is written. -/
def Action.written (a : Action) (once : Bool) : String := if once then a.name ++ ".once" else a.name

/-- The pieces of a literal. -/
def Value.pieces : Value → List Piece
  | unset => [.literal ""]
  | string s => [.literal s]
  | number n => [.word n.text]

/-- Group pieces if asked to. -/
def Piece.group (grouped : Bool) (pieces : List Piece) : List Piece :=
  if grouped then openGroup :: pieces ++ [closeGroup] else pieces

/-- Names with a space in front of each. -/
def Piece.spacedNames (names : List String) : List Piece := names.flatMap fun n => [blank, word n]

/-- Names separated by commas. -/
def Piece.listedNames : List String → List Piece
  | [] => []
  | [n] => [word n]
  | n :: m :: rest => word n :: mark ',' :: blank :: listedNames (m :: rest)

namespace Expr

mutual

/-- The pieces of an expression in the Polish grammar. -/
def polish : Expr → List Piece
  | node _ head operands =>
    match head with
    | .constant v => v.pieces
    | .symbol name => [.word name]
    | .signal s => [.mark '(', .word Operator.signal.keyword, .blank, .word s.name, .mark ')']
    | .action a once =>
      .mark '(' :: .word Operator.action.keyword :: .blank :: .word (a.written once) ::
        (polishOperands operands ++ [.mark ')'])
    | .comparison op =>
      .mark '(' :: .word (Operator.comparison op).keyword ::
        (polishOperands operands ++ [.mark ')'])
    | .connective op =>
      .mark '(' :: .word (Operator.connective op).keyword ::
        (polishOperands operands ++ [.mark ')'])
    | .arithmetic op =>
      .mark '(' :: .word (Operator.arithmetic op).keyword ::
        (polishOperands operands ++ [.mark ')'])
    | .concat =>
      .mark '(' :: .word Operator.concat.keyword :: (polishOperands operands ++ [.mark ')'])
    | .property mode p =>
      .mark '(' :: .word mode.operator.keyword :: .blank :: .literal p.reference ::
        (polishOperands operands ++ [.mark ')'])
    | .presence kind names =>
      .mark '(' :: .word (Operator.presence kind).keyword ::
        (Piece.spacedNames names ++ [.mark ')'])

/-- The pieces of operands in the Polish grammar, with a space in front of each. -/
def polishOperands : List Expr → List Piece
  | [] => []
  | e :: es => .blank :: (polish e ++ polishOperands es)

end

mutual

/-- The pieces of an expression in the algebraic grammar. -/
def algebraic : Expr → List Piece
  | node _ head operands =>
    match head with
    | .constant v => v.pieces
    | .symbol name => [.word name]
    | .signal s => [.word s.name]
    | .action a once =>
      .word (a.written once) :: .mark '(' :: (algebraicArguments operands ++ [.mark ')'])
    | .comparison op => algebraicChain (.comparison op) true operands
    | .connective .not => .word "not" :: .blank :: algebraicUnary (.connective .not) operands
    | .connective op => algebraicChain (.connective op) true operands
    | .arithmetic .neg => .mark '-' :: algebraicUnary (.arithmetic .neg) operands
    | .arithmetic .min =>
      .word "min" :: .mark '(' :: (algebraicArguments operands ++ [.mark ')'])
    | .arithmetic .max =>
      .word "max" :: .mark '(' :: (algebraicArguments operands ++ [.mark ')'])
    | .arithmetic .round =>
      .word "round" :: .mark '(' :: (algebraicArguments operands ++ [.mark ')'])
    | .arithmetic op => algebraicChain (.arithmetic op) true operands
    | .concat => .word "concat" :: .mark '(' :: (algebraicArguments operands ++ [.mark ')'])
    | .property mode p =>
      .word mode.operator.infixed :: .mark '(' :: .literal p.reference ::
        (algebraicFurther operands ++ [.mark ')'])
    | .presence kind names =>
      .word (Operator.presence kind).infixed :: .mark '(' ::
        (Piece.listedNames names ++ [.mark ')'])

/-- The pieces of the operands of a binary operator; the operator stands in front of every operand
but the first. -/
def algebraicChain (op : Operator) (isFirst : Bool) : List Expr → List Piece
  | [] => []
  | e :: es =>
    (if isFirst then [] else [.blank, .word op.infixed, .blank]) ++
      (Piece.group (op.groupsOperand isFirst e.head) (algebraic e) ++ algebraicChain op false es)

/-- The pieces of the operand of a unary operator. -/
def algebraicUnary (op : Operator) : List Expr → List Piece
  | [] => []
  | e :: es =>
    Piece.group (op.groupsUnary e.head || e.head.isNumber) (algebraic e) ++ algebraicUnary op es

/-- The pieces of arguments, separated by commas. -/
def algebraicArguments : List Expr → List Piece
  | [] => []
  | e :: es => algebraic e ++ algebraicFurther es

/-- The pieces of further arguments, with a comma in front of each. -/
def algebraicFurther : List Expr → List Piece
  | [] => []
  | e :: es => .mark ',' :: .blank :: (algebraic e ++ algebraicFurther es)

end

/-- The canonical pieces of an expression in a grammar. -/
def pieces (g : Grammar) (e : Expr) : List Piece :=
  match g with
  | .polish => polish e
  | .algebraic => algebraic e

/-- The canonical text of an expression in a grammar. -/
def write (g : Grammar) (e : Expr) : String := String.ofList ((e.pieces g).flatMap Piece.chars)

end Expr

end SignalRules
