import SignalRules.Expr.Eval
import SignalRules.Expr.Printer

/-!
# Descriptions for people

A description uses the names that the host shows to people and the phrases of a catalog. A part
that does not depend on the host is replaced by its value, or by a notice if it has none. The
operands of arithmetic are grouped as in canonical text, except those that are replaced.

## Main definitions

* `Expr.isFolded`: whether an expression is replaced by its value.
* `Expr.describe`: the description of an expression.
-/

namespace SignalRules

/-- The phrase for a comparison. -/
def Comparison.phrase : Comparison → MessageId
  | eq => .describeEq
  | ne => .describeNe
  | gt => .describeGt
  | ge => .describeGe
  | lt => .describeLt
  | le => .describeLe

/-- The description of a value. -/
def Value.describe (catalog : Catalog) : Value → String
  | unset => catalog.render .describeUnset []
  | string s => "\"" ++ s ++ "\""
  | number n => n.text

/-- The description of a call with described arguments. -/
def Action.describe (a : Action) (args : List String) : String :=
  match a.template with
  | some template => Template.fill template args
  | none => if args.isEmpty then a.display else a.display ++ "(" ++ Text.join ", " args ++ ")"

/-- Join described conditions by a phrase with two slots, from the left. -/
def joinPhrases (catalog : Catalog) (phrase : MessageId) : List String → String
  | [] => ""
  | part :: parts => parts.foldl (fun done next => catalog.render phrase [done, next]) part

/-- Whether a head is a conjunction or disjunction other than `op`. -/
def Head.isOtherChain (op : Connective) : Head → Bool
  | connective inner => inner != op && inner != .not
  | _ => false

/-- Whether a head is a literal. -/
def Head.isLiteral : Head → Bool
  | constant _ => true
  | _ => false

/-- Parentheses around a text, if asked for. -/
def parenthesized (wanted : Bool) (text : String) : String :=
  if wanted then "(" ++ text ++ ")" else text

namespace Expr

/-- Whether an expression is replaced by its value: it has one, does not depend on the host, and
is not a literal already. -/
def isFolded (e : Expr) : Bool :=
  !e.head.isLiteral && e.isConstant &&
    match e.type with
    | .value _ => true
    | _ => false

/-- The description of the value of an expression, or of the fault that there is instead. -/
def describeResult (catalog : Catalog) (result : Except Fault Value) : String :=
  match result with
  | .ok v => v.describe catalog
  | .error fault => catalog.render .describeFailure [fault.notice.render catalog]

mutual

/-- The description of an expression. -/
def describe (h : Host) (catalog : Catalog) : Expr → String
  | node span head operands =>
    if isFolded (node span head operands) then
      describeResult catalog (value h (node span head operands))
    else
      match head with
      | .constant v => v.describe catalog
      | .symbol name => name
      | .signal s => s.display
      | .action a once =>
        let text := a.describe (describeAll h catalog operands)
        if once then catalog.render .describeActionOnce [text] else text
      | .comparison op => catalog.render op.phrase (describeAll h catalog operands)
      | .connective .not =>
        catalog.render .describeNot [Text.join ", " (describeAll h catalog operands)]
      | .connective .and =>
        joinPhrases catalog .describeAnd (describeConditions h catalog .and operands)
      | .connective .or =>
        joinPhrases catalog .describeOr (describeConditions h catalog .or operands)
      | .arithmetic .min =>
        catalog.render .describeMin [Text.join ", " (describeAll h catalog operands)]
      | .arithmetic .max =>
        catalog.render .describeMax [Text.join ", " (describeAll h catalog operands)]
      | .arithmetic .round =>
        catalog.render .describeRound [Text.join ", " (describeAll h catalog operands)]
      | .arithmetic .neg =>
        "-" ++ Text.join ", " (describeNegated h catalog operands)
      | .arithmetic op =>
        Text.join (" " ++ (Operator.arithmetic op).infixed ++ " ")
          (describeOperands h catalog (.arithmetic op) true operands)
      | .concat => Text.join " + " (describeAll h catalog operands)
      | .property .length p => catalog.render .describeLength [p.display]
      | .property (.element _) p =>
        match describeAll h catalog operands with
        | index :: _ => catalog.render .describeElement [p.display, index]
        | [] => p.display
      | .property (.value _) p => p.display
      | .presence .signal names => catalog.render .describeHasSignal [Text.join ", " names]
      | .presence .action names => catalog.render .describeHasAction [Text.join ", " names]

/-- The descriptions of several expressions. -/
def describeAll (h : Host) (catalog : Catalog) : List Expr → List String
  | [] => []
  | e :: es => describe h catalog e :: describeAll h catalog es

/-- The descriptions of the operands of a conjunction or disjunction; the other kind is put in
parentheses. -/
def describeConditions (h : Host) (catalog : Catalog) (op : Connective) : List Expr → List String
  | [] => []
  | e :: es =>
    parenthesized (e.head.isOtherChain op) (describe h catalog e) ::
      describeConditions h catalog op es

/-- The descriptions of the operands of a binary operation. -/
def describeOperands (h : Host) (catalog : Catalog) (op : Operator) (isFirst : Bool) :
    List Expr → List String
  | [] => []
  | e :: es =>
    parenthesized (op.groupsOperand isFirst e.head && !isFolded e) (describe h catalog e) ::
      describeOperands h catalog op false es

/-- The descriptions of negated operands. -/
def describeNegated (h : Host) (catalog : Catalog) : List Expr → List String
  | [] => []
  | e :: es =>
    parenthesized ((Operator.arithmetic .neg).groupsUnary e.head && !isFolded e)
      (describe h catalog e) :: describeNegated h catalog es

end

end Expr

end SignalRules
