import SignalRules.ExprType
import SignalRules.Host
import SignalRules.Operator
import SignalRules.Span

/-!
# Expressions

An expression is a tree. Every node has a head, which tells what it is, the operands below it and
the span of source that it was read from. Heads keep the declarations of the signals, actions and
properties that they refer to; present values are looked up in the host at evaluation.

## Main definitions

* `PropertyMode`, `Head`, `Expr`.
* `Expr.type`, `Expr.operator?`, `Expr.precedence`: facts about the head.
* `Expr.readsHost`, `Expr.isConstant`: whether the host can matter.
-/

namespace SignalRules

/-- What is read of a property. -/
inductive PropertyMode where
  /-- Its single value. -/
  | value (type : ValueType)
  /-- One element of a collection. -/
  | element (type : ValueType)
  /-- The number of elements. -/
  | length
deriving DecidableEq, Inhabited

namespace PropertyMode

/-- The operator that reads in this mode. -/
def operator : PropertyMode → Operator
  | value .number | element .number => .getNumber
  | value .string | element .string => .getString
  | length => .getLength

/-- The type of what is read. -/
def type : PropertyMode → ValueType
  | value t | element t => t
  | length => .number

end PropertyMode

/-- What a node of an expression is. -/
inductive Head where
  /-- A literal. -/
  | constant (value : Value)
  /-- A bare name. -/
  | symbol (name : String)
  /-- The value of a signal. -/
  | signal (declaration : Signal)
  /-- A call of an action with the operands as arguments; `once` asks to retire the rule. -/
  | action (declaration : Action) (once : Bool)
  /-- A comparison of two operands. -/
  | comparison (op : Comparison)
  /-- A connective of conditions. -/
  | connective (op : Connective)
  /-- Arithmetic. -/
  | arithmetic (op : Arithmetic)
  /-- The texts of the operands, one after the other. -/
  | concat
  /-- A read of a property; the operand, if any, is the index. -/
  | property (mode : PropertyMode) (declaration : Property)
  /-- Whether all the given names resolve. -/
  | presence (kind : Presence) (names : List String)

namespace Head

instance : Inhabited Head := ⟨constant .unset⟩

/-- The type of a node with this head. An unset literal counts as a text. -/
def type : Head → ExprType
  | constant v => .value (v.type?.getD .string)
  | symbol _ => .symbol
  | signal s => .value s.type
  | action .. => .action
  | comparison _ | connective _ | presence .. => .boolean
  | arithmetic _ => .value .number
  | concat => .value .string
  | property mode _ => .value mode.type

/-- The operator that the node comes from. -/
def operator? : Head → Option Operator
  | constant _ | symbol _ => none
  | signal _ => some .signal
  | action .. => some .action
  | comparison op => some (.comparison op)
  | connective op => some (.connective op)
  | arithmetic op => some (.arithmetic op)
  | concat => some .concat
  | property mode _ => some mode.operator
  | presence kind _ => some (.presence kind)

/-- The binding power of the node in the algebraic grammar. -/
def precedence (head : Head) : Nat :=
  match head.operator? with
  | some op => op.precedence
  | none => Operator.atomPrecedence

/-- Whether the node itself reads a signal or a property. -/
def readsHost : Head → Bool
  | signal _ | property .. => true
  | _ => false

/-- Whether the node itself depends on nothing but its operands. -/
def isPure : Head → Bool
  | symbol _ | signal _ | action .. | property .. | presence .. => false
  | _ => true

end Head

/-- An expression. -/
inductive Expr where
  /-- A head applied to operands, read from a span of source. -/
  | node (span : Span) (head : Head) (operands : List Expr)

namespace Expr

instance : Inhabited Expr := ⟨node default default []⟩

/-- The span of source that the expression was read from. -/
def span : Expr → Span
  | node span _ _ => span

/-- The head of the topmost node. -/
def head : Expr → Head
  | node _ head _ => head

/-- The operands of the topmost node. -/
def operands : Expr → List Expr
  | node _ _ operands => operands

/-- The same node with another span. -/
def withSpan (span : Span) : Expr → Expr
  | node _ head operands => node span head operands

/-- A literal. -/
def constant (value : Value) (span : Span) : Expr := node span (.constant value) []

/-- A bare name. -/
def symbol (name : String) (span : Span) : Expr := node span (.symbol name) []

/-- The type of an expression. -/
def type (e : Expr) : ExprType := e.head.type

/-- The operator that the topmost node comes from. -/
def operator? (e : Expr) : Option Operator := e.head.operator?

/-- The binding power of the topmost node in the algebraic grammar. -/
def precedence (e : Expr) : Nat := e.head.precedence

mutual

/-- Whether a signal or a property is read anywhere. -/
def readsHost : Expr → Bool
  | node _ head operands => head.readsHost || anyReadsHost operands

/-- Whether one of several expressions reads a signal or a property. -/
def anyReadsHost : List Expr → Bool
  | [] => false
  | e :: es => readsHost e || anyReadsHost es

end

mutual

/-- Whether nothing depends on the host, so that the expression can be evaluated at once. -/
def isConstant : Expr → Bool
  | node _ head operands => head.isPure && allConstant operands

/-- Whether several expressions are all independent of the host. -/
def allConstant : List Expr → Bool
  | [] => true
  | e :: es => isConstant e && allConstant es

end

end Expr

end SignalRules
