import SignalRules.Arity

/-!
# Operators

Every node of an expression that is not a constant or a bare name comes from an operator. This
module is the one place that fixes how an operator is written in either grammar, how tightly it
binds, how many operands it takes and which operators merge nested uses of themselves.

## Main definitions

* `Operator`, with its families `Comparison`, `Connective`, `Arithmetic` and `Presence`.
* `Operator.keyword`, `Operator.form`: the spelling in the Polish and in the algebraic grammar.
* `Operator.precedence`, `Operator.operandPrecedence`: binding powers.
* `Operator.ofKeyword?`, `Operator.ofBinary?`, `Operator.ofUnary?`, `Operator.ofCall?`: look-up by
  spelling.
-/

namespace SignalRules

/-- Comparisons of two values. -/
inductive Comparison where
  | eq
  | ne
  | gt
  | ge
  | lt
  | le
deriving DecidableEq, Inhabited

/-- Whether a comparison needs an order; those are defined for numbers only. -/
def Comparison.isRelational : Comparison → Bool
  | eq | ne => false
  | _ => true

/-- Connectives of conditions. -/
inductive Connective where
  | and
  | or
  | not
deriving DecidableEq, Inhabited

/-- Arithmetic on numbers. -/
inductive Arithmetic where
  | add
  | sub
  | mul
  | div
  | mod
  | min
  | max
  | round
  | neg
deriving DecidableEq, Inhabited

/-- What a presence check looks for. -/
inductive Presence where
  | signal
  | action
deriving DecidableEq, Inhabited

/-- The operators. -/
inductive Operator where
  | comparison (op : Comparison)
  | connective (op : Connective)
  | arithmetic (op : Arithmetic)
  | concat
  | signal
  | action
  | getNumber
  | getString
  | getLength
  | presence (kind : Presence)
deriving DecidableEq, Inhabited

/-- How an operator is written in the algebraic grammar. -/
inductive Form where
  /-- Between two operands. -/
  | binary (spelling : String)
  /-- In front of one operand. -/
  | unary (spelling : String)
  /-- As a name with operands in parentheses. -/
  | call (spelling : String)
  /-- By the dotted name that it refers to. -/
  | named
deriving DecidableEq, Inhabited

/-- The spelling, if the form has one. -/
def Form.spelling? : Form → Option String
  | binary s | unary s | call s => some s
  | named => none

namespace Operator

/-- All operators, in the order in which they are listed. -/
def all : List Operator :=
  [comparison .eq, comparison .ne, comparison .gt, comparison .ge, comparison .lt, comparison .le,
    connective .and, connective .or, connective .not,
    arithmetic .add, arithmetic .sub, arithmetic .mul, arithmetic .div, arithmetic .mod,
    arithmetic .min, arithmetic .max, arithmetic .round, arithmetic .neg,
    concat, signal, action, getNumber, getString, getLength, presence .signal, presence .action]

/-- The keyword in the Polish grammar. -/
def keyword : Operator → String
  | comparison .eq => "eq"
  | comparison .ne => "ne"
  | comparison .gt => "gt"
  | comparison .ge => "ge"
  | comparison .lt => "lt"
  | comparison .le => "le"
  | connective .and => "and"
  | connective .or => "or"
  | connective .not => "not"
  | arithmetic .add => "add"
  | arithmetic .sub => "sub"
  | arithmetic .mul => "mul"
  | arithmetic .div => "div"
  | arithmetic .mod => "mod"
  | arithmetic .min => "min"
  | arithmetic .max => "max"
  | arithmetic .round => "round"
  | arithmetic .neg => "neg"
  | concat => "concat"
  | signal => "sig"
  | action => "act"
  | getNumber => "getnum"
  | getString => "getstr"
  | getLength => "getlen"
  | presence .signal => "?sig"
  | presence .action => "?act"

/-- The form in the algebraic grammar. -/
def form : Operator → Form
  | comparison .eq => .binary "=="
  | comparison .ne => .binary "!="
  | comparison .gt => .binary ">"
  | comparison .ge => .binary ">="
  | comparison .lt => .binary "<"
  | comparison .le => .binary "<="
  | connective .and => .binary "and"
  | connective .or => .binary "or"
  | connective .not => .unary "not"
  | arithmetic .add => .binary "+"
  | arithmetic .sub => .binary "-"
  | arithmetic .mul => .binary "*"
  | arithmetic .div => .binary "/"
  | arithmetic .mod => .binary "%"
  | arithmetic .min => .call "min"
  | arithmetic .max => .call "max"
  | arithmetic .round => .call "round"
  | arithmetic .neg => .unary "-"
  | concat => .call "concat"
  | signal => .named
  | action => .named
  | getNumber => .call "getnum"
  | getString => .call "getstr"
  | getLength => .call "getlen"
  | presence .signal => .call "hassignal"
  | presence .action => .call "hasaction"

/-- The spelling in the algebraic grammar; operators without one use their keyword. -/
def infixed (op : Operator) : String := op.form.spelling?.getD op.keyword

/-- The binding power of constants, names and calls. -/
def atomPrecedence : Nat := 8

/-- The binding power in the algebraic grammar; a greater one binds tighter. -/
def precedence : Operator → Nat
  | connective .or => 0
  | connective .and => 1
  | connective .not => 2
  | comparison .eq | comparison .ne => 3
  | comparison _ => 4
  | arithmetic .add | arithmetic .sub => 5
  | arithmetic .mul | arithmetic .div | arithmetic .mod => 6
  | arithmetic .neg => 7
  | _ => atomPrecedence

/-- The least binding power of the operand of a unary operator. A negation of a condition takes a
whole comparison. -/
def operandPrecedence : Operator → Nat
  | connective .not => (comparison .eq).precedence
  | op => op.precedence

/-- Whether nested uses of the operator are merged into one node. -/
def isFlattened : Operator → Bool
  | arithmetic .add | connective .and | connective .or => true
  | _ => false

/-- The number of operands, counted as in the Polish grammar. -/
def arity : Operator → Arity
  | comparison _ => .exactly 2
  | connective .not => .exactly 1
  | connective _ => .atLeast 2
  | arithmetic .add | arithmetic .min | arithmetic .max => .atLeast 2
  | arithmetic .round | arithmetic .neg => .exactly 1
  | arithmetic _ => .exactly 2
  | concat => .atLeast 2
  | signal => .exactly 1
  | action => .atLeast 1
  | getNumber | getString => .between 1 2
  | getLength => .exactly 1
  | presence _ => .atLeast 1

/-- The name of the family that an operator belongs to. -/
def family : Operator → String
  | comparison _ => "Comparison"
  | connective _ => "Logical"
  | arithmetic _ => "Math"
  | concat => "Concat"
  | signal | action => "Reference"
  | getNumber | getString | getLength => "Property"
  | presence _ => "Existence"

/-- A one-line description for documentation. -/
def description : Operator → String
  | comparison .eq => "Equal."
  | comparison .ne => "Not equal."
  | comparison .gt => "Greater than (numbers only)."
  | comparison .ge => "Greater than or equal (numbers only)."
  | comparison .lt => "Less than (numbers only)."
  | comparison .le => "Less than or equal (numbers only)."
  | connective .and => "True when every operand is true; stops at the first false one."
  | connective .or => "True when any operand is true; stops at the first true one."
  | connective .not => "Logical negation."
  | arithmetic .add => "Sum of all operands."
  | arithmetic .sub => "Difference."
  | arithmetic .mul => "Product."
  | arithmetic .div => "Quotient, rounded toward zero at two decimals."
  | arithmetic .mod => "Remainder."
  | arithmetic .min => "Smallest operand."
  | arithmetic .max => "Largest operand."
  | arithmetic .round => "Round to the nearest whole unit."
  | arithmetic .neg => "Arithmetic negation."
  | concat => "Concatenate the text of every operand."
  | signal => "Read a host signal."
  | action => "Invoke a host action."
  | getNumber => "Read a numeric property, or one element of a numeric collection."
  | getString => "Read a text property, or one element of a text collection."
  | getLength => "Number of elements in a collection property."
  | presence .signal => "True when every named signal resolves right now."
  | presence .action => "True when every named action resolves right now."

/-- The operator with a keyword of the Polish grammar. -/
def ofKeyword? (s : String) : Option Operator := all.find? fun op => op.keyword == s

/-- The operator written `s` between its operands. -/
def ofBinary? (s : String) : Option Operator := all.find? fun op => op.form == .binary s

/-- The operator written `s` in front of its operand. -/
def ofUnary? (s : String) : Option Operator := all.find? fun op => op.form == .unary s

/-- The operator that is called by the name `s`. -/
def ofCall? (s : String) : Option Operator := all.find? fun op => op.form == .call s

theorem mem_all (op : Operator) : op ∈ all := by
  cases op with
  | comparison op => cases op <;> decide
  | connective op => cases op <;> decide
  | arithmetic op => cases op <;> decide
  | presence kind => cases kind <;> decide
  | _ => decide

end Operator

end SignalRules
