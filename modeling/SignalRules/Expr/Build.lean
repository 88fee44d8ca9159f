import SignalRules.Expr
import SignalRules.ParseError

/-!
# Building checked expressions

Both grammars hand the operands of a node to this module, which holds every rule about what a
valid expression is: the number and the types of operands, the resolution of names against the
host, the merging of nested sums and connectives into one node, and the treatment of literals that
a signal is compared with.

## Main definitions

* `Context`: the host, the grammar at hand and whether options are enforced.
* `Context.number`, `Context.signal`, `Context.action`, `Context.apply`: the checked constructors.
* `flatten`: splice operands that use the operator themselves.
-/

namespace SignalRules

/-- What building an expression depends on. -/
structure Context where
  /-- The host against which names are resolved. -/
  host : Host
  /-- Whether a literal must be among the options of the signal that it is compared with. -/
  strict : Bool
  /-- The grammar at hand; it only decides how operators are spelled in errors. -/
  grammar : Grammar

/-- The ending of an action's name that asks to retire the rule after one run. -/
def onceSuffix : List Char := ['.', 'o', 'n', 'c', 'e']

/-- The name of an action without the ending that asks for a single run, and whether it had it. -/
def splitOnce (name : String) : String × Bool :=
  let cs := name.toList
  let base := cs.take (cs.length - onceSuffix.length)
  if onceSuffix.isSuffixOf cs && !base.isEmpty then (String.ofList base, true) else (name, false)

/-- Replace each operand whose head is `same` by its own operands. -/
def flatten (same : Head → Bool) (operands : List Expr) : List Expr :=
  operands.flatMap fun e => if same e.head then e.operands else [e]

/-- Whether a head is the given connective. -/
def Head.isConnective (op : Connective) : Head → Bool
  | connective op' => op' == op
  | _ => false

/-- Whether a head is the given arithmetic operation. -/
def Head.isArithmetic (op : Arithmetic) : Head → Bool
  | arithmetic op' => op' == op
  | _ => false

namespace Context

/-- How an operator is spelled in errors. -/
def spelling (ctx : Context) (op : Operator) : String := ctx.grammar.spelling op

/-- A number literal. -/
def number (text : String) (span : Span) : Except ParseError Expr :=
  match Fixed.parse? text.toList with
  | some n => .ok (.constant (.number n) span)
  | none => .error (.located (.malformedNumber text) span)

/-- A name that has to resolve. -/
def resolve {α : Type} (span : Span) (found : Except Notice α) : Except ParseError α :=
  found.mapError fun notice => .located (.unresolved notice) span

/-- A read of a signal. -/
def signal (ctx : Context) (name : String) (span : Span) : Except ParseError Expr := do
  let s ← resolve span (ctx.host.signal? name)
  return .node span (.signal s) []

/-- The first argument whose type does not fit its parameter, as an error. -/
def argumentError? (a : Action) (name : String) (args : List Expr) : Option ParseError :=
  args.zipIdx.findSome? fun (arg, i) =>
    match a.parameter? i with
    | none => none
    | some p =>
      if arg.type = .value p.type then none
      else some (.located (.argumentType (i + 1) name p.name p.type arg.type) arg.span)

/-- A call of an action. -/
def action (ctx : Context) (written : String) (args : List Expr) (span : Span) :
    Except ParseError Expr := do
  let (name, once) := splitOnce written
  let a ← resolve span (ctx.host.action? name)
  if !a.arity.accepts args.length then
    throw (.located (.argumentCount name a.arity args.length) span)
  match argumentError? a name args with
  | some e => throw e
  | none => return .node span (.action a once) args

/-! ### Operators -/

/-- The type of an operand that has to be a value. -/
def valueType (ctx : Context) (op : Operator) (e : Expr) : Except ParseError ValueType :=
  match e.type with
  | .value type => .ok type
  | found => .error (.located (.valueExpected (ctx.spelling op) found) e.span)

/-- A literal that a signal is compared with: an outdated one is replaced, and in strict contexts
the result must be among the signal's options. Other operands stay as they are. -/
def settleLiteral (ctx : Context) (signal other : Expr) : Except ParseError Expr :=
  match signal.head, other.head with
  | .signal s, .constant written =>
    let literal := (s.modern? written).getD written
    if ctx.strict && !s.allows literal then
      .error (.located (.optionRefused literal.text s.name) other.span)
    else .ok (.constant literal other.span)
  | _, _ => .ok other

/-- A comparison. If both sides are signals or neither is, no literal is settled. -/
def comparison (ctx : Context) (op : Comparison) (left right : Expr) (span : Span) :
    Except ParseError Expr := do
  let leftType ← ctx.valueType (.comparison op) left
  let rightType ← ctx.valueType (.comparison op) right
  if leftType ≠ rightType then
    throw (.located (.incomparable leftType rightType) span)
  if op.isRelational && leftType == .string then
    throw (.located (.unorderedString (ctx.spelling (.comparison op))) span)
  match left.head with
  | .signal _ =>
    let right ← ctx.settleLiteral left right
    return .node span (.comparison op) [left, right]
  | _ =>
    let left ← ctx.settleLiteral right left
    return .node span (.comparison op) [left, right]

/-- A connective of conditions. -/
def connective (ctx : Context) (op : Connective) (operands : List Expr) (span : Span) :
    Except ParseError Expr :=
  match operands.find? fun e => e.type ≠ .boolean with
  | some e =>
    .error (.located (.booleanExpected (ctx.spelling (.connective op)) e.type) e.span)
  | none =>
    let operands :=
      if (Operator.connective op).isFlattened then flatten (Head.isConnective op) operands
      else operands
    .ok (.node span (.connective op) operands)

/-- Arithmetic. -/
def arithmetic (ctx : Context) (op : Arithmetic) (operands : List Expr) (span : Span) :
    Except ParseError Expr :=
  match operands.find? fun e => e.type ≠ .value .number with
  | some e =>
    .error (.located (.numberExpected (ctx.spelling (.arithmetic op)) e.type) e.span)
  | none =>
    let operands :=
      if (Operator.arithmetic op).isFlattened then flatten (Head.isArithmetic op) operands
      else operands
    .ok (.node span (.arithmetic op) operands)

/-- Whether an expression has a value. -/
def isValue (e : Expr) : Bool :=
  match e.type with
  | .value _ => true
  | _ => false

/-- A concatenation of texts. -/
def concat (ctx : Context) (operands : List Expr) (span : Span) : Except ParseError Expr :=
  match operands.find? fun e => !isValue e with
  | some e => .error (.located (.valueExpected (ctx.spelling .concat) e.type) e.span)
  | none => .ok (.node span .concat operands)

/-- The mode in which an operator reads a property, with or without an index. -/
def propertyMode (op : Operator) (indexed : Bool) : PropertyMode :=
  match op with
  | .getNumber => if indexed then .element .number else .value .number
  | .getString => if indexed then .element .string else .value .string
  | _ => .length

/-- What is wrong with reading a property in some mode, if anything is. -/
def modeError? (spelling : String) (mode : PropertyMode) (p : Property) : Option Cause :=
  if mode ≠ .length ∧ mode.type ≠ p.type then
    some (.wrongElementType spelling p.reference p.type)
  else
    match mode, p.shape.isCollection with
    | .length, false => some (.lengthOfScalar spelling p.reference)
    | .element _, false => some (.indexOfScalar p.reference)
    | .value _, true => some (.collectionWithoutIndex spelling p.reference)
    | _, _ => none

/-- A read of a property. The first operand is a literal with the reference. -/
def property (ctx : Context) (op : Operator) (operands : List Expr) (span : Span) :
    Except ParseError Expr := do
  let spelling := ctx.spelling op
  match operands with
  | .node referenceSpan (.constant (.string reference)) _ :: rest =>
    let p ← resolve referenceSpan (ctx.host.property? reference)
    let index := rest.head?
    let mode := propertyMode op index.isSome
    match modeError? spelling mode p with
    | some cause => throw (.located cause span)
    | none =>
      match index with
      | none => return .node span (.property mode p) []
      | some i =>
        if i.type ≠ .value .number then
          throw (.located (.indexType spelling i.type) i.span)
        return .node span (.property mode p) [i]
  | _ => throw (.located (.referenceExpected spelling) span)

/-- The names that bare operands spell, or the first operand that is not a bare name. -/
def bareNames : List Expr → Except Expr (List String)
  | [] => .ok []
  | .node _ (.symbol name) _ :: rest => do
    let names ← bareNames rest
    return name :: names
  | e :: _ => .error e

/-- A check whether names resolve. -/
def presence (ctx : Context) (kind : Presence) (operands : List Expr) (span : Span) :
    Except ParseError Expr :=
  match bareNames operands with
  | .ok names => .ok (.node span (.presence kind names) [])
  | .error e =>
    .error (.located (.bareNameExpected (ctx.spelling (.presence kind)) e.type) e.span)

/-- The node of an operator applied to operands. -/
def apply (ctx : Context) (op : Operator) (operands : List Expr) (span : Span) :
    Except ParseError Expr :=
  if !op.arity.accepts operands.length then
    .error (.located (.operandCount (ctx.spelling op) op.arity operands.length) span)
  else
    match op, operands with
    | .comparison c, [left, right] => ctx.comparison c left right span
    | .comparison _, _ =>
      .error (.located (.operandCount (ctx.spelling op) op.arity operands.length) span)
    | .connective c, _ => ctx.connective c operands span
    | .arithmetic a, _ => ctx.arithmetic a operands span
    | .concat, _ => ctx.concat operands span
    | .getNumber, _ | .getString, _ | .getLength, _ => ctx.property op operands span
    | .presence kind, _ => ctx.presence kind operands span
    | .signal, .node _ (.symbol name) _ :: _ => ctx.signal name span
    | .action, .node _ (.symbol name) _ :: args => ctx.action name args span
    | .signal, _ | .action, _ => .error (.located (.nameExpected (ctx.spelling op)) span)

end Context

end SignalRules
