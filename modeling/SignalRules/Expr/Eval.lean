import SignalRules.Expr

/-!
# Evaluation

Nothing is computed before it is asked for, and nothing is remembered: every evaluation walks the
expression again and reads the host as it is then. Operands are evaluated from the left, and the
first fault ends the evaluation. Conjunctions and disjunctions stop at the first operand that
decides them.

## Main definitions

* `Arithmetic.apply`, `Comparison.holds`: the operators on values.
* `Expr.value`, `Expr.test`: the value of an expression, and whether it holds.
* `Expr.request`, `Expr.execute`: the call that an action expression makes, and making it.
-/

namespace SignalRules

/-- A result that has to fit the range of numbers. -/
def fitting (n : Option Fixed) : Except Fault Fixed :=
  match n with
  | some n => .ok n
  | none => .error Fault.overflow

/-- Arithmetic on numbers. The last case is for operand counts that no checked expression has. -/
def Arithmetic.apply : Arithmetic → List Fixed → Except Fault Fixed
  | add, ns => fitting (Fixed.sum? ns)
  | sub, [a, b] => fitting (a.sub? b)
  | mul, [a, b] => fitting (a.mul? b)
  | div, [a, b] =>
    if b.hundredths = 0 then .error Fault.divisionByZero else fitting (a.div? b)
  | mod, [a, b] =>
    if b.hundredths = 0 then .error Fault.divisionByZero else a.rem b
  | min, n :: ns => .ok (ns.foldl Fixed.min n)
  | max, n :: ns => .ok (ns.foldl Fixed.max n)
  | round, [n] => fitting n.round?
  | neg, [n] => fitting n.neg?
  | _, _ => .error (Fault.notA "number")

/-- Whether two values are equal. Nothing equals an unset value but another one, and a text equals
a number if it denotes it. -/
def Value.isEqual : Value → Value → Bool
  | unset, unset => true
  | unset, _ | _, unset => false
  | string s, string t => s == t
  | a, b =>
    match a.toNumber, b.toNumber with
    | .ok m, .ok n => m == n
    | _, _ => false

/-- Whether a comparison holds between two values. -/
def Comparison.holds (op : Comparison) (left right : Value) : Except Fault Bool :=
  match op with
  | eq => .ok (left.isEqual right)
  | ne => .ok (!left.isEqual right)
  | relation =>
    if left.isUnset || right.isUnset then .error Fault.unsetValue
    else do
      let a ← left.toNumber
      let b ← right.toNumber
      return match relation with
        | gt => decide (b < a)
        | ge => decide (b ≤ a)
        | lt => decide (a < b)
        | _ => decide (a ≤ b)

/-- A value of the host as a value of the declared type; an unset value stays unset. -/
def Value.coerce (value : Value) (type : ValueType) : Except Fault Value :=
  match value, type with
  | string s, .number => do
    let n ← (string s).toNumber
    return number n
  | number n, .string => .ok (string n.text)
  | v, _ => .ok v

/-- The present value of a declared signal, brought to its type and validated. -/
def Host.signalValue (h : Host) (s : Signal) : Except Fault Value := do
  let raw ← h.readSignal s.name
  let value ← raw.coerce s.type
  s.validator.check s.name value
  return value

/-- The element of a property at an index. -/
def elementAt (p : Property) (type : ValueType) (elements : List Value) (index : Int) :
    Except Fault Value :=
  if index < 0 then .error (Fault.indexOutOfRange index p.reference elements.length)
  else
    match elements[index.toNat]? with
    | some v => v.coerce type
    | none => .error (Fault.indexOutOfRange index p.reference elements.length)

namespace Expr

mutual

/-- The value of an expression. -/
def value (h : Host) : Expr → Except Fault Value
  | node _ head operands =>
    match head with
    | .constant v => .ok v
    | .signal s => h.signalValue s
    | .arithmetic op => do
      let ns ← numbers h operands
      let n ← op.apply ns
      return .number n
    | .concat => do
      let ts ← texts h operands
      return .string (Text.join "" ts)
    | .property mode p => do
      let contents ← h.readProperty p.reference
      match mode with
      | .value type => contents.single.coerce type
      | .length => return .number (Fixed.ofUnits contents.elements.length)
      | .element type => do
        let index ← firstUnits h operands
        elementAt p type contents.elements index
    | _ => .error (Fault.notA "value")

/-- The numbers that several expressions denote. -/
def numbers (h : Host) : List Expr → Except Fault (List Fixed)
  | [] => .ok []
  | e :: es => do
    let v ← value h e
    let n ← v.toNumber
    let ns ← numbers h es
    return n :: ns

/-- The texts of several expressions. -/
def texts (h : Host) : List Expr → Except Fault (List String)
  | [] => .ok []
  | e :: es => do
    let v ← value h e
    let ts ← texts h es
    return v.text :: ts

/-- The whole units that the first of several expressions denotes. -/
def firstUnits (h : Host) : List Expr → Except Fault Int
  | [] => .error (Fault.notA "number")
  | e :: _ => do
    let v ← value h e
    v.toUnits

end

mutual

/-- Whether an expression holds. -/
def test (h : Host) : Expr → Except Fault Bool
  | node _ head operands =>
    match head with
    | .comparison op =>
      match operands with
      | [left, right] => do
        let a ← value h left
        let b ← value h right
        op.holds a b
      | _ => .error (Fault.notA "boolean")
    | .connective .and => testAll h operands
    | .connective .or => testAny h operands
    | .connective .not =>
      match operands with
      | [e] => do
        let b ← test h e
        return !b
      | _ => .error (Fault.notA "boolean")
    | .presence .signal names => .ok (names.all h.hasSignal)
    | .presence .action names => .ok (names.all h.hasAction)
    | _ => .error (Fault.notA "boolean")

/-- Whether all of several expressions hold, stopping at the first that does not. -/
def testAll (h : Host) : List Expr → Except Fault Bool
  | [] => .ok true
  | e :: es => do
    let b ← test h e
    if b then testAll h es else return false

/-- Whether any of several expressions holds, stopping at the first that does. -/
def testAny (h : Host) : List Expr → Except Fault Bool
  | [] => .ok false
  | e :: es => do
    let b ← test h e
    if b then return true else testAny h es

end

/-- The arguments of a call: each is evaluated and validated before the next. -/
def arguments (h : Host) (a : Action) : (index : Nat) → List Expr → Except Fault (List Value)
  | _, [] => .ok []
  | index, e :: es => do
    let v ← value h e
    match a.parameter? index with
    | some p => p.validator.check p.name v
    | none => .ok ()
    let vs ← arguments h a (index + 1) es
    return v :: vs

/-- The call that an action expression makes, and whether the rule is retired afterwards. -/
def request (h : Host) : Expr → Except Fault (Call × Bool)
  | node _ (.action a once) operands => do
    let args ← arguments h a 0 operands
    return (⟨a.name, args⟩, once)
  | _ => .error (Fault.notA "action")

/-- What a run asks of the rule that owns the action. -/
structure Outcome where
  /-- Whether the rule is to be retired. -/
  deactivate : Bool
deriving DecidableEq, Inhabited

/-- Make the call of an action expression on a host whose actions do nothing more than record it:
the new host and what is asked of the rule. -/
def execute (h : Host) (e : Expr) : Except Fault (Host × Outcome) := do
  let (call, once) ← e.request h
  let (h', _) ← h.record call.name call.args
  return (h', ⟨once⟩)

end Expr

end SignalRules
