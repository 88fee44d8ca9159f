import SignalRules.Fault
import SignalRules.Number.Binary64
import SignalRules.Number.Decimal
import SignalRules.Text.Blank

/-!
# Values

A value is what a signal holds, what a constant denotes and what an action receives: nothing at
all, a text, or a number. Texts and numbers convert into each other; an unset value reads as the
empty text and never as a number.

## Main definitions

* `ValueType`, `Value`.
* `Value.text`, `Value.toNumber`, `Value.toUnits`, `Value.toReal`, `Value.isTrue`: conversions.
* `Value.ofReal`: a number from a double.
* `Value.le`: the order that sorts collections without an order of their own.
-/

namespace SignalRules

/-- The types of values. -/
inductive ValueType where
  | string
  | number
deriving DecidableEq, Inhabited

/-- The name of a type in messages. -/
def ValueType.name : ValueType → String
  | string => "string"
  | number => "number"

/-- A value. -/
inductive Value where
  /-- No value. -/
  | unset
  /-- A text. -/
  | string (content : String)
  /-- A number. -/
  | number (amount : Fixed)
deriving DecidableEq, Inhabited

namespace Value

/-- The type of a value that is set. -/
def type? : Value → Option ValueType
  | unset => none
  | string _ => some .string
  | number _ => some .number

/-- Whether there is no value. -/
def isUnset : Value → Bool
  | unset => true
  | _ => false

/-- The text of a value; an unset value is empty. -/
def text : Value → String
  | unset => ""
  | string s => s
  | number n => n.text

/-- The number that a value denotes. A text may have white space around its digits. -/
def toNumber : Value → Except Fault Fixed
  | unset => .error Fault.unsetValue
  | string s =>
    match Fixed.parse? (Text.trim s.toList) with
    | some n => .ok n
    | none => .error (Fault.notANumber s)
  | number n => .ok n

/-- The whole units that a value denotes. -/
def toUnits (v : Value) : Except Fault Int := v.toNumber.map Fixed.toUnits

/-- The double nearest to the number that a value denotes: the count of hundredths is rounded to a
double first and then divided. -/
def toReal (v : Value) : Except Fault Binary64 :=
  v.toNumber.map fun n => (Binary64.ofInt n.hundredths).divNat 100

/-- Whether a value counts as true: a number other than zero or a text that is not empty. -/
def isTrue : Value → Bool
  | unset => false
  | string s => s != ""
  | number n => n.hundredths != 0

end Value

/-- The number of hundredths nearest to a double, a half going away from zero. The product with
one hundred is rounded to a double first. One past the greatest count is taken for the greatest,
since doubles are too coarse there to tell them apart. -/
def Fixed.ofReal (x : Binary64) : Except Fault Fixed :=
  match x with
  | .finite .. =>
    match (x.mulNat 100).roundHalfAway with
    | some n =>
      if n < leastCount ∨ greatestCount + 1 < n then .error Fault.overflow else .ok (clamp n)
    | none => .error Fault.overflow
  | other => .error (Fault.notANumber (String.ofList (other.literal .fixture)))

/-- The remainder of two numbers, computed on doubles. -/
def Fixed.rem (a b : Fixed) : Except Fault Fixed :=
  Fixed.ofReal (((Binary64.ofInt a.hundredths).divNat 100).rem
    ((Binary64.ofInt b.hundredths).divNat 100))

namespace Value

/-- The order of values: unset ones first, then texts by their characters, then numbers. -/
def le : Value → Value → Bool
  | unset, _ => true
  | string _, unset => false
  | string s, string t => !(t < s)
  | string _, number _ => true
  | number a, number b => a.hundredths ≤ b.hundredths
  | number _, _ => false

end Value

end SignalRules
