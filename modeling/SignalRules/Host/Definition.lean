import SignalRules.Arity
import SignalRules.Value

/-!
# What a host declares

A host declares *signals*, which hold a value that changes; *actions*, which take arguments; and
*properties*, which hold one value or a collection. A validator limits the values of a signal or
of an argument.

## Main definitions

* `Validator`, `Validator.check`.
* `Signal`, `Action`, `Parameter`, `Property`, `Shape`.
* `Contents`: what a property holds, with `Contents.elements` and `Contents.single`.
-/

namespace SignalRules

/-- A limit on values. -/
inductive Validator where
  /-- Every value is accepted. -/
  | any
  /-- Numbers from `least` to `greatest`. -/
  | range (least greatest : Fixed)
  /-- Texts with at least one character. -/
  | nonEmpty
  /-- The listed values only. -/
  | oneOf (values : List Value)
  /-- A check that the host supplies. -/
  | custom (check : Value → Except Fault Unit)

namespace Validator

instance : Inhabited Validator := ⟨any⟩

/-- A range given in whole units. -/
def ofUnits (least greatest : Int) : Validator :=
  range (Fixed.ofUnits least) (Fixed.ofUnits greatest)

/-- Whether a value is acceptable for `subject`; an unset value always is. -/
def check (validator : Validator) (subject : String) (value : Value) : Except Fault Unit :=
  if value.isUnset then .ok ()
  else
    match validator with
    | any => .ok ()
    | range least greatest => do
      let n ← value.toNumber
      if least ≤ n ∧ n ≤ greatest then .ok ()
      else .error (Fault.outOfBounds n.text least.text greatest.text)
    | nonEmpty => if value.text = "" then .error (Fault.valueEmpty subject) else .ok ()
    | oneOf values =>
      if values.contains value then .ok () else .error (Fault.notAllowed value.text subject)
    | custom check => check value

end Validator

/-- The declaration of a signal. -/
structure Signal where
  /-- The name in expressions. -/
  name : String
  /-- The name shown to people. -/
  display : String
  /-- The type of its values. -/
  type : ValueType
  /-- The limit on its values. -/
  validator : Validator
  /-- The values that it can be compared with, if they are limited. -/
  options : Option (List Value)
  /-- Outdated literals with the values that stand for them now. -/
  legacy : List (Value × Value)

namespace Signal

/-- The declaration with nothing but a name and a type. -/
def plain (name : String) (type : ValueType) : Signal := ⟨name, name, type, .any, none, []⟩

/-- The value that stands for an outdated literal; the first entry counts. -/
def modern? (s : Signal) (literal : Value) : Option Value := s.legacy.lookup literal

/-- Whether the signal can be compared with a literal. -/
def allows (s : Signal) (literal : Value) : Bool :=
  match s.options with
  | none => true
  | some options => options.contains literal

end Signal

/-- A parameter of an action. -/
structure Parameter where
  /-- The name. -/
  name : String
  /-- The type of the argument. -/
  type : ValueType
  /-- The limit on the argument. -/
  validator : Validator

/-- The declaration of an action. -/
structure Action where
  /-- The name in expressions. -/
  name : String
  /-- The name shown to people. -/
  display : String
  /-- The parameters. -/
  parameters : List Parameter
  /-- The parameter for any further arguments, if there can be some. -/
  variadic : Option Parameter
  /-- The template for descriptions. -/
  template : Option String

namespace Action

/-- The declaration with nothing but a name. -/
def plain (name : String) : Action := ⟨name, name, [], none, none⟩

/-- The number of arguments. -/
def arity (a : Action) : Arity :=
  match a.variadic with
  | some _ => .atLeast a.parameters.length
  | none => .exactly a.parameters.length

/-- The parameter for the argument at an index. -/
def parameter? (a : Action) (index : Nat) : Option Parameter :=
  match a.parameters[index]? with
  | some p => some p
  | none => a.variadic

end Action

/-- The shapes of properties. -/
inductive Shape where
  /-- One value. -/
  | scalar
  /-- Values in an order that counts. -/
  | sequence
  /-- Values whose order does not count. -/
  | unordered
deriving DecidableEq, Inhabited

/-- Whether a shape holds several values. -/
def Shape.isCollection : Shape → Bool
  | scalar => false
  | _ => true

/-- The declaration of a property. -/
structure Property where
  /-- The dotted reference to it. -/
  reference : String
  /-- The name shown to people. -/
  display : String
  /-- The type of its values. -/
  type : ValueType
  /-- Its shape. -/
  shape : Shape
deriving DecidableEq, Inhabited

/-- What a property holds. -/
inductive Contents where
  | scalar (value : Value)
  | sequence (values : List Value)
  | unordered (values : List Value)
deriving DecidableEq, Inhabited

namespace Contents

/-- The values held, sorted if their order does not count. -/
def elements : Contents → List Value
  | scalar v => [v]
  | sequence vs => vs
  | unordered vs => vs.mergeSort Value.le

/-- The contents as one value; a collection becomes the text of its elements. -/
def single : Contents → Value
  | scalar v => v
  | collection => .string (Text.join ", " (collection.elements.map Value.text))

end Contents

end SignalRules
