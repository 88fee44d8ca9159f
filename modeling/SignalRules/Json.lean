import SignalRules.Number.Binary64

/-!
# JSON values

Numbers are kept as they were written as far as it matters: whole numbers that fit a machine word
stay whole, and all others are the nearest double. Objects keep every field in order, also fields
of the same name.

## Main definitions

* `Json`, and `Json.ofInteger` for a whole-number literal.
* `Json.field?`: the last field of a name in an object.
-/

namespace SignalRules

/-- A JSON value. -/
inductive Json where
  | null
  | bool (value : Bool)
  /-- A whole number that fits a machine word. -/
  | integer (value : Int)
  /-- Any other number. -/
  | real (value : Binary64)
  | string (content : String)
  | array (items : List Json)
  | object (fields : List (String × Json))
deriving Inhabited

namespace Json

/-- The least whole number that fits a machine word with a sign. -/
def leastInteger : Int := -9223372036854775808

/-- The greatest whole number that fits a machine word without a sign. -/
def greatestInteger : Int := 18446744073709551615

/-- The number of a whole-number literal. A zero with a minus sign is a double, since only doubles
tell it from zero. -/
def ofInteger (negative : Bool) (magnitude : Nat) : Json :=
  let n : Int := if negative then -(magnitude : Int) else magnitude
  if (negative && magnitude == 0) || n < leastInteger || greatestInteger < n then
    real (Binary64.ofDecimal negative magnitude 0)
  else integer n

/-- The last field of a name in an object. -/
def field? (j : Json) (name : String) : Option Json :=
  match j with
  | object fields => fields.reverse.lookup name
  | _ => none

/-- A string's content. -/
def string? : Json → Option String
  | string s => some s
  | _ => none

/-- The items of an array. -/
def array? : Json → Option (List Json)
  | array items => some items
  | _ => none

/-- A whole number. -/
def integer? : Json → Option Int
  | integer n => some n
  | _ => none

/-- A truth value. -/
def bool? : Json → Option Bool
  | bool b => some b
  | _ => none

/-- The fields of an object. -/
def object? : Json → Option (List (String × Json))
  | object fields => some fields
  | _ => none

end Json

end SignalRules
