import SignalRules.Number.Fixed

/-!
# Decimal text of fixed-point numbers

A number is read from an optional minus sign, digits, and optionally a point with digits behind
it. Digits after the second decimal only round: a third decimal of five or more moves the number
away from zero. Reading fails when the magnitude leaves the range at any point.

A number is written with as few decimals as it needs, at most two.

## Main definitions

* `Fixed.parse?`: read decimal text.
* `Fixed.digits`, `Fixed.text`: write decimal text.
-/

namespace SignalRules.Fixed

/-- The ASCII digits. -/
def isDigit (c : Char) : Bool := '0' ≤ c && c ≤ '9'

/-- The value of an ASCII digit. -/
def digitValue (c : Char) : Int := (c.toNat : Int) - 48

/-- Append one digit to a magnitude; `none` when it no longer fits. -/
def pushDigit (total digit : Int) : Option Int :=
  let next := total * 10 + digit
  if next ≤ greatestCount then some next else none

/-- Append the digits of a text to a magnitude. -/
def pushDigits (total : Int) (cs : List Char) : Option Int :=
  cs.foldlM (fun total c => pushDigit total (digitValue c)) total

/-- The first two decimals of a fraction, filled up with zeros. -/
def decimals : List Char → List Char
  | [] => ['0', '0']
  | [c] => [c, '0']
  | c :: d :: _ => [c, d]

/-- Whether the digits after the second decimal round the magnitude up. -/
def roundsUp (fraction : List Char) : Bool :=
  match fraction.drop 2 with
  | [] => false
  | c :: _ => '5' ≤ c

/-- Whether a text is a non-empty run of digits. -/
def isDigits (cs : List Char) : Bool := !cs.isEmpty && cs.all isDigit

/-- The magnitude, in hundredths, of the digits `whole` before and `fraction` behind the point. -/
def magnitude? (whole fraction : List Char) : Option Int := do
  let units ← pushDigits 0 whole
  let total ← pushDigits units (decimals fraction)
  if roundsUp fraction then
    if total + 1 ≤ greatestCount then some (total + 1) else none
  else
    some total

/-- The digits before and behind the first point; a text without a point has no second part. -/
def splitPoint (cs : List Char) : List Char × Option (List Char) :=
  match cs.dropWhile (· != '.') with
  | [] => (cs, none)
  | _ :: fraction => (cs.takeWhile (· != '.'), some fraction)

/-- Read the magnitude of an unsigned decimal text. -/
def unsigned? (cs : List Char) : Option Int :=
  match splitPoint cs with
  | (whole, none) => if isDigits whole then magnitude? whole [] else none
  | (whole, some fraction) =>
    if isDigits whole && isDigits fraction then magnitude? whole fraction else none

/-- Read a number from its decimal text. -/
def parse? : List Char → Option Fixed
  | '-' :: cs => (unsigned? cs).bind fun m => ofInt? (-m)
  | cs => (unsigned? cs).bind ofInt?

/-- The decimals of a count of hundredths below one unit, without trailing zeros. -/
def fractionDigits (hundredths : Nat) : List Char :=
  if hundredths = 0 then []
  else if hundredths % 10 = 0 then '.' :: Nat.toDigits 10 (hundredths / 10)
  else '.' :: (Nat.toDigits 10 (hundredths / 10) ++ Nat.toDigits 10 (hundredths % 10))

/-- The decimal text of a number, as characters. -/
def digits (n : Fixed) : List Char :=
  let size := n.hundredths.natAbs
  let body := Nat.toDigits 10 (size / 100) ++ fractionDigits (size % 100)
  if n.hundredths < 0 then '-' :: body else body

/-- The decimal text of a number. -/
def text (n : Fixed) : String := String.ofList n.digits

end SignalRules.Fixed
