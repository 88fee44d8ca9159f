/-!
# Binary floating-point numbers in exact arithmetic

A double of 64 bits is a sign, a whole number below `2 ^ 53` and a power of two. Everything here
is computed on these parts in exact integer arithmetic: rounding a ratio to the nearest double,
the remainder of two doubles, rounding to a whole number, and the shortest decimal digits that
read back as the same double.

## Main definitions

* `Binary64`: the doubles; `Binary64.ofBits`, `Binary64.toBits` for the 64-bit pattern.
* `Binary64.ofRatio`: the double nearest to a ratio, a tie going to the even neighbour.
* `Binary64.ofDecimal`: the double nearest to a decimal literal.
* `Binary64.rem`: the remainder with the sign of the dividend.
* `Binary64.roundHalfAway`: the nearest whole number.
* `Binary64.shortest`: the fewest decimal digits that identify the double.
* `Binary64.literal`: the decimal literal of a double.
-/

namespace SignalRules

/-- A 64-bit floating-point number. -/
inductive Binary64 where
  /-- Not a number. -/
  | nan
  /-- An infinity. -/
  | infinite (negative : Bool)
  /-- The number `± mantissa * 2 ^ exponent`. -/
  | finite (negative : Bool) (mantissa : Nat) (exponent : Int)
deriving DecidableEq, Inhabited

namespace Binary64

/-- The exponent of the smallest doubles. -/
def leastExponent : Int := -1074

/-- The exponent of the largest doubles. -/
def greatestExponent : Int := 971

/-- The number of bits of a mantissa. -/
def precision : Nat := 53

/-- Read the 64-bit pattern of a double. -/
def ofBits (bits : Nat) : Binary64 :=
  let negative := bits / Nat.pow 2 63 % 2 == 1
  let field : Nat := bits / Nat.pow 2 52 % Nat.pow 2 11
  let fraction : Nat := bits % Nat.pow 2 52
  if field = 2047 then
    if fraction = 0 then infinite negative else nan
  else if field = 0 then finite negative fraction leastExponent
  else finite negative (Nat.pow 2 52 + fraction) ((field : Int) - 1075)

/-- The 64-bit pattern of a double. -/
def toBits : Binary64 → Nat
  | nan => 2047 * Nat.pow 2 52 + Nat.pow 2 51
  | infinite negative => (if negative then Nat.pow 2 63 else 0) + 2047 * Nat.pow 2 52
  | finite negative mantissa exponent =>
    let sign := if negative then Nat.pow 2 63 else 0
    if mantissa < Nat.pow 2 52 then sign + mantissa
    else sign + (exponent + 1075).toNat * Nat.pow 2 52 + (mantissa - Nat.pow 2 52)

/-- The ratio `num / den` divided by `2 ^ exponent`, as a ratio of natural numbers. -/
def scaled (num den : Nat) (exponent : Int) : Nat × Nat :=
  if exponent < 0 then (num * Nat.pow 2 (-exponent).toNat, den)
  else (num, den * Nat.pow 2 exponent.toNat)

/-- The whole number nearest to `num / den`, a tie going to the even one. -/
def nearestEven (num den : Nat) : Nat :=
  let quotient := num / den
  let twice := 2 * (num % den)
  if twice < den then quotient
  else if den < twice then quotient + 1
  else if quotient % 2 = 0 then quotient else quotient + 1

/-- The exponent at which `num / den` has a mantissa of full length. -/
def fittingExponent (num den : Nat) : Int :=
  let guess : Int := (num.log2 : Int) - (den.log2 : Int) - (precision : Int)
  let ratio := scaled num den guess
  if Nat.pow 2 precision * ratio.2 ≤ ratio.1 then guess + 1 else guess

/-- The double nearest to `± num / den`, a tie going to the even mantissa. -/
def ofRatio (negative : Bool) (num den : Nat) : Binary64 :=
  if num = 0 then finite negative 0 leastExponent
  else
    let exponent := max (fittingExponent num den) leastExponent
    let ratio := scaled num den exponent
    let mantissa := nearestEven ratio.1 ratio.2
    let carried := mantissa = Nat.pow 2 precision
    let mantissa := if carried then Nat.pow 2 52 else mantissa
    let exponent := if carried then exponent + 1 else exponent
    if greatestExponent < exponent then infinite negative else finite negative mantissa exponent

/-- The double nearest to a whole number. -/
def ofInt (n : Int) : Binary64 := ofRatio (n < 0) n.natAbs 1

/-- The double nearest to `± digits * 10 ^ exponent`. The two early answers keep the power of ten
small: from `10 ^ 310` on every number is infinite, and below `10 ^ (-330)` every number is zero. -/
def ofDecimal (negative : Bool) (digits : Nat) (exponent : Int) : Binary64 :=
  let size : Int := (Nat.toDigits 10 digits).length + exponent
  if digits = 0 || size < -330 then finite negative 0 leastExponent
  else if 310 < size then infinite negative
  else if exponent < 0 then ofRatio negative digits (Nat.pow 10 (-exponent).toNat)
  else ofRatio negative (digits * Nat.pow 10 exponent.toNat) 1

/-- A finite magnitude `mantissa * 2 ^ exponent` as a ratio. -/
def ratio (mantissa : Nat) (exponent : Int) : Nat × Nat :=
  if exponent < 0 then (mantissa, Nat.pow 2 (-exponent).toNat)
  else (mantissa * Nat.pow 2 exponent.toNat, 1)

/-- The quotient of a double and a positive whole number. -/
def divNat (x : Binary64) (divisor : Nat) : Binary64 :=
  match x with
  | finite negative mantissa exponent =>
    let r := ratio mantissa exponent
    ofRatio negative r.1 (r.2 * divisor)
  | other => other

/-- The product of a double and a positive whole number. -/
def mulNat (x : Binary64) (factor : Nat) : Binary64 :=
  match x with
  | finite negative mantissa exponent =>
    let r := ratio mantissa exponent
    ofRatio negative (r.1 * factor) r.2
  | other => other

/-- The remainder of two doubles, with the sign of the first; it is exact. -/
def rem : Binary64 → Binary64 → Binary64
  | finite negative m e, finite _ n f =>
    if n = 0 then nan
    else
      let a := ratio m e
      let b := ratio n f
      let r := (a.1 * b.2) % (b.1 * a.2)
      ofRatio negative r (a.2 * b.2)
  | finite negative m e, infinite _ => finite negative m e
  | _, _ => nan

/-- The nearest whole number, a half going away from zero; `none` if the double is not finite. -/
def roundHalfAway : Binary64 → Option Int
  | finite negative mantissa exponent =>
    let r := ratio mantissa exponent
    let whole := (2 * r.1 + r.2) / (2 * r.2)
    some (if negative then -(whole : Int) else whole)
  | _ => none

/-! ### Shortest decimal digits -/

/-- The numbers that round to one double, as an interval of ratios with a common denominator. -/
structure Interval where
  /-- The lower end, over `den`. -/
  low : Nat
  /-- The double itself, over `den`. -/
  mid : Nat
  /-- The upper end, over `den`. -/
  high : Nat
  /-- The common denominator. -/
  den : Nat
  /-- Whether the ends belong to the interval. -/
  closed : Bool

/-- The interval of the positive double `mantissa * 2 ^ exponent`. Below a power of two the
doubles are twice as dense, so the interval reaches only half as far there. -/
def interval (mantissa : Nat) (exponent : Int) : Interval :=
  let r := ratio 1 exponent
  let below := if mantissa = Nat.pow 2 52 && leastExponent < exponent then 1 else 2
  { low := (4 * mantissa - below) * r.1
    mid := 4 * mantissa * r.1
    high := (4 * mantissa + 2) * r.1
    den := 4 * r.2
    closed := mantissa % 2 == 0 }

/-- Whether `count * 10 ^ power` lies in the interval. -/
def Interval.holds (i : Interval) (count : Nat) (power : Int) : Bool :=
  let point := if power < 0 then count * i.den else count * Nat.pow 10 power.toNat * i.den
  let scale := if power < 0 then Nat.pow 10 (-power).toNat else 1
  if i.closed then i.low * scale ≤ point && point ≤ i.high * scale
  else i.low * scale < point && point < i.high * scale

/-- The middle of the interval divided by `10 ^ power`, as a ratio. -/
def Interval.atPower (i : Interval) (power : Int) : Nat × Nat :=
  if power < 0 then (i.mid * Nat.pow 10 (-power).toNat, i.den)
  else (i.mid, i.den * Nat.pow 10 power.toNat)

/-- The multiple of `10 ^ power` in the interval that is nearest to its middle, if there is one; a
tie goes to the even count. -/
def Interval.candidate? (i : Interval) (power : Int) : Option Nat :=
  let r := i.atPower power
  let nearest := nearestEven r.1 r.2
  let floor := r.1 / r.2
  let other := if nearest = floor then floor + 1 else floor
  if i.holds nearest power then some nearest
  else if i.holds other power then some other
  else none

/-- Look for a candidate at ever finer powers of ten. -/
def Interval.search (i : Interval) : (steps : Nat) → (power : Int) → Nat × Int
  | 0, power => ((i.atPower power).1 / (i.atPower power).2, power)
  | steps + 1, power =>
    match i.candidate? power with
    | some count => (count, power)
    | none => i.search steps (power - 1)

/-- Drop trailing zeros of a decimal count; `steps` bounds how many. -/
def dropZeros : (steps count : Nat) → (power : Int) → Nat × Int
  | 0, count, power => (count, power)
  | steps + 1, count, power =>
    if count ≠ 0 ∧ count % 10 = 0 then dropZeros steps (count / 10) (power + 1) else (count, power)

/-- The fewest decimal digits that identify a positive double: a count without trailing zeros and
a power of ten. The search starts above the double and needs at most seventeen digits. -/
def shortest (mantissa : Nat) (exponent : Int) : Nat × Int :=
  let i := interval mantissa exponent
  let above : Int := ((i.mid / i.den).log2 : Int) * 4 / 13 + 1
  let start : Int := if i.mid < i.den then 0 else above
  let found := i.search 700 start
  dropZeros 20 found.1 found.2

/-- The powers of ten, from the first to the last, of a leading digit that is written without an
exponent. -/
structure LiteralStyle where
  /-- The least power written out. -/
  least : Int
  /-- The greatest power written out. -/
  greatest : Int

/-- Fixture numbers are written out from `0.00001` up to sixteen whole digits. -/
def LiteralStyle.fixture : LiteralStyle := ⟨-5, 15⟩

/-- The decimal literal of a positive count of powers of ten. -/
def positional (style : LiteralStyle) (count : Nat) (power : Int) : List Char :=
  let digits := Nat.toDigits 10 count
  let length : Int := digits.length
  let lead := length + power - 1
  if style.least ≤ lead ∧ lead ≤ style.greatest then
    if 0 ≤ power then digits ++ List.replicate power.toNat '0' ++ ['.', '0']
    else if 0 ≤ lead then
      digits.take (lead + 1).toNat ++ '.' :: digits.drop (lead + 1).toNat
    else '0' :: '.' :: (List.replicate (-lead - 1).toNat '0' ++ digits)
  else
    let fraction := if digits.length ≤ 1 then [] else '.' :: digits.drop 1
    let sign := if lead < 0 then ['-'] else []
    digits.take 1 ++ fraction ++ 'e' :: (sign ++ Nat.toDigits 10 lead.natAbs)

/-- The decimal literal of a double: the shortest digits, with a point if written out. -/
def literal (style : LiteralStyle) : Binary64 → List Char
  | nan => "NaN".toList
  | infinite negative => if negative then "-inf".toList else "inf".toList
  | finite negative mantissa exponent =>
    let body :=
      if mantissa = 0 then "0.0".toList
      else
        let found := shortest mantissa exponent
        positional style found.1 found.2
    if negative then '-' :: body else body

end Binary64

end SignalRules
