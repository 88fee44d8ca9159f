/-!
# Fixed-point numbers

A number of the language has two decimals. It is kept as a whole count of hundredths that fits a
signed 64-bit word, so equality never sees rounding drift. Operations compute in the integers and
then ask whether the result still fits.

## Main definitions

* `Fixed`: a count of hundredths in range.
* `Fixed.ofInt?`: the number with a given count, if it fits.
* `Fixed.clamp`: the number with a given count, moved to the nearer end of the range if it does
  not fit.
* `Fixed.add?`, `Fixed.sub?`, `Fixed.mul?`, `Fixed.div?`, `Fixed.neg?`, `Fixed.round?`: the
  arithmetic, failing outside the range.
-/

namespace SignalRules

/-- The number of hundredths in one whole unit. -/
def unitScale : Int := 100

/-- The least count of hundredths. -/
def leastCount : Int := -9223372036854775808

/-- The greatest count of hundredths. -/
def greatestCount : Int := 9223372036854775807

/-- A number with two decimals: a count of hundredths in the signed 64-bit range. -/
structure Fixed where
  /-- The number times one hundred. -/
  hundredths : Int
  /-- The count is not below the range. -/
  least_le : leastCount ≤ hundredths
  /-- The count is not above the range. -/
  le_greatest : hundredths ≤ greatestCount
deriving DecidableEq

namespace Fixed

/-- The number with count `n`, if it fits. -/
def ofInt? (n : Int) : Option Fixed :=
  if h : leastCount ≤ n ∧ n ≤ greatestCount then some ⟨n, h.1, h.2⟩ else none

/-- The number with count `n`; a count out of range becomes the nearer end of it. -/
def clamp (n : Int) : Fixed :=
  if hl : n < leastCount then ⟨leastCount, Int.le_refl _, by decide⟩
  else if hg : greatestCount < n then ⟨greatestCount, by decide, Int.le_refl _⟩
  else ⟨n, Int.not_lt.1 hl, Int.not_lt.1 hg⟩

instance : Inhabited Fixed := ⟨clamp 0⟩

instance : OfNat Fixed 0 := ⟨clamp 0⟩

/-- The number of `units` whole units, moved into the range if it does not fit. -/
def ofUnits (units : Int) : Fixed := clamp (units * unitScale)

/-- The whole units of a number; the decimals are dropped. -/
def toUnits (n : Fixed) : Int := n.hundredths.tdiv unitScale

instance : LT Fixed := ⟨fun a b => a.hundredths < b.hundredths⟩

instance : LE Fixed := ⟨fun a b => a.hundredths ≤ b.hundredths⟩

instance (a b : Fixed) : Decidable (a < b) := Int.decLt a.hundredths b.hundredths

instance (a b : Fixed) : Decidable (a ≤ b) := Int.decLe a.hundredths b.hundredths

@[simp] theorem ofInt?_hundredths (n : Fixed) : ofInt? n.hundredths = some n := by
  simp [ofInt?, n.least_le, n.le_greatest]

theorem ofInt?_eq_some_iff {n : Int} {x : Fixed} : ofInt? n = some x ↔ x.hundredths = n := by
  constructor
  · intro h
    unfold ofInt? at h
    split at h
    · simp only [Option.some.injEq] at h
      subst h
      rfl
    · simp at h
  · intro h
    subst h
    simp

theorem ofInt?_eq_none_iff {n : Int} :
    ofInt? n = none ↔ n < leastCount ∨ greatestCount < n := by
  unfold ofInt?
  split
  · next h =>
    simp only [reduceCtorEq, false_iff, not_or, Int.not_lt]
    exact h
  · next h =>
    simp only [true_iff]
    omega

/-! ### Arithmetic -/

/-- The sum. -/
def add? (a b : Fixed) : Option Fixed := ofInt? (a.hundredths + b.hundredths)

/-- The difference. -/
def sub? (a b : Fixed) : Option Fixed := ofInt? (a.hundredths - b.hundredths)

/-- The negative. -/
def neg? (a : Fixed) : Option Fixed := ofInt? (-a.hundredths)

/-- The product, cut off after two decimals. -/
def mul? (a b : Fixed) : Option Fixed :=
  ofInt? ((a.hundredths * b.hundredths).tdiv unitScale)

/-- The quotient, cut off after two decimals. The divisor is not zero where this is called. -/
def div? (a b : Fixed) : Option Fixed :=
  ofInt? ((a.hundredths * unitScale).tdiv b.hundredths)

/-- The nearest whole number of units; a half goes away from zero. -/
def round? (a : Fixed) : Option Fixed :=
  let whole := a.hundredths.tdiv unitScale
  let rest := a.hundredths.tmod unitScale
  if unitScale ≤ 2 * rest.natAbs then ofInt? ((whole + rest.sign) * unitScale)
  else ofInt? (whole * unitScale)

/-- The sum of a list, added from the left; it fails as soon as a partial sum does not fit. -/
def sum? (ns : List Fixed) : Option Fixed :=
  ns.foldlM add? 0

/-- The smaller of two numbers. -/
def min (a b : Fixed) : Fixed := if b < a then b else a

/-- The larger of two numbers. -/
def max (a b : Fixed) : Fixed := if a < b then b else a

end Fixed

end SignalRules
