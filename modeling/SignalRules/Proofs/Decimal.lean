import Mathlib.Data.Int.Cast.Basic
import Mathlib.Data.List.TakeWhile
import SignalRules.Number.Decimal

/-!
# Reading written numbers

Reading digits from the left computes the number that they denote, as long as it fits. A number
that was read is not the least one, since its magnitude has to fit first; every other number is
read back from its decimal text.

## Main definitions

* `Fixed.roundedCount`: the count of hundredths that digits stand for.

## Main results

* `Fixed.magnitude?_eq`: digits have the magnitude that they stand for, as long as it fits.
* `Fixed.hundredths_ne_of_parse?`: the least number is never read.
* `Fixed.parse?_digits`: every other number is read back.
-/

namespace SignalRules.Fixed

theorem isDigit_eq (c : Char) : isDigit c = c.isDigit := rfl

theorem digitValue_eq {c : Char} (h : isDigit c) :
    digitValue c = ((c.toNat - '0'.toNat : Nat) : Int) := by
  have hle : 48 ≤ c.toNat := by
    simp only [isDigit, Bool.and_eq_true, decide_eq_true_eq] at h
    exact h.1
  have hzero : '0'.toNat = 48 := rfl
  rw [digitValue, hzero]
  omega

/-- More digits denote a larger number. -/
theorem le_ofDigitChars (cs : List Char) (total : Nat) :
    total ≤ Nat.ofDigitChars 10 cs total := by
  rw [Nat.ofDigitChars_eq_ofDigitChars_zero]
  have hpos : 0 < 10 ^ cs.length := Nat.pow_pos (by decide)
  have hmul := Nat.le_mul_of_pos_left total hpos
  omega

/-- Digits are appended to a magnitude as long as the result fits. -/
theorem pushDigits_eq {cs : List Char} (hcs : ∀ c ∈ cs, isDigit c) (total : Nat)
    (htotal : (total : Int) ≤ greatestCount) :
    pushDigits total cs =
      if (Nat.ofDigitChars 10 cs total : Int) ≤ greatestCount then
        some (Nat.ofDigitChars 10 cs total : Int)
      else none := by
  induction cs generalizing total with
  | nil => simp [pushDigits, htotal]
  | cons c cs ih =>
    have hnext : (total : Int) * 10 + digitValue c =
        ((10 * total + (c.toNat - '0'.toNat) : Nat) : Int) := by
      rw [digitValue_eq (hcs c (by simp))]
      push_cast
      omega
    have hrest : ∀ d ∈ cs, isDigit d := fun d hd => hcs d (List.mem_cons_of_mem _ hd)
    rw [Nat.ofDigitChars_cons, pushDigits, List.foldlM_cons, pushDigit, hnext]
    by_cases hfits : ((10 * total + (c.toNat - '0'.toNat) : Nat) : Int) ≤ greatestCount
    · simp only [if_pos hfits]
      exact ih hrest _ hfits
    · have hlarge := le_ofDigitChars cs (10 * total + (c.toNat - '0'.toNat))
      rw [if_neg hfits, if_neg (by omega)]
      rfl

theorem forall_of_isDigits {cs : List Char} (h : isDigits cs) : ∀ c ∈ cs, isDigit c := by
  simp only [isDigits, Bool.and_eq_true, List.all_eq_true] at h
  exact h.2

theorem forall_decimals {cs : List Char} (h : ∀ c ∈ cs, isDigit c) :
    ∀ c ∈ decimals cs, isDigit c := by
  have hzero : isDigit '0' := by decide
  rcases cs with _ | ⟨c, _ | ⟨d, cs⟩⟩ <;> simp_all [decimals]

theorem length_decimals (cs : List Char) : (decimals cs).length = 2 := by
  rcases cs with _ | ⟨c, _ | ⟨d, cs⟩⟩ <;> rfl

/-- The count of hundredths that digits before and behind the point stand for: those up to the
second decimal, and one more if the next ones round up. -/
def roundedCount (whole fraction : List Char) : Nat :=
  Nat.ofDigitChars 10 (whole ++ decimals fraction) 0 + (roundsUp fraction).toNat

/-- Digits have the magnitude that they stand for, as long as it fits. -/
theorem magnitude?_eq {whole fraction : List Char} (hw : ∀ c ∈ whole, isDigit c)
    (hf : ∀ c ∈ fraction, isDigit c) :
    magnitude? whole fraction =
      if (roundedCount whole fraction : Int) ≤ greatestCount then
        some (roundedCount whole fraction : Int)
      else none := by
  have hunits : pushDigits 0 whole = _ := pushDigits_eq hw 0 (by decide)
  have hle := le_ofDigitChars (decimals fraction) (Nat.ofDigitChars 10 whole 0)
  rw [magnitude?, hunits, roundedCount, Nat.ofDigitChars_append]
  by_cases hwhole : (Nat.ofDigitChars 10 whole 0 : Int) ≤ greatestCount
  swap
  · rw [if_neg hwhole, if_neg (by omega)]
    rfl
  simp only [if_pos hwhole, Option.bind_eq_bind, Option.bind_some]
  rw [pushDigits_eq (forall_decimals hf) _ hwhole]
  generalize Nat.ofDigitChars 10 (decimals fraction) (Nat.ofDigitChars 10 whole 0) = total
  by_cases htotal : (total : Int) ≤ greatestCount
  swap
  · rw [if_neg htotal, if_neg (by omega)]
    rfl
  simp only [if_pos htotal, Option.bind_some]
  cases roundsUp fraction with
  | false => simp [htotal]
  | true => simp

/-- The magnitude of digits is a natural number in range. -/
theorem magnitude?_bounds {whole fraction : List Char} (hw : ∀ c ∈ whole, isDigit c)
    (hf : ∀ c ∈ fraction, isDigit c) {m : Int} (h : magnitude? whole fraction = some m) :
    0 ≤ m ∧ m ≤ greatestCount := by
  rw [magnitude?_eq hw hf] at h
  split_ifs at h with hfits
  cases h
  exact ⟨Int.natCast_nonneg _, hfits⟩

theorem unsigned?_bounds {cs : List Char} {m : Int} (h : unsigned? cs = some m) :
    0 ≤ m ∧ m ≤ greatestCount := by
  unfold unsigned? at h
  split at h
  · split_ifs at h with hw
    exact magnitude?_bounds (forall_of_isDigits hw) (by simp) h
  · split_ifs at h with hdigits
    rw [Bool.and_eq_true] at hdigits
    exact magnitude?_bounds (forall_of_isDigits hdigits.1) (forall_of_isDigits hdigits.2) h

/-- The least number is never read: its magnitude is out of range. -/
theorem hundredths_ne_of_parse? {cs : List Char} {n : Fixed} (h : parse? cs = some n) :
    n.hundredths ≠ leastCount := by
  unfold parse? at h
  split at h
  all_goals
    obtain ⟨m, hm, h⟩ := Option.bind_eq_some_iff.1 h
    obtain ⟨hpos, hle⟩ := unsigned?_bounds hm
    rw [ofInt?_eq_some_iff.1 h]
    simp only [leastCount, greatestCount] at hle ⊢
    omega

/-! ### Written numbers -/

theorem isDigit_of_mem_toDigits {k : Nat} {c : Char} (h : c ∈ Nat.toDigits 10 k) : isDigit c := by
  rw [isDigit_eq]
  exact Nat.isDigit_of_mem_toDigits (by decide) (by decide) h

theorem isDigits_toDigits (k : Nat) : isDigits (Nat.toDigits 10 k) := by
  simp only [isDigits, Bool.and_eq_true, List.all_eq_true]
  exact ⟨by simp, fun c hc => isDigit_of_mem_toDigits hc⟩

theorem ne_point_of_isDigit {c : Char} (h : isDigit c) : (c != '.') = true := by
  rw [bne_iff_ne]
  rintro rfl
  revert h
  decide

/-- Digits without a point have no fraction. -/
theorem splitPoint_digits {cs : List Char} (h : ∀ c ∈ cs, isDigit c) :
    splitPoint cs = (cs, none) := by
  have hdrop : cs.dropWhile (· != '.') = [] :=
    List.dropWhile_eq_nil_iff.2 fun c hc => ne_point_of_isDigit (h c hc)
  simp [splitPoint, hdrop]

/-- The first point divides the digits. -/
theorem splitPoint_point {cs : List Char} (h : ∀ c ∈ cs, isDigit c) (fraction : List Char) :
    splitPoint (cs ++ '.' :: fraction) = (cs, some fraction) := by
  have hcs : ∀ c ∈ cs, (c != '.') = true := fun c hc => ne_point_of_isDigit (h c hc)
  have hdrop : (cs ++ '.' :: fraction).dropWhile (· != '.') = '.' :: fraction := by
    rw [List.dropWhile_append_of_pos hcs]
    rfl
  have htake : (cs ++ '.' :: fraction).takeWhile (· != '.') = cs := by
    rw [List.takeWhile_append_of_pos hcs]
    simp
  simp [splitPoint, hdrop, htake]

/-- A fraction below one unit is written as a point and its one or two decimals. -/
theorem fractionDigits_eq : ∀ k < 100, 0 < k →
    fractionDigits k = '.' :: (fractionDigits k).tail ∧ isDigits (fractionDigits k).tail ∧
      (fractionDigits k).tail.length ≤ 2 ∧
      Nat.ofDigitChars 10 (decimals (fractionDigits k).tail) 0 = k := by
  decide

/-- Without a third decimal, two decimals follow the digits of the whole units. -/
theorem roundedCount_toDigits (k : Nat) {fraction : List Char} (h : fraction.length ≤ 2) :
    roundedCount (Nat.toDigits 10 k) fraction =
      100 * k + Nat.ofDigitChars 10 (decimals fraction) 0 := by
  have hround : roundsUp fraction = false := by
    rw [roundsUp, List.drop_eq_nil_of_le h]
  rw [roundedCount, hround, Nat.ofDigitChars_append, Nat.ofDigitChars_ten_toDigits,
    Nat.ofDigitChars_eq_ofDigitChars_zero, length_decimals]
  rfl

/-- The digits of a count of hundredths denote the count. -/
theorem unsigned?_digits {size : Nat} (h : (size : Int) ≤ greatestCount) :
    unsigned? (Nat.toDigits 10 (size / 100) ++ fractionDigits (size % 100)) =
      some (size : Int) := by
  have hwhole := isDigits_toDigits (size / 100)
  have hdigits := forall_of_isDigits hwhole
  have hsize : 100 * (size / 100) + size % 100 = size := Nat.div_add_mod size 100
  rcases Nat.eq_zero_or_pos (size % 100) with hzero | hpos
  · have hcount : roundedCount (Nat.toDigits 10 (size / 100)) [] = size := by
      rw [roundedCount_toDigits _ (by simp),
        show Nat.ofDigitChars 10 (decimals []) 0 = 0 by decide, ← hzero, hsize]
    rw [hzero, fractionDigits, if_pos rfl, List.append_nil, unsigned?, splitPoint_digits hdigits]
    simp only [hwhole, if_true]
    rw [magnitude?_eq hdigits (by simp), hcount, if_pos h]
  · obtain ⟨hpoint, hfraction, hlength, hvalue⟩ :=
      fractionDigits_eq (size % 100) (Nat.mod_lt _ (by decide)) hpos
    generalize (fractionDigits (size % 100)).tail = fraction at *
    have hcount : roundedCount (Nat.toDigits 10 (size / 100)) fraction = size := by
      rw [roundedCount_toDigits _ hlength, hvalue, hsize]
    rw [hpoint, unsigned?, splitPoint_point hdigits]
    simp only [hwhole, hfraction, Bool.and_self, if_true]
    rw [magnitude?_eq hdigits (forall_of_isDigits hfraction), hcount, if_pos h]

/-- The decimal text of a number without its sign. -/
def magnitudeDigits (n : Fixed) : List Char :=
  Nat.toDigits 10 (n.hundredths.natAbs / 100) ++ fractionDigits (n.hundredths.natAbs % 100)

theorem digits_eq (n : Fixed) :
    n.digits = if n.hundredths < 0 then '-' :: n.magnitudeDigits else n.magnitudeDigits := rfl

theorem forall_fractionDigits {k : Nat} (hk : k < 100) :
    ∀ c ∈ fractionDigits k, isDigit c ∨ c = '.' := by
  rcases Nat.eq_zero_or_pos k with rfl | hpos
  · simp [fractionDigits]
  · obtain ⟨hpoint, hdigits, -⟩ := fractionDigits_eq k hk hpos
    rw [hpoint]
    exact List.forall_mem_cons.2 ⟨.inr rfl, fun c hc => .inl (forall_of_isDigits hdigits c hc)⟩

/-- A number is written in digits and at most one point, apart from its sign. -/
theorem forall_magnitudeDigits (n : Fixed) : ∀ c ∈ n.magnitudeDigits, isDigit c ∨ c = '.' := by
  intro c hc
  rcases List.mem_append.1 hc with hc | hc
  · exact .inl (isDigit_of_mem_toDigits hc)
  · exact forall_fractionDigits (Nat.mod_lt _ (by decide)) c hc

theorem magnitudeDigits_eq_cons (n : Fixed) :
    ∃ c cs, n.magnitudeDigits = c :: cs ∧ isDigit c := by
  rcases hdigits : Nat.toDigits 10 (n.hundredths.natAbs / 100) with _ | ⟨c, cs⟩
  · exact absurd hdigits Nat.toDigits_ne_nil
  · have hc := isDigit_of_mem_toDigits (hdigits ▸ List.mem_cons_self)
    exact ⟨c, cs ++ fractionDigits (n.hundredths.natAbs % 100), by
      rw [magnitudeDigits, hdigits, List.cons_append], hc⟩

/-- A text that starts with digits has no sign. -/
theorem parse?_of_isDigits {cs : List Char} (h : isDigits cs) (rest : List Char) :
    parse? (cs ++ rest) = (unsigned? (cs ++ rest)).bind ofInt? := by
  rcases cs with _ | ⟨c, cs⟩
  · simp [isDigits] at h
  · have hc : isDigit c := forall_of_isDigits h c (by simp)
    rw [List.cons_append, parse?.eq_2]
    rintro tail hminus
    obtain ⟨rfl, -⟩ := List.cons.inj hminus
    simp [isDigit] at hc

/-- Every number but the least is read back from its decimal text. -/
theorem parse?_digits {n : Fixed} (h : n.hundredths ≠ leastCount) : parse? n.digits = some n := by
  have hleast := n.least_le
  have hgreatest := n.le_greatest
  have hfits : (n.hundredths.natAbs : Int) ≤ greatestCount := by
    simp only [leastCount, greatestCount] at *
    omega
  have hread : unsigned? n.magnitudeDigits = some (n.hundredths.natAbs : Int) :=
    unsigned?_digits hfits
  rw [digits_eq]
  split_ifs with hneg
  · have hsign : -(n.hundredths.natAbs : Int) = n.hundredths := by omega
    rw [parse?, hread, Option.bind_some, hsign, ofInt?_hundredths]
  · have hsign : (n.hundredths.natAbs : Int) = n.hundredths := by omega
    rw [magnitudeDigits, parse?_of_isDigits (isDigits_toDigits _), ← magnitudeDigits, hread,
      Option.bind_some, hsign, ofInt?_hundredths]

theorem eq_of_hundredths {m n : Fixed} (h : m.hundredths = n.hundredths) : m = n := by
  cases m
  cases n
  simp_all

/-- The least number is not read back, because its magnitude is out of range. -/
theorem parse?_digits_least {n : Fixed} (h : n.hundredths = leastCount) :
    parse? n.digits = none := by
  obtain rfl : n = ⟨leastCount, by decide, by decide⟩ := eq_of_hundredths h
  decide

/-- Numbers are told apart by their decimal text. -/
theorem digits_injective {m n : Fixed} (h : m.digits = n.digits) : m = n := by
  have hparse : parse? m.digits = parse? n.digits := by rw [h]
  by_cases hm : m.hundredths = leastCount
  · by_cases hn : n.hundredths = leastCount
    · exact eq_of_hundredths (hm.trans hn.symm)
    · rw [parse?_digits_least hm, parse?_digits hn] at hparse
      cases hparse
  · by_cases hn : n.hundredths = leastCount
    · rw [parse?_digits hm, parse?_digits_least hn] at hparse
      cases hparse
    · rw [parse?_digits hm, parse?_digits hn] at hparse
      exact Option.some.inj hparse

end SignalRules.Fixed
