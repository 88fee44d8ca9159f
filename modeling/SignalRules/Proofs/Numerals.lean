import Mathlib.Algebra.Order.Round
import Mathlib.Data.Rat.Floor
import Mathlib.Tactic.FieldSimp
import Mathlib.Tactic.Linarith
import Mathlib.Tactic.Positivity
import Mathlib.Tactic.Ring
import SignalRules.Proofs.Decimal

/-!
# Reading a number is rounding a decimal fraction

A numeral is a non-empty run of digits, perhaps followed by a point and another non-empty run of
digits, and it denotes a rational number. Reading looks at three digits behind the point at most;
the theorem here says that this is enough: what is read from a numeral of any length is its value
in hundredths, rounded to the nearest integer with halves going up, and reading fails exactly on
texts that are no numerals and on numerals whose rounded value is out of range.

A sign is applied to the rounded magnitude. So halves go away from zero, and the least number,
whose magnitude does not fit, is written as a text that cannot be read.

## Main definitions

* `fractionValue`: what digits behind a point denote.
* `Numeral`, `Numeral.chars`, `Numeral.value`, `Numeral.hundredths`.

## Main results

* `Fixed.parse?_eq_some_iff_round`: reading is rounding.
* `Fixed.parse?_text`: every number but the least is read back from its text.
-/

namespace SignalRules

/-- The fraction that digits behind a point denote. -/
def fractionValue (cs : List Char) : ℚ := Nat.ofDigitChars 10 cs 0 / 10 ^ cs.length

@[simp] theorem fractionValue_nil : fractionValue [] = 0 := by
  simp [fractionValue]

/-- Each digit counts for a tenth of what it would count for one place to the left. -/
theorem fractionValue_cons (c : Char) (cs : List Char) :
    fractionValue (c :: cs) = ((c.toNat - '0'.toNat : ℕ) + fractionValue cs) / 10 := by
  have hpow : (10 : ℚ) ^ cs.length ≠ 0 := by positivity
  rw [fractionValue, fractionValue, Nat.ofDigitChars_cons, Nat.ofDigitChars_eq_ofDigitChars_zero,
    List.length_cons, pow_succ]
  push_cast
  field_simp
  ring

/-- A digit is less than ten. -/
theorem digit_le_nine {c : Char} (h : c.isDigit) : c.toNat - '0'.toNat ≤ 9 := by
  have hle : c.toNat ≤ 57 := (Char.isDigit_iff_toNat.1 h).2
  have hzero : '0'.toNat = 48 := rfl
  omega

theorem fractionValue_nonneg (cs : List Char) : 0 ≤ fractionValue cs := by
  unfold fractionValue
  positivity

theorem fractionValue_lt_one {cs : List Char} (h : ∀ c ∈ cs, c.isDigit) : fractionValue cs < 1 := by
  induction cs with
  | nil => simp
  | cons c cs ih =>
    have hrest := ih fun d hd => h d (List.mem_cons_of_mem _ hd)
    have hdigit : ((c.toNat - '0'.toNat : ℕ) : ℚ) ≤ 9 := by
      exact_mod_cast digit_le_nine (h c (by simp))
    rw [fractionValue_cons]
    linarith

/-- The first digit behind a point tells whether the fraction is a half or more. -/
theorem round_fractionValue {c : Char} {cs : List Char} (h : ∀ d ∈ c :: cs, d.isDigit) :
    round (fractionValue (c :: cs)) = if '5' ≤ c then 1 else 0 := by
  have hnonneg := fractionValue_nonneg cs
  have hlt := fractionValue_lt_one fun d hd => h d (List.mem_cons_of_mem _ hd)
  have hnine : ((c.toNat - '0'.toNat : ℕ) : ℚ) ≤ 9 := by
    exact_mod_cast digit_le_nine (h c (by simp))
  have hfive : '5' ≤ c ↔ 5 ≤ c.toNat - '0'.toNat := by
    have hcode : '5' ≤ c ↔ 53 ≤ c.toNat := Iff.rfl
    have hzero : '0'.toNat = 48 := rfl
    rw [hcode]
    omega
  rw [fractionValue_cons, round_eq_iff, Set.mem_Ico]
  generalize c.toNat - '0'.toNat = digit at *
  split_ifs with hc
  · have hdigit : (5 : ℚ) ≤ digit := by exact_mod_cast hfive.1 hc
    push_cast
    constructor <;> linarith
  · rw [hfive] at hc
    have hdigit : (digit : ℚ) ≤ 4 := by exact_mod_cast (by omega : digit ≤ 4)
    push_cast
    constructor <;> linarith

/-- Beyond the second decimal only the third one matters to rounding. -/
theorem round_fractionValue_drop {cs : List Char} (h : ∀ c ∈ cs, c.isDigit) :
    round (fractionValue (cs.drop 2)) = (Fixed.roundsUp cs).toNat := by
  have hrest : ∀ c ∈ cs.drop 2, c.isDigit := fun c hc => h c (List.mem_of_mem_drop hc)
  unfold Fixed.roundsUp
  cases hdrop : cs.drop 2 with
  | nil => simp
  | cons c rest =>
    rw [hdrop] at hrest
    rw [round_fractionValue hrest]
    by_cases hc : '5' ≤ c <;> simp [hc]

/-- In hundredths, the first two decimals are whole. -/
theorem hundred_mul_fractionValue (cs : List Char) :
    100 * fractionValue cs =
      (Nat.ofDigitChars 10 (Fixed.decimals cs) 0 : ℕ) + fractionValue (cs.drop 2) := by
  have hzero : '0'.toNat - '0'.toNat = 0 := rfl
  rcases cs with _ | ⟨c, _ | ⟨d, cs⟩⟩
  · have hnone : Nat.ofDigitChars 10 (Fixed.decimals []) 0 = 0 := by decide
    simp [hnone]
  · simp only [Fixed.decimals, fractionValue_cons, fractionValue_nil, Nat.ofDigitChars_cons,
      Nat.ofDigitChars_nil, hzero, List.drop_succ_cons, List.drop_nil]
    push_cast
    ring
  · simp only [Fixed.decimals, fractionValue_cons, Nat.ofDigitChars_cons, Nat.ofDigitChars_nil,
      List.drop_succ_cons, List.drop_zero]
    push_cast
    ring

/-- The count that reading arrives at is the value of the digits in hundredths, rounded. -/
theorem round_eq_roundedCount (whole : List Char) {fraction : List Char}
    (h : ∀ c ∈ fraction, c.isDigit) :
    round (100 * ((Nat.ofDigitChars 10 whole 0 : ℕ) + fractionValue fraction)) =
      (Fixed.roundedCount whole fraction : ℤ) := by
  have hcount : Nat.ofDigitChars 10 (whole ++ Fixed.decimals fraction) 0 =
      100 * Nat.ofDigitChars 10 whole 0 + Nat.ofDigitChars 10 (Fixed.decimals fraction) 0 := by
    rw [Nat.ofDigitChars_append, Nat.ofDigitChars_eq_ofDigitChars_zero, Fixed.length_decimals]
  have hsplit : 100 * ((Nat.ofDigitChars 10 whole 0 : ℕ) + fractionValue fraction) =
      ((Nat.ofDigitChars 10 (whole ++ Fixed.decimals fraction) 0 : ℕ) : ℚ) +
        fractionValue (fraction.drop 2) := by
    rw [mul_add, hundred_mul_fractionValue, hcount]
    push_cast
    ring
  rw [hsplit, round_natCast_add, round_fractionValue_drop h, Fixed.roundedCount]
  push_cast
  rfl

/-! ### Numerals -/

/-- A non-empty run of digits. -/
def IsDigits (cs : List Char) : Prop := cs ≠ [] ∧ ∀ c ∈ cs, c.isDigit

theorem isDigits_iff {cs : List Char} : Fixed.isDigits cs ↔ IsDigits cs := by
  simp only [Fixed.isDigits, IsDigits, Bool.and_eq_true, List.all_eq_true, Bool.not_eq_true',
    List.isEmpty_eq_false_iff]
  rfl

/-- Digits before the point and behind it, put together. -/
def joinPoint (whole : List Char) : Option (List Char) → List Char
  | none => whole
  | some fraction => whole ++ '.' :: fraction

/-- A decimal number without a sign, as it is written. -/
structure Numeral where
  /-- The digits before the point. -/
  whole : List Char
  /-- The digits behind the point, if there is one. -/
  fraction : Option (List Char)
  /-- There are digits before the point, and nothing else. -/
  isDigits_whole : IsDigits whole
  /-- There are digits behind the point, and nothing else. -/
  isDigits_fraction : ∀ cs ∈ fraction, IsDigits cs

namespace Numeral

/-- The text of a numeral. -/
def chars (d : Numeral) : List Char := joinPoint d.whole d.fraction

/-- The digits behind the point; there are none without a point. -/
def behindPoint (d : Numeral) : List Char := d.fraction.getD []

/-- The number that a numeral denotes. -/
def value (d : Numeral) : ℚ := (Nat.ofDigitChars 10 d.whole 0 : ℕ) + fractionValue d.behindPoint

/-- The number of hundredths nearest to the value; a half goes up. -/
def hundredths (d : Numeral) : ℤ := round (100 * d.value)

theorem isDigit_behindPoint (d : Numeral) : ∀ c ∈ d.behindPoint, c.isDigit := by
  unfold behindPoint
  cases h : d.fraction with
  | none => simp
  | some cs => exact (d.isDigits_fraction cs h).2

theorem hundredths_eq (d : Numeral) :
    d.hundredths = (Fixed.roundedCount d.whole d.behindPoint : ℤ) :=
  round_eq_roundedCount d.whole d.isDigit_behindPoint

/-- What is read from a numeral without a sign. -/
theorem unsigned?_chars (d : Numeral) :
    Fixed.unsigned? d.chars =
      if d.hundredths ≤ greatestCount then some d.hundredths else none := by
  have hwhole := d.isDigits_whole.2
  have hmagnitude := Fixed.magnitude?_eq hwhole d.isDigit_behindPoint
  rw [hundredths_eq, ← hmagnitude, chars, behindPoint]
  cases h : d.fraction with
  | none =>
    rw [joinPoint, Fixed.unsigned?, Fixed.splitPoint_digits hwhole]
    exact if_pos (isDigits_iff.2 d.isDigits_whole)
  | some cs =>
    rw [joinPoint, Fixed.unsigned?, Fixed.splitPoint_point hwhole]
    have hboth : (Fixed.isDigits d.whole && Fixed.isDigits cs) = true := by
      rw [Bool.and_eq_true]
      exact ⟨isDigits_iff.2 d.isDigits_whole, isDigits_iff.2 (d.isDigits_fraction cs h)⟩
    exact if_pos hboth

end Numeral

namespace Fixed

/-- The parts before and behind the first point make up the text. -/
theorem joinPoint_splitPoint (cs : List Char) :
    joinPoint (splitPoint cs).1 (splitPoint cs).2 = cs := by
  unfold splitPoint
  cases hdrop : cs.dropWhile (· != '.') with
  | nil => rfl
  | cons c rest =>
    have hpoint : (c != '.') = false := by
      have hhead := List.head?_dropWhile_not (· != '.') cs
      rwa [hdrop] at hhead
    obtain rfl : c = '.' := by simpa using hpoint
    have hparts : cs.takeWhile (· != '.') ++ cs.dropWhile (· != '.') = cs :=
      List.takeWhile_append_dropWhile
    rwa [hdrop] at hparts

/-- Only numerals are read without a sign. -/
theorem exists_numeral_of_unsigned? {cs : List Char} {m : Int} (h : unsigned? cs = some m) :
    ∃ d : Numeral, d.chars = cs := by
  have hjoin := joinPoint_splitPoint cs
  unfold unsigned? at h
  split at h
  · rename_i whole hsplit
    split_ifs at h with hwhole
    rw [hsplit] at hjoin
    exact ⟨⟨whole, none, isDigits_iff.1 hwhole, by simp⟩, hjoin⟩
  · rename_i whole fraction hsplit
    split_ifs at h with hboth
    rw [Bool.and_eq_true] at hboth
    rw [hsplit] at hjoin
    exact ⟨⟨whole, some fraction, isDigits_iff.1 hboth.1, by simpa using isDigits_iff.1 hboth.2⟩,
      hjoin⟩

/-- A numeral starts with a digit, so a minus sign in front of it is a sign. -/
theorem parse?_chars (d : Numeral) : parse? d.chars = (unsigned? d.chars).bind ofInt? := by
  have hwhole := isDigits_iff.2 d.isDigits_whole
  unfold Numeral.chars
  cases d.fraction with
  | none => simpa [joinPoint] using parse?_of_isDigits hwhole []
  | some cs => exact parse?_of_isDigits hwhole ('.' :: cs)

/-- A number is read from a text exactly if the text is a numeral, perhaps behind a minus sign,
whose value in hundredths, rounded to the nearest integer with halves going up, is in range; and
the number has that many hundredths, or the negative of it behind a minus sign. Nothing leaves the
range on the way: at every digit the count so far is the number that the digits denote, or that
number is out of range and reading has stopped. -/
theorem parse?_eq_some_iff_round :
    (∀ (cs : List Char) (n : Fixed), parse? cs = some n ↔
      ∃ d : Numeral, d.hundredths ≤ greatestCount ∧
        ((cs = d.chars ∧ n.hundredths = d.hundredths) ∨
          (cs = '-' :: d.chars ∧ n.hundredths = -d.hundredths))) ∧
    ∀ (d : Numeral) (taken : List Char), taken <+: d.whole ++ decimals d.behindPoint →
      pushDigits 0 taken =
        if (Nat.ofDigitChars 10 taken 0 : Int) ≤ greatestCount then
          some (Nat.ofDigitChars 10 taken 0 : Int)
        else none := by
  constructor
  · intro cs n
    constructor
    · intro h
      unfold parse? at h
      split at h
      all_goals
        obtain ⟨m, hm, hn⟩ := Option.bind_eq_some_iff.1 h
        obtain ⟨d, rfl⟩ := exists_numeral_of_unsigned? hm
        rw [d.unsigned?_chars] at hm
        split_ifs at hm with hfits
        cases hm
      · exact ⟨d, hfits, .inr ⟨rfl, ofInt?_eq_some_iff.1 hn⟩⟩
      · exact ⟨d, hfits, .inl ⟨rfl, ofInt?_eq_some_iff.1 hn⟩⟩
    · rintro ⟨d, hfits, ⟨rfl, hn⟩ | ⟨rfl, hn⟩⟩
      · rw [parse?_chars, d.unsigned?_chars, if_pos hfits]
        exact ofInt?_eq_some_iff.2 hn
      · rw [parse?, d.unsigned?_chars, if_pos hfits]
        exact ofInt?_eq_some_iff.2 hn
  · intro d taken htaken
    have hdigits : ∀ c ∈ d.whole ++ decimals d.behindPoint, isDigit c := by
      intro c hc
      rcases List.mem_append.1 hc with hc | hc
      · exact d.isDigits_whole.2 c hc
      · exact forall_decimals d.isDigit_behindPoint c hc
    exact pushDigits_eq (fun c hc => hdigits c (htaken.subset hc)) 0 (by decide)

/-- The largest magnitude, with leading zeros and a fraction just below a half of a hundredth. -/
theorem parse?_eq_some_iff_round_limit :
    parse? "-0092233720368547758.0749999999999999999999".toList =
        some ⟨-greatestCount, by decide, by decide⟩ ∧
      pushDigits 0 "0092233720368547758".toList = some 92233720368547758 := by
  let d : Numeral := ⟨"0092233720368547758".toList, some "0749999999999999999999".toList,
    isDigits_iff.1 (by decide), by simpa using isDigits_iff.1 (by decide)⟩
  have hcount : d.hundredths = greatestCount := by
    rw [d.hundredths_eq]
    decide
  constructor
  · exact (parse?_eq_some_iff_round.1 _ _).2
      ⟨d, hcount.le, .inr ⟨by decide, congrArg (- ·) hcount.symm⟩⟩
  · have hpush := parse?_eq_some_iff_round.2 d _ (List.prefix_append d.whole _)
    rw [show Nat.ofDigitChars 10 d.whole 0 = 92233720368547758 by decide] at hpush
    exact hpush

/-- Every number but the least is read back from its text, and the least is not read at all. -/
theorem parse?_text (n : Fixed) :
    parse? n.text.toList = if n.hundredths = leastCount then none else some n := by
  rw [text, String.toList_ofList]
  split_ifs with h
  · exact parse?_digits_least h
  · exact parse?_digits h

/-- The least number fits, and it is not read back from its text. -/
theorem parse?_text_least_ne :
    ∃ n : Fixed, n.hundredths = leastCount ∧ n.text = "-92233720368547758.08" ∧
      parse? n.text.toList ≠ some n := by
  refine ⟨⟨leastCount, by decide, by decide⟩, rfl, by decide, ?_⟩
  rw [text, String.toList_ofList, parse?_digits_least rfl]
  simp

end Fixed

end SignalRules
