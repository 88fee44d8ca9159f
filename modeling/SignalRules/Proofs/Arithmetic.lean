import Mathlib.Data.Rat.Floor
import Mathlib.Tactic.Linarith
import Mathlib.Tactic.Positivity
import SignalRules.Proofs.Splicing

/-!
# Arithmetic is exact

A number is a count of hundredths. Sums, differences, negatives, minima and maxima of counts are
exact; a product and a quotient are the exact rational number of hundredths, cut off towards zero;
and rounding gives the nearest whole number of units, with halves going away from zero. A result
that does not fit is an overflow and never anything else. A sum is added up from the left, so for it
each partial sum has to fit.

Rounding moves a count by half a unit at most, and neither end of the range lies so close to the
next unit that it would be rounded over it. So rounding never fails.

## Main definitions

* `truncated`: a rational number without its fraction.
* `Fixed.Fits`: a count of hundredths that is in range.
* `Fixed.IsRounded`: the nearest whole number of units.
* `Arithmetic.Exact`: the exact result of an operation; `Arithmetic.InRange`: what has to fit.
* `Delivers`: an answer is the result if everything is in range, and else an overflow.

## Main results

* `tdiv_eq_truncated`: division of integers is exact division, cut off.
* `Fixed.exists_round?`: every number can be rounded.
* `Fixed.sum?_eq_none_iff`: a sum overflows if a partial sum does.
* `Arithmetic.exists_exact`: each operation delivers its exact result.
* `Expr.value_arithmetic_exact`: the value of an arithmetic expression, and its faults.
-/

namespace SignalRules

/-! ### Cutting off towards zero -/

/-- A rational number without its fraction: the next integer towards zero. -/
def truncated (q : ℚ) : ℤ := if 0 ≤ q then ⌊q⌋ else ⌈q⌉

theorem truncated_neg (q : ℚ) : truncated (-q) = -truncated q := by
  unfold truncated
  rcases lt_trichotomy q 0 with hq | rfl | hq
  · rw [if_pos (by linarith), if_neg (by linarith), Int.floor_neg]
  · simp
  · rw [if_neg (by linarith), if_pos hq.le, Int.ceil_neg]

theorem tdiv_natCast_eq_truncated (a : ℤ) (b : ℕ) : a.tdiv b = truncated (a / b) := by
  have hnonneg {c : ℤ} (hc : 0 ≤ c) : c.tdiv b = truncated (c / b) := by
    have hquotient : (0 : ℚ) ≤ c / b := by positivity
    rw [truncated, if_pos hquotient, Rat.floor_intCast_div_natCast,
      Int.tdiv_eq_ediv_of_nonneg hc]
  rcases le_total 0 a with ha | ha
  · exact hnonneg ha
  · have hneg := hnonneg (neg_nonneg.2 ha)
    rw [Int.neg_tdiv, Int.cast_neg, neg_div, truncated_neg] at hneg
    exact neg_injective hneg

/-- Division of integers is exact division, cut off towards zero. -/
theorem tdiv_eq_truncated (a b : ℤ) : a.tdiv b = truncated (a / b) := by
  obtain ⟨n, rfl | rfl⟩ := b.eq_nat_or_neg
  · exact_mod_cast tdiv_natCast_eq_truncated a n
  · rw [Int.tdiv_neg, tdiv_natCast_eq_truncated, Int.cast_neg, div_neg, truncated_neg]
    rfl

namespace Fixed

/-! ### Counts that fit -/

/-- A count of hundredths that is in range. -/
def Fits (count : ℤ) : Prop := leastCount ≤ count ∧ count ≤ greatestCount

instance decidableFits (count : ℤ) : Decidable (Fits count) := inferInstanceAs (Decidable (_ ∧ _))

theorem fits_hundredths (n : Fixed) : Fits n.hundredths := ⟨n.least_le, n.le_greatest⟩

theorem exists_ofInt? {count : ℤ} (h : Fits count) :
    ∃ n : Fixed, n.hundredths = count ∧ ofInt? count = some n :=
  ⟨⟨count, h.1, h.2⟩, rfl, ofInt?_eq_some_iff.2 rfl⟩

theorem ofInt?_of_not_fits {count : ℤ} (h : ¬ Fits count) : ofInt? count = none := by
  rw [ofInt?_eq_none_iff]
  unfold Fits at h
  omega

/-- The product of two counts fits a signed word of 128 bits, so that it does not wrap around before
it is cut off. -/
theorem bmod_mul {a b : ℤ} (ha : Fits a) (hb : Fits b) : (a * b).bmod (2 ^ 128) = a * b := by
  have hbound {n : ℤ} (hn : Fits n) : |n| ≤ 2 ^ 63 := abs_le.2 ⟨hn.1, hn.2.trans (by decide)⟩
  have hproduct : |a * b| ≤ 2 ^ 126 := by
    rw [abs_mul]
    calc |a| * |b| ≤ 2 ^ 63 * 2 ^ 63 :=
          mul_le_mul (hbound ha) (hbound hb) (abs_nonneg b) (by positivity)
      _ = 2 ^ 126 := by norm_num
  obtain ⟨hlow, hhigh⟩ := abs_le.1 hproduct
  refine Int.bmod_eq_of_le_mul_two ?_ ?_
  · push_cast
    linarith
  · push_cast
    linarith

/-! ### Rounding -/

/-- `count` is the whole number of units nearest to `n` hundredths; of two that are equally near, it
is the one further away from zero. -/
structure IsRounded (n count : ℤ) : Prop where
  whole : unitScale ∣ count
  nearest : ∀ m, unitScale ∣ m → (n - count).natAbs ≤ (n - m).natAbs
  away : ∀ m, unitScale ∣ m → (n - m).natAbs = (n - count).natAbs → m.natAbs ≤ count.natAbs

/-- A whole number of units that is at most half a unit away is the nearest. -/
theorem IsRounded.of_le {n units : ℤ} (hle : 2 * (n - units * 100).natAbs ≤ 100)
    (haway : 2 * (n - units * 100).natAbs = 100 → n.natAbs < (units * 100).natAbs) :
    IsRounded n (units * 100) where
  whole := Dvd.intro_left units rfl
  nearest := by
    rintro m ⟨k, rfl⟩
    unfold unitScale
    omega
  away := by
    rintro m ⟨k, rfl⟩ heq
    unfold unitScale at heq ⊢
    omega

theorem IsRounded.unique {n c d : ℤ} (hc : IsRounded n c) (hd : IsRounded n d) : c = d := by
  obtain ⟨j, rfl⟩ := hc.whole
  obtain ⟨k, rfl⟩ := hd.whole
  have hnear := le_antisymm (hc.nearest _ hd.whole) (hd.nearest _ hc.whole)
  have haway := le_antisymm (hd.away _ hc.whole hnear) (hc.away _ hd.whole hnear.symm)
  have hzero := hc.nearest 0 (dvd_zero _)
  unfold unitScale at *
  omega

/-- What is left of a count beside its whole units has the sign of the count. -/
theorem tmod_unitScale_cases (n : ℤ) :
    0 ≤ n ∧ 0 ≤ n.tmod unitScale ∧ n.tmod unitScale < 100 ∨
      n < 0 ∧ -100 < n.tmod unitScale ∧ n.tmod unitScale ≤ 0 := by
  have hpos : 0 < unitScale := by decide
  rcases le_or_gt 0 n with hn | hn
  · exact .inl ⟨hn, Int.tmod_nonneg _ hn, Int.tmod_lt_of_pos n hpos⟩
  · have hneg := Int.tmod_nonneg unitScale (neg_nonneg.2 hn.le)
    have hlt := Int.tmod_lt_of_pos (-n) hpos
    rw [Int.neg_tmod] at hneg hlt
    exact .inr ⟨hn, neg_lt.1 hlt, neg_nonneg.1 hneg⟩

/-- A whole number of units that is at most half a unit away from a number fits: the ends of the
range are 8 and 7 hundredths away from a whole unit. -/
theorem fits_rounded {n : Fixed} {units : ℤ}
    (hle : 2 * (n.hundredths - units * 100).natAbs ≤ 100) : Fits (units * unitScale) := by
  have hleast := n.least_le
  have hgreatest := n.le_greatest
  simp only [Fits, leastCount, greatestCount, unitScale] at *
  omega

theorem exists_rounded {n : Fixed} {units : ℤ}
    (hle : 2 * (n.hundredths - units * 100).natAbs ≤ 100)
    (haway : 2 * (n.hundredths - units * 100).natAbs = 100 →
      n.hundredths.natAbs < (units * 100).natAbs) :
    ∃ r : Fixed, IsRounded n.hundredths r.hundredths ∧ ofInt? (units * unitScale) = some r := by
  obtain ⟨r, hr, hsome⟩ := exists_ofInt? (fits_rounded hle)
  exact ⟨r, hr ▸ IsRounded.of_le hle haway, hsome⟩

/-- Every number can be rounded. -/
theorem exists_round? (n : Fixed) :
    ∃ r : Fixed, IsRounded n.hundredths r.hundredths ∧ n.round? = some r := by
  have hdivision := Int.mul_tdiv_add_tmod n.hundredths unitScale
  have hcases := tmod_unitScale_cases n.hundredths
  unfold round?
  dsimp only
  generalize n.hundredths.tdiv unitScale = whole at *
  generalize n.hundredths.tmod unitScale = rest at *
  split_ifs with hhalf
  · simp only [unitScale] at hhalf hdivision
    -- The rest has the sign of the number, so half a unit or more moves it away from zero.
    rcases hcases with ⟨hn, hrest, hlt⟩ | ⟨hn, hlt, hrest⟩
    · rw [Int.sign_eq_one_of_pos (by omega)]
      exact exists_rounded (by omega) (by omega)
    · rw [Int.sign_eq_neg_one_of_neg (by omega)]
      exact exists_rounded (by omega) (by omega)
  · simp only [unitScale] at hhalf hdivision
    exact exists_rounded (by omega) (by omega)

/-! ### Sums -/

/-- Adding up overflows as soon as a partial sum does not fit. -/
theorem foldlM_add?_eq_none_iff (ns : List Fixed) (start : Fixed) :
    ns.foldlM add? start = none ↔
      ∃ k, ¬ Fits (start.hundredths + ((ns.map hundredths).take k).sum) := by
  induction ns generalizing start with
  | nil => simp [fits_hundredths]
  | cons n ns ih =>
    rw [List.foldlM_cons, List.map_cons]
    -- The first partial sum is the start itself, which fits.
    have hshift :
        (∃ k, ¬ Fits (start.hundredths + ((n.hundredths :: ns.map hundredths).take k).sum)) ↔
        ∃ k, ¬ Fits (start.hundredths + n.hundredths + ((ns.map hundredths).take k).sum) := by
      constructor
      · rintro ⟨_ | k, hk⟩
        · exact absurd (by simpa using start.fits_hundredths) hk
        · exact ⟨k, by rwa [List.take_succ_cons, List.sum_cons, ← add_assoc] at hk⟩
      · rintro ⟨k, hk⟩
        exact ⟨k + 1, by rwa [List.take_succ_cons, List.sum_cons, ← add_assoc]⟩
    rw [hshift]
    by_cases hfits : Fits (start.hundredths + n.hundredths)
    · obtain ⟨next, hnext, hsome⟩ := exists_ofInt? hfits
      have hadd : start.add? n = some next := hsome
      rw [hadd, ← hnext]
      exact ih next
    · have hadd : start.add? n = none := ofInt?_of_not_fits hfits
      rw [hadd]
      exact ⟨fun _ => ⟨0, by simpa using hfits⟩, fun _ => rfl⟩

theorem sum?_eq_none_iff (ns : List Fixed) :
    sum? ns = none ↔ ∃ k, ¬ Fits ((ns.map hundredths).take k).sum := by
  have hzero : (0 : Fixed).hundredths = 0 := by decide
  unfold sum?
  rw [foldlM_add?_eq_none_iff, hzero]
  simp only [zero_add]

/-! ### Minima and maxima -/

/-- Picking the better of two numbers again and again ends with the best of all. -/
theorem foldl_pick (better : Fixed → Fixed → Prop) (hrefl : ∀ a, better a a)
    (htrans : ∀ a b c, better a b → better b c → better a c) {pick : Fixed → Fixed → Fixed}
    (hpick : ∀ a b, (pick a b = a ∨ pick a b = b) ∧ better (pick a b) a ∧ better (pick a b) b)
    (n : Fixed) (ns : List Fixed) :
    ns.foldl pick n ∈ n :: ns ∧ ∀ m ∈ n :: ns, better (ns.foldl pick n) m := by
  induction ns generalizing n with
  | nil => simpa using hrefl n
  | cons a ns ih =>
    obtain ⟨hmem, hbest⟩ := ih (pick n a)
    obtain ⟨hone, hleft, hright⟩ := hpick n a
    have hfirst := hbest (pick n a) List.mem_cons_self
    rw [List.foldl_cons]
    refine ⟨?_, ?_⟩
    · rcases List.mem_cons.1 hmem with heq | hmem
      · rw [heq]
        rcases hone with hone | hone <;> simp [hone]
      · exact List.mem_cons_of_mem _ (List.mem_cons_of_mem _ hmem)
    · simp only [List.forall_mem_cons] at hbest ⊢
      exact ⟨htrans _ _ _ hfirst hleft, htrans _ _ _ hfirst hright, hbest.2⟩

theorem foldl_min (n : Fixed) (ns : List Fixed) :
    ns.foldl Fixed.min n ∈ n :: ns ∧
      ∀ m ∈ n :: ns, (ns.foldl Fixed.min n).hundredths ≤ m.hundredths := by
  refine foldl_pick (fun a b => a.hundredths ≤ b.hundredths) (fun _ => le_refl _)
    (fun _ _ _ => le_trans) (fun a b => ?_) n ns
  unfold Fixed.min
  split
  · next hlt => exact ⟨.inr rfl, (show b.hundredths < a.hundredths from hlt).le, le_refl _⟩
  · next hle => exact ⟨.inl rfl, le_refl _, not_lt.1 hle⟩

theorem foldl_max (n : Fixed) (ns : List Fixed) :
    ns.foldl Fixed.max n ∈ n :: ns ∧
      ∀ m ∈ n :: ns, m.hundredths ≤ (ns.foldl Fixed.max n).hundredths := by
  refine foldl_pick (fun a b => b.hundredths ≤ a.hundredths) (fun _ => le_refl _)
    (fun _ _ _ => ge_trans) (fun a b => ?_) n ns
  unfold Fixed.max
  split
  · next hlt => exact ⟨.inr rfl, (show a.hundredths < b.hundredths from hlt).le, le_refl _⟩
  · next hle => exact ⟨.inl rfl, le_refl _, not_lt.1 hle⟩

end Fixed

/-! ### Results -/

namespace Arithmetic

/-- The exact result of an operation, where numbers are counts of hundredths. Nothing is the result
of a division by zero. -/
inductive Exact : Arithmetic → List ℤ → ℤ → Prop
  | add (ns : List ℤ) : Exact .add ns ns.sum
  | sub (a b : ℤ) : Exact .sub [a, b] (a - b)
  | mul (a b : ℤ) : Exact .mul [a, b] (truncated (a * b / 100))
  | div (a b : ℤ) (hb : b ≠ 0) : Exact .div [a, b] (truncated (100 * a / b))
  | min {ns : List ℤ} {m : ℤ} (hmem : m ∈ ns) (hle : ∀ n ∈ ns, m ≤ n) : Exact .min ns m
  | max {ns : List ℤ} {m : ℤ} (hmem : m ∈ ns) (hle : ∀ n ∈ ns, n ≤ m) : Exact .max ns m
  | round {n count : ℤ} (h : Fixed.IsRounded n count) : Exact .round [n] count
  | neg (n : ℤ) : Exact .neg [n] (-n)

/-- What has to fit so that an operation has a result: for a sum every partial sum, added from the
left, and else the result alone. -/
def InRange : Arithmetic → List ℤ → ℤ → Prop
  | add, ns, _ => ∀ k, Fixed.Fits (ns.take k).sum
  | _, _, count => Fixed.Fits count

theorem Exact.unique {op : Arithmetic} {ns : List ℤ} {c d : ℤ} (hc : Exact op ns c)
    (hd : Exact op ns d) : c = d := by
  cases hc with
  | add | sub | mul | div | neg =>
    cases hd
    rfl
  | min hmem hle =>
    cases hd with
    | min hmem' hle' => exact le_antisymm (hle _ hmem') (hle' _ hmem)
  | max hmem hle =>
    cases hd with
    | max hmem' hle' => exact le_antisymm (hle' _ hmem) (hle _ hmem')
  | round hc =>
    cases hd with
    | round hd => exact hc.unique hd

end Arithmetic

/-- The answer of an operation whose result is `count`: the number with that count if everything is
in range, and else an overflow. -/
structure Delivers (inRange : Prop) (count : ℤ) (answer : Except Fault Fixed) : Prop where
  ok : inRange → ∃ n : Fixed, n.hundredths = count ∧ answer = .ok n
  overflow : ¬ inRange → answer = .error Fault.overflow

theorem delivers_ok (n : Fixed) : Delivers (Fixed.Fits n.hundredths) n.hundredths (.ok n) where
  ok _ := ⟨n, rfl, rfl⟩
  overflow hnot := absurd n.fits_hundredths hnot

theorem delivers_fitting (count : ℤ) :
    Delivers (Fixed.Fits count) count (fitting (Fixed.ofInt? count)) where
  ok hfits := by
    obtain ⟨n, hn, hsome⟩ := Fixed.exists_ofInt? hfits
    exact ⟨n, hn, congrArg fitting hsome⟩
  overflow hnot := congrArg fitting (Fixed.ofInt?_of_not_fits hnot)

theorem delivers_sum (ns : List Fixed) :
    Delivers (∀ k, Fixed.Fits ((ns.map Fixed.hundredths).take k).sum)
      (ns.map Fixed.hundredths).sum (fitting (Fixed.sum? ns)) where
  ok hfits := by
    cases hsum : Fixed.sum? ns with
    | none =>
      obtain ⟨k, hk⟩ := (Fixed.sum?_eq_none_iff ns).1 hsum
      exact absurd (hfits k) hk
    | some n => exact ⟨n, Fixed.hundredths_of_sum? hsum, rfl⟩
  overflow hnot := congrArg fitting ((Fixed.sum?_eq_none_iff ns).2 (not_forall.1 hnot))

namespace Arithmetic

theorem tdiv_product (a b : ℤ) : (a * b).tdiv unitScale = truncated (a * b / 100) := by
  rw [tdiv_eq_truncated, Int.cast_mul]
  rfl

theorem tdiv_quotient (a b : ℤ) : (a * unitScale).tdiv b = truncated (100 * a / b) := by
  rw [tdiv_eq_truncated, Int.cast_mul, mul_comm]
  rfl

/-- Every operation but the remainder delivers its exact result, unless it is a division by zero. -/
theorem exists_exact {op : Arithmetic} {ns : List Fixed} (hop : op ≠ .mod)
    (harity : (Operator.arithmetic op).arity.accepts ns.length) :
    (op = .div ∧ (∃ a, ns.map Fixed.hundredths = [a, 0]) ∧
      op.apply ns = .error Fault.divisionByZero) ∨
    ∃ c, op.Exact (ns.map Fixed.hundredths) c ∧
      Delivers (op.InRange (ns.map Fixed.hundredths) c) c (op.apply ns) := by
  cases op with
  | mod => exact absurd rfl hop
  | add => exact .inr ⟨_, .add _, delivers_sum ns⟩
  | sub =>
    obtain ⟨a, b, rfl⟩ := List.length_eq_two.1 (by simpa [Operator.arity] using harity)
    exact .inr ⟨_, .sub _ _, delivers_fitting _⟩
  | mul =>
    obtain ⟨a, b, rfl⟩ := List.length_eq_two.1 (by simpa [Operator.arity] using harity)
    refine .inr ⟨_, .mul _ _, ?_⟩
    rw [← tdiv_product]
    exact delivers_fitting _
  | div =>
    obtain ⟨a, b, rfl⟩ := List.length_eq_two.1 (by simpa [Operator.arity] using harity)
    by_cases hb : b.hundredths = 0
    · exact .inl ⟨rfl, ⟨a.hundredths, by simp [hb]⟩, if_pos hb⟩
    · refine .inr ⟨_, .div _ _ hb, ?_⟩
      rw [← tdiv_quotient, apply, if_neg hb]
      exact delivers_fitting _
  | min =>
    have hlength : 2 ≤ ns.length := by simpa [Operator.arity] using harity
    obtain ⟨n, ns, rfl⟩ := List.exists_cons_of_length_pos (Nat.lt_of_succ_lt hlength)
    obtain ⟨hmem, hle⟩ := Fixed.foldl_min n ns
    exact .inr ⟨_, .min (List.mem_map_of_mem hmem) (List.forall_mem_map.2 hle), delivers_ok _⟩
  | max =>
    have hlength : 2 ≤ ns.length := by simpa [Operator.arity] using harity
    obtain ⟨n, ns, rfl⟩ := List.exists_cons_of_length_pos (Nat.lt_of_succ_lt hlength)
    obtain ⟨hmem, hle⟩ := Fixed.foldl_max n ns
    exact .inr ⟨_, .max (List.mem_map_of_mem hmem) (List.forall_mem_map.2 hle), delivers_ok _⟩
  | round =>
    obtain ⟨n, rfl⟩ := List.length_eq_one_iff.1 (by simpa [Operator.arity] using harity)
    obtain ⟨r, hrounded, hround⟩ := n.exists_round?
    refine .inr ⟨_, .round hrounded, ?_⟩
    rw [apply, hround]
    exact delivers_ok r
  | neg =>
    obtain ⟨n, rfl⟩ := List.length_eq_one_iff.1 (by simpa [Operator.arity] using harity)
    exact .inr ⟨_, .neg _, delivers_fitting _⟩

theorem not_exact_div_zero {a c : ℤ} : ¬ Exact .div [a, 0] c := by
  intro hexact
  cases hexact with
  | div _ _ hb => exact hb rfl

section Outcomes

variable {op : Arithmetic} {ns : List Fixed} (hop : op ≠ .mod)
  (harity : (Operator.arithmetic op).arity.accepts ns.length)

include hop harity

theorem apply_eq_ok_iff {n : Fixed} :
    op.apply ns = .ok n ↔ op.Exact (ns.map Fixed.hundredths) n.hundredths ∧
      op.InRange (ns.map Fixed.hundredths) n.hundredths := by
  obtain ⟨rfl, ⟨a, ha⟩, happly⟩ | ⟨c, hexact, hdelivers⟩ := exists_exact hop harity
  · rw [happly, ha]
    constructor
    · intro heq
      cases heq
    · rintro ⟨hexact, -⟩
      exact absurd hexact not_exact_div_zero
  · constructor
    · intro happly
      by_cases hrange : op.InRange (ns.map Fixed.hundredths) c
      · obtain ⟨m, rfl, hok⟩ := hdelivers.ok hrange
        obtain rfl : m = n := Except.ok.inj (hok.symm.trans happly)
        exact ⟨hexact, hrange⟩
      · rw [hdelivers.overflow hrange] at happly
        cases happly
    · rintro ⟨hn, hrange⟩
      obtain rfl := hn.unique hexact
      obtain ⟨m, hm, hok⟩ := hdelivers.ok hrange
      rw [hok, Fixed.eq_of_hundredths hm]

theorem apply_eq_error_iff {f : Fault} :
    op.apply ns = .error f ↔
      (f = Fault.divisionByZero ∧ op = .div ∧ ∃ a, ns.map Fixed.hundredths = [a, 0]) ∨
      (f = Fault.overflow ∧ ∃ c, op.Exact (ns.map Fixed.hundredths) c ∧
        ¬ op.InRange (ns.map Fixed.hundredths) c) := by
  obtain ⟨rfl, ⟨a, ha⟩, happly⟩ | ⟨c, hexact, hdelivers⟩ := exists_exact hop harity
  · rw [happly, ha]
    constructor
    · intro heq
      exact .inl ⟨(Except.error.inj heq).symm, rfl, a, rfl⟩
    · rintro (⟨rfl, -⟩ | ⟨-, c, hexact, -⟩)
      · rfl
      · exact absurd hexact not_exact_div_zero
  · constructor
    · intro happly
      by_cases hrange : op.InRange (ns.map Fixed.hundredths) c
      · obtain ⟨m, -, hok⟩ := hdelivers.ok hrange
        rw [hok] at happly
        cases happly
      · rw [hdelivers.overflow hrange] at happly
        exact .inr ⟨(Except.error.inj happly).symm, c, hexact, hrange⟩
    · rintro (⟨-, rfl, a, ha⟩ | ⟨rfl, d, hd, hrange⟩)
      · rw [ha] at hexact
        exact absurd hexact not_exact_div_zero
      · obtain rfl := hd.unique hexact
        exact hdelivers.overflow hrange

end Outcomes

end Arithmetic

/-- The value of an arithmetic expression is what the operation gives for its operands. -/
theorem Expr.value_arithmetic (h : Host) (span : Span) (op : Arithmetic) {operands : List Expr}
    {ns : List Fixed} (hns : numbers h operands = .ok ns) :
    value h (node span (.arithmetic op) operands) = (op.apply ns).map .number := by
  rw [value, hns, ok_bind]
  cases op.apply ns <;> rfl

/-- Arithmetic is exact. Its value is the exact result whenever everything that has to fit is in
range, and an overflow whenever something is not; a division by zero is the only other fault.
Rounding has no fault, and the products that a multiplication and a division cut off are never
outside a signed word of 128 bits. -/
theorem Expr.value_arithmetic_exact (h : Host) (span : Span) {op : Arithmetic}
    {operands : List Expr} {ns : List Fixed} (hop : op ≠ .mod)
    (harity : (Operator.arithmetic op).arity.accepts ns.length)
    (hns : numbers h operands = .ok ns) :
    (∀ v, value h (node span (.arithmetic op) operands) = .ok v ↔
      ∃ n : Fixed, v = .number n ∧ op.Exact (ns.map Fixed.hundredths) n.hundredths ∧
        op.InRange (ns.map Fixed.hundredths) n.hundredths) ∧
    (∀ f, value h (node span (.arithmetic op) operands) = .error f ↔
      (f = Fault.divisionByZero ∧ op = .div ∧ ∃ a, ns.map Fixed.hundredths = [a, 0]) ∨
      (f = Fault.overflow ∧ ∃ c, op.Exact (ns.map Fixed.hundredths) c ∧
        ¬ op.InRange (ns.map Fixed.hundredths) c)) ∧
    (op = .round → ∃ v, value h (node span (.arithmetic op) operands) = .ok v) ∧
    ∀ a ∈ ns.map Fixed.hundredths, ∀ b ∈ unitScale :: ns.map Fixed.hundredths,
      (a * b).bmod (2 ^ 128) = a * b := by
  rw [value_arithmetic h span op hns]
  refine ⟨fun v => ?_, fun f => ?_, ?_, ?_⟩
  · rw [map_eq_ok_iff]
    exact exists_congr fun n => by
      rw [Arithmetic.apply_eq_ok_iff hop harity, and_comm, eq_comm]
  · rw [← Arithmetic.apply_eq_error_iff hop harity]
    cases op.apply ns <;> simp [Except.map]
  · rintro rfl
    obtain ⟨n, rfl⟩ := List.length_eq_one_iff.1 (by simpa [Operator.arity] using harity)
    obtain ⟨r, -, hround⟩ := n.exists_round?
    exact ⟨.number r, by rw [Arithmetic.apply, hround]; rfl⟩
  · intro a ha b hb
    have hfits : ∀ c ∈ ns.map Fixed.hundredths, Fixed.Fits c :=
      List.forall_mem_map.2 fun n _ => n.fits_hundredths
    rcases List.mem_cons.1 hb with rfl | hb
    · exact Fixed.bmod_mul (hfits a ha) (by decide)
    · exact Fixed.bmod_mul (hfits a ha) (hfits b hb)

/-- A product is cut off towards zero, and the negative of the least number overflows. -/
theorem Expr.value_arithmetic_exact_negative :
    value Host.empty (node ⟨0, 15⟩ (.arithmetic .mul)
      [constant (.number (Fixed.clamp (-5))) ⟨3, 8⟩, constant (.number (Fixed.clamp 50)) ⟨9, 14⟩]) =
        .ok (.number (Fixed.clamp (-2))) ∧
    value Host.empty (node ⟨0, 5⟩ (.arithmetic .neg)
      [constant (.number (Fixed.clamp leastCount)) ⟨3, 4⟩]) = .error Fault.overflow := by
  refine ⟨?_, ?_⟩
  · have hns : numbers Host.empty [constant (.number (Fixed.clamp (-5))) ⟨3, 8⟩,
        constant (.number (Fixed.clamp 50)) ⟨9, 14⟩] = .ok [Fixed.clamp (-5), Fixed.clamp 50] := rfl
    have hproduct := Arithmetic.Exact.mul (-5) 50
    rw [← Arithmetic.tdiv_product] at hproduct
    have hfits : Fixed.Fits (-2) := by decide
    exact ((value_arithmetic_exact Host.empty _ (by decide) (by decide) hns).1 _).2
      ⟨_, rfl, hproduct, hfits⟩
  · have hns : numbers Host.empty [constant (.number (Fixed.clamp leastCount)) ⟨3, 4⟩] =
        .ok [Fixed.clamp leastCount] := rfl
    have hnot : ¬ Fixed.Fits (-leastCount) := by decide
    exact ((value_arithmetic_exact Host.empty _ (by decide) (by decide) hns).2.1 _).2
      (.inr ⟨rfl, _, .neg leastCount, hnot⟩)

end SignalRules
