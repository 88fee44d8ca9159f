import Mathlib.Algebra.BigOperators.Group.List.Basic
import Mathlib.Algebra.GroupWithZero.Nat
import SignalRules.Proofs.Algebraic.Climbing

/-!
# The weight of phrases

A phrase weighs as much as it has opening parentheses and minus signs that negate an operand. A
minus sign in front of a number literal in parentheses makes one weight together with them, since
the parentheses around a negative literal can be left out there. The weight is a matter of the
lexemes alone: whether a minus sign negates an operand is seen from what stands in front of it, and
whether it is part of a number literal from what stands behind it.

## Main definitions

* `Lexeme.weigh`: the weight of lexemes.
* `Phrase.weight`: the weight of a phrase.

## Main results

* `Algebraic.weigh_yield`: a phrase that respects precedence weighs as much as its lexemes do.
-/

namespace SignalRules

namespace Lexeme

/-- Whether an operand can end with the lexeme. -/
def endsOperand (x : Lexeme) : Bool :=
  match x.kind with
  | .number | .string | .identifier => true
  | .symbol => x.text == ")"
  | .keyword => false

/-- Whether the lexemes start with a number and a closing parenthesis. -/
def closesNumber : List Lexeme → Bool
  | n :: c :: _ => n.kind == .number && c == .symbol ')'
  | _ => false

/-- Whether the lexemes start with a number, perhaps with a sign, and a closing parenthesis. -/
def closesLiteral : List Lexeme → Bool
  | [] => false
  | x :: xs => if x = .symbol '-' then closesNumber xs else closesNumber (x :: xs)

/-- Whether a number, or a number literal in parentheses, stands behind a minus sign. -/
def bindsLiteral : List Lexeme → Bool
  | [] => false
  | x :: xs => x.kind == .number || (x == .symbol '(' && closesLiteral xs)

/-- The weight of lexemes, behind the end of an operand or not: one for each opening parenthesis,
and one for each minus sign in front of an operand that does not bind a literal. -/
def weigh : (after : Bool) → List Lexeme → Nat
  | _, [] => 0
  | after, x :: xs =>
    (if x = .symbol '(' ∨ (x = .symbol '-' ∧ after = false ∧ bindsLiteral xs = false) then 1
      else 0) + weigh x.endsOperand xs

end Lexeme

namespace Phrase

/-- Whether a phrase is a number literal. -/
def isLiteral : Phrase → Bool
  | number _ | negative _ => true
  | _ => false

/-- Whether a phrase is a number literal in parentheses. -/
def isGroupedLiteral : Phrase → Bool
  | group inner => inner.isLiteral
  | _ => false

mutual

/-- The weight of a phrase: one for each pair of parentheses and for each minus sign that negates an
operand, and one for both if the operand is a number literal in parentheses. -/
def weight : Phrase → Nat
  | number _ | negative _ | text _ | signal _ => 0
  | presence _ _ => 1
  | call _ args | invoke _ args => 1 + weightAll args
  | group inner => 1 + weight inner
  | minus operand => if operand.isGroupedLiteral then 1 else 1 + weight operand
  | not operand => weight operand
  | binary _ left right => weight left + weight right

/-- The weight of several phrases together. -/
def weightAll : List Phrase → Nat
  | [] => 0
  | p :: ps => weight p + weightAll ps

end

theorem weightAll_eq_sum (ps : List Phrase) : weightAll ps = (ps.map weight).sum := by
  induction ps with
  | nil => rfl
  | cons p ps ih => rw [weightAll, ih, List.map_cons, List.sum_cons]

theorem weight_of_isLiteral {p : Phrase} (h : p.isLiteral) : p.weight = 0 := by
  cases p with
  | number | negative => rw [weight]
  | _ => cases h

theorem weight_of_isGroupedLiteral {p : Phrase} (h : p.isGroupedLiteral) : p.weight = 1 := by
  cases p with
  | group inner => rw [weight, weight_of_isLiteral h]
  | _ => cases h

end Phrase

namespace Algebraic

open Lexeme (weigh closesNumber closesLiteral bindsLiteral)

variable {after : Bool} {x : Lexeme} {xs rest : List Lexeme}

/-! ### One lexeme -/

theorem weigh_open : weigh after (.symbol '(' :: xs) = 1 + weigh false xs := by
  rw [weigh, if_pos (.inl rfl)]
  rfl

theorem weigh_close : weigh after (.symbol ')' :: xs) = weigh true xs := by
  rw [weigh, if_neg (by simp [Lexeme.symbol]), Nat.zero_add]
  rfl

theorem weigh_comma : weigh after (.symbol ',' :: xs) = weigh false xs := by
  rw [weigh, if_neg (by simp [Lexeme.symbol]), Nat.zero_add]
  rfl

theorem weigh_of_kind (hx : x.kind ≠ .symbol) :
    weigh after (x :: xs) = weigh x.endsOperand xs := by
  have hne (c : Char) : x ≠ .symbol c := by
    rintro rfl
    exact hx rfl
  rw [weigh, if_neg (by simp [hne]), Nat.zero_add]

theorem weigh_minus :
    weigh false (.symbol '-' :: xs) = (if bindsLiteral xs then 0 else 1) + weigh false xs := by
  have hend : (Lexeme.symbol '-').endsOperand = false := rfl
  rw [weigh, hend]
  cases bindsLiteral xs <;> simp [Lexeme.symbol]

/-- Behind an operand, an operator weighs nothing. -/
theorem weigh_operator {op : Operator} (hop : op.isBinary) :
    weigh true (op.lexeme :: xs) = weigh false xs := by
  have hlexeme : ∀ op : Operator, op.isBinary →
      op.lexeme ≠ .symbol '(' ∧ op.lexeme.endsOperand = false :=
    Operator.forall_of_all (by decide)
  obtain ⟨hne, hend⟩ := hlexeme op hop
  rw [weigh, if_neg (by simp [hne]), hend, Nat.zero_add]

/-! ### Literals -/

theorem lexeme_ne_close : ∀ op : Operator, op.isBinary → op.lexeme ≠ .symbol ')' :=
  Operator.forall_of_all (by decide)

theorem closesNumber_of_kind (hx : x.kind ≠ .number) : closesNumber (x :: xs) = false := by
  cases xs <;> simp [closesNumber, hx]

theorem closesLiteral_of_ne (hx : x ≠ .symbol '-') :
    closesLiteral (x :: xs) = closesNumber (x :: xs) := by
  rw [closesLiteral, if_neg hx]

theorem closesLiteral_minus (xs : List Lexeme) :
    closesLiteral (.symbol '-' :: xs) = closesNumber xs := by
  rw [closesLiteral, if_pos rfl]

/-- If no parenthesis is closed behind a phrase, none is closed behind a literal that it starts
with. -/
theorem closesNumber_yield {p : Phrase} (hp : p.RespectsPrecedence) {y : Lexeme}
    (hy : y ≠ .symbol ')') (ys : List Lexeme) :
    closesNumber (p.yield ++ y :: ys) = false ∧ closesLiteral (p.yield ++ y :: ys) = false := by
  have hplain {x : Lexeme} {xs : List Lexeme} (hx : x ≠ .symbol '-')
      (hfirst : closesNumber (x :: xs) = false) :
      closesNumber (x :: xs) = false ∧ closesLiteral (x :: xs) = false :=
    ⟨hfirst, (closesLiteral_of_ne hx).trans hfirst⟩
  induction hp generalizing y ys with
  | number digits =>
    refine hplain (by simp [Lexeme.symbol]) ?_
    simp [closesNumber, hy]
  | negative digits =>
    refine ⟨closesNumber_of_kind (by simp [Lexeme.symbol]), (closesLiteral_minus _).trans ?_⟩
    simp [closesNumber, hy]
  | minus _ _ _ ih =>
    exact ⟨closesNumber_of_kind (by simp [Lexeme.symbol]),
      (closesLiteral_minus _).trans (ih hy ys).1⟩
  | @binary op left right hop _ _ _ _ ihl _ =>
    rw [Phrase.yield, List.append_assoc]
    exact ihl (lexeme_ne_close op hop) _
  | text | signal | presence | call | invoke | group | not =>
    exact hplain (by simp [Lexeme.symbol]) (closesNumber_of_kind (by simp [Lexeme.symbol]))

/-- Behind the closing parenthesis of a group it is seen whether the group holds a literal. -/
theorem closesLiteral_yield {p : Phrase} (hp : p.RespectsPrecedence) (ys : List Lexeme) :
    closesLiteral (p.yield ++ .symbol ')' :: ys) = p.isLiteral := by
  cases hp with
  | number digits => exact closesLiteral_of_ne (by simp [Lexeme.symbol])
  | negative digits => exact closesLiteral_minus _
  | @minus operand hoperand hpower hnumber =>
    have hbinary := mt hoperand.power_lt_of_isBinary (Nat.not_lt.2 hpower)
    have hkind := Phrase.head_yield_kind_ne hbinary hnumber
    obtain ⟨x, xs, hx, -⟩ := operand.yield_eq_cons
    rw [Phrase.yield, List.cons_append, closesLiteral_minus, hx]
    exact closesNumber_of_kind (hkind x (by simp [hx]))
  | @binary op left right hop hleft =>
    rw [Phrase.yield, List.append_assoc]
    exact (closesNumber_yield hleft (lexeme_ne_close op hop) _).2
  | text | signal | presence | call | invoke | group | not =>
    exact (closesLiteral_of_ne (by simp [Lexeme.symbol])).trans
      (closesNumber_of_kind (by simp [Lexeme.symbol]))

/-- Behind a minus sign it is seen whether a literal in parentheses follows. -/
theorem bindsLiteral_yield {p : Phrase} (hp : p.RespectsPrecedence) (hbinary : ¬ p.isBinary)
    (hnumber : ∀ digits, p ≠ .number digits) (ys : List Lexeme) :
    bindsLiteral (p.yield ++ ys) = p.isGroupedLiteral := by
  cases hp with
  | number digits => exact absurd rfl (hnumber digits)
  | binary => exact absurd rfl hbinary
  | group hinner =>
    rw [Phrase.yield, Lexeme.enclosed, List.cons_append, List.append_assoc, bindsLiteral]
    exact closesLiteral_yield hinner ys
  | _ => rfl

/-! ### Phrases -/

/-- A phrase weighs `n`, in front of anything. -/
def Weighs (ys : List Lexeme) (n : Nat) : Prop :=
  ∀ rest, weigh false (ys ++ rest) = n + weigh true rest

/-- What is in parentheses with commas between adds up. -/
theorem weigh_enclosed {yss : List (List Lexeme)} {ns : List Nat}
    (h : List.Forall₂ Weighs yss ns) :
    weigh after (Lexeme.enclosed (Lexeme.listed yss) ++ rest) = 1 + ns.sum + weigh true rest := by
  have hlisted : weigh false (Lexeme.listed yss ++ .symbol ')' :: rest) =
      ns.sum + weigh true rest := by
    induction h with
    | nil => simp [Lexeme.listed, weigh_close]
    | cons hfirst hrest ih =>
      cases hrest with
      | nil => simp [Lexeme.listed, hfirst _, weigh_close]
      | cons _ _ =>
        rw [Lexeme.listed, List.append_assoc, hfirst, List.cons_append, weigh_comma, ih]
        simp only [List.sum_cons, Nat.add_assoc]
  rw [Lexeme.enclosed, List.cons_append, weigh_open, List.append_assoc, List.singleton_append,
    hlisted, Nat.add_assoc]

theorem weighs_leaf {x : Lexeme} (hx : x.kind ≠ .symbol) (hend : x.endsOperand) : Weighs [x] 0 := by
  intro rest
  rw [List.singleton_append, weigh_of_kind hx, hend, Nat.zero_add]

theorem forall₂_weighs {args : List Phrase} (h : ∀ p ∈ args, Weighs p.yield p.weight) :
    List.Forall₂ Weighs (args.map Phrase.yield) (args.map Phrase.weight) := by
  rw [List.forall₂_map_left_iff, List.forall₂_map_right_iff, List.forall₂_same]
  exact h

/-- A phrase that respects precedence weighs as much as its lexemes do. -/
theorem weigh_yield {p : Phrase} (hp : p.RespectsPrecedence) : Weighs p.yield p.weight := by
  induction hp with
  | number | text | signal => exact weighs_leaf (by simp) rfl
  | negative digits =>
    intro rest
    have hbinds : bindsLiteral (⟨.number, digits⟩ :: rest) = true := rfl
    rw [Phrase.yield, List.cons_append, weigh_minus, List.singleton_append, hbinds, if_pos rfl,
      weigh_of_kind (by simp), Phrase.weight]
    rfl
  | presence kind names =>
    intro rest
    have hnames : List.Forall₂ Weighs (names.map fun name => [⟨.identifier, name⟩])
        (names.map fun _ => 0) := by
      rw [List.forall₂_map_left_iff, List.forall₂_map_right_iff, List.forall₂_same]
      exact fun name _ => weighs_leaf (by simp) rfl
    rw [Phrase.yield, List.cons_append, weigh_of_kind (by simp), weigh_enclosed hnames]
    simp [Phrase.weight]
  | call _ _ ih | invoke _ _ ih =>
    intro rest
    rw [Phrase.yield, List.cons_append, weigh_of_kind (by simp), Phrase.yieldAll_eq_map,
      weigh_enclosed (forall₂_weighs ih), Phrase.weight, Phrase.weightAll_eq_sum]
  | group _ ih =>
    intro rest
    rw [Phrase.yield, Lexeme.enclosed, List.cons_append, weigh_open, List.append_assoc, ih,
      List.singleton_append, weigh_close, Phrase.weight, Nat.add_assoc]
  | @minus operand hoperand hpower hnumber ih =>
    intro rest
    have hbinary := mt hoperand.power_lt_of_isBinary (Nat.not_lt.2 hpower)
    rw [Phrase.yield, List.cons_append, weigh_minus, bindsLiteral_yield hoperand hbinary hnumber,
      ih, Phrase.weight]
    -- A minus sign in front of a literal in parentheses adds nothing to their weight.
    split_ifs with hliteral
    · rw [Phrase.weight_of_isGroupedLiteral hliteral, Nat.zero_add]
    · rw [Nat.add_assoc]
  | not _ _ ih =>
    intro rest
    rw [Phrase.yield, List.cons_append, weigh_of_kind (by simp), Phrase.weight]
    exact ih rest
  | binary hop _ _ _ _ ihl ihr =>
    intro rest
    rw [Phrase.yield, List.append_assoc, List.cons_append, ihl, weigh_operator hop, ihr,
      Phrase.weight, Nat.add_assoc]

end Algebraic

end SignalRules
