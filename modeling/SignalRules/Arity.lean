/-!
# Operand counts
-/

namespace SignalRules

/-- How many operands are accepted; without a greatest count there is no upper limit. -/
structure Arity where
  /-- The least count. -/
  least : Nat
  /-- The greatest count, if there is one. -/
  greatest : Option Nat
deriving DecidableEq, Inhabited

namespace Arity

/-- Exactly `n`. -/
def exactly (n : Nat) : Arity := ⟨n, some n⟩

/-- `n` or more. -/
def atLeast (n : Nat) : Arity := ⟨n, none⟩

/-- From `least` to `greatest`. -/
def between (least greatest : Nat) : Arity := ⟨least, some greatest⟩

/-- Whether `count` operands are accepted. -/
def accepts (a : Arity) (count : Nat) : Bool :=
  a.least ≤ count &&
    match a.greatest with
    | some g => count ≤ g
    | none => true

/-- The count in words. -/
def text (a : Arity) : String :=
  match a.greatest with
  | some g => if g = a.least then toString g else toString a.least ++ " to " ++ toString g
  | none => "at least " ++ toString a.least

/-- The count with the thing counted, in the singular only for exactly one. -/
def phrase (a : Arity) (noun : String) : String :=
  if a = exactly 1 then "1 " ++ noun else a.text ++ " " ++ noun ++ "s"

end Arity

end SignalRules
