/-!
# Reading from the front of a list

A reader takes some members from the front of a list, of characters or of tokens, and hands on
the rest. What it returns carries the fact that the rest is shorter, so that readers which call
each other are seen to come to an end.

## Main definitions

* `Taken`: something read, and a shorter rest.
* `Kept`: something read, and a rest that is not longer.
-/

namespace SignalRules

variable {α τ : Type}

/-- What was read from the front of `before`, taking at least one member. -/
structure Taken (α : Type) {τ : Type} (before : List τ) where
  /-- What was read. -/
  result : α
  /-- The members after it. -/
  rest : List τ
  /-- At least one member was taken. -/
  shorter : rest.length < before.length

/-- What was read from the front of `before`, perhaps without taking a member. -/
structure Kept (α : Type) {τ : Type} (before : List τ) where
  /-- What was read. -/
  result : α
  /-- The members after it. -/
  rest : List τ
  /-- No member was added. -/
  notLonger : rest.length ≤ before.length

/-- The first member has been taken. -/
def Taken.first (a : α) (t : τ) (rest : List τ) : Taken α (t :: rest) :=
  ⟨a, rest, Nat.lt_succ_self _⟩

end SignalRules
