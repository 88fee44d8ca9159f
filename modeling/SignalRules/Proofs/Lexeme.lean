import SignalRules.Parser.Expect
import SignalRules.Proofs.Erasure

/-!
# Tokens without their spans

A lexeme is what is left of a token when its place is forgotten. What a reader answers, up to
places, is the expression without spans and the lexemes of the tokens that are left over, or the
cause of the refusal.

## Main definitions

* `Lexeme`, `Token.lexeme`, `Lexeme.token`.
* `Taken.seen`, `Kept.seen`: an answer of a reader without the places in it.
-/

namespace SignalRules

/-- A token without its place. -/
structure Lexeme where
  /-- The kind. -/
  kind : TokenKind
  /-- The text. -/
  text : String
deriving DecidableEq, Inhabited

/-- The token without its place. -/
def Token.lexeme (t : Token) : Lexeme := ⟨t.kind, t.text⟩

/-- A token for a lexeme, at no particular place. -/
def Lexeme.token (x : Lexeme) : Token := ⟨x.kind, x.text, default⟩

/-- The stop symbol `c`. -/
def Lexeme.symbol (c : Char) : Lexeme := ⟨.symbol, String.singleton c⟩

@[simp] theorem lexeme_token (x : Lexeme) : x.token.lexeme = x := rfl

@[simp] theorem lexeme_comp_token : Token.lexeme ∘ Lexeme.token = id := rfl

theorem Token.isSymbol_iff {t : Token} {c : Char} : t.isSymbol c ↔ t.lexeme = .symbol c := by
  simp [isSymbol, lexeme, Lexeme.symbol]

theorem Token.isSymbol_congr {t u : Token} (h : t.lexeme = u.lexeme) (c : Char) :
    t.isSymbol c = u.isSymbol c := by
  rw [Bool.eq_iff_iff, isSymbol_iff, isSymbol_iff, h]

theorem Token.kind_eq {t u : Token} (h : t.lexeme = u.lexeme) : t.kind = u.kind :=
  congrArg Lexeme.kind h

theorem Token.text_eq {t u : Token} (h : t.lexeme = u.lexeme) : t.text = u.text :=
  congrArg Lexeme.text h

section View

variable {α β : Type} {before : List Token}

/-- What was read and what is left, without places; `f` forgets those in the result. -/
def Taken.view (f : α → β) (t : Taken α before) : β × List Lexeme :=
  (f t.result, t.rest.map Token.lexeme)

/-- What was read and what is left, without places; `f` forgets those in the result. -/
def Kept.view (f : α → β) (t : Kept α before) : β × List Lexeme :=
  (f t.result, t.rest.map Token.lexeme)

@[simp] theorem Taken.view_mk (f : α → β) (a : α) (rest : List Token)
    (h : rest.length < before.length) :
    (Taken.mk a rest h).view f = (f a, rest.map Token.lexeme) := rfl

@[simp] theorem Kept.view_mk (f : α → β) (a : α) (rest : List Token)
    (h : rest.length ≤ before.length) :
    (Kept.mk a rest h).view f = (f a, rest.map Token.lexeme) := rfl

@[simp] theorem Taken.view_first (f : α → β) (a : α) (t : Token) (rest : List Token) :
    (Taken.first a t rest).view f = (f a, rest.map Token.lexeme) := rfl

end View

/-- The answer of a reader of one expression, without places. -/
abbrev seen {before : List Token} (answer : Except ParseError (Taken Expr before)) :
    Except Cause (Expr × List Lexeme) := unplacedBy (Taken.view Expr.erase) answer

/-- The answer of a reader of arguments, without places. -/
abbrev seenAll {before : List Token}
    (answer : Except ParseError (Taken (List Expr × Span) before)) :
    Except Cause (List Expr × List Lexeme) :=
  unplacedBy (Taken.view fun p => p.1.map Expr.erase) answer

/-- The answer of a reader that extends an operand, without places. -/
abbrev seenKept {before : List Token} (answer : Except ParseError (Kept Expr before)) :
    Except Cause (Expr × List Lexeme) := unplacedBy (Kept.view Expr.erase) answer

/-- The lexemes of two lists of tokens are compared member by member. -/
theorem lexemes_cases {us vs : List Token} (h : us.map Token.lexeme = vs.map Token.lexeme) :
    us = [] ∧ vs = [] ∨ ∃ u us' v vs', us = u :: us' ∧ vs = v :: vs' ∧ u.lexeme = v.lexeme ∧
      us'.map Token.lexeme = vs'.map Token.lexeme := by
  rcases us with _ | ⟨u, us⟩ <;> rcases vs with _ | ⟨v, vs⟩ <;> simp_all

theorem startsWith_congr {us vs : List Token} (h : us.map Token.lexeme = vs.map Token.lexeme)
    (c : Char) : startsWith c us = startsWith c vs := by
  rcases lexemes_cases h with ⟨rfl, rfl⟩ | ⟨u, us, v, vs, rfl, rfl, hu, -⟩
  · rfl
  · exact Token.isSymbol_congr hu c

theorem unplaced_unexpectedToken {t u : Token} (h : t.lexeme = u.lexeme) (x : Expectation) :
    (unexpectedToken x t).cause = (unexpectedToken x u).cause := by
  simp only [unexpectedToken, ParseError.located, Token.kind_eq h, Token.text_eq h]

/-- Take the symbol `c` from the front of lexemes. -/
def readSymbol (c : Char) (x : Expectation) : List Lexeme → Except Cause (List Lexeme)
  | [] => .error (.unexpectedEnd x)
  | y :: ys =>
    if y = .symbol c then .ok ys else .error (.unexpectedToken x y.kind y.text)

@[simp] theorem readSymbol_symbol (c : Char) (x : Expectation) (xs : List Lexeme) :
    readSymbol c x (.symbol c :: xs) = .ok xs := by
  simp [readSymbol]

theorem readSymbol_eq_ok {c : Char} {x : Expectation} {xs rest : List Lexeme}
    (h : readSymbol c x xs = .ok rest) : xs = .symbol c :: rest := by
  cases xs with
  | nil => simp [readSymbol] at h
  | cons y ys =>
    simp only [readSymbol] at h
    split_ifs at h with hy
    rw [hy, Except.ok.inj h]

/-- Up to places, reading a symbol depends on the lexemes only. -/
theorem unplacedBy_expectSymbol (c : Char) (x : Expectation) (finish : Nat) (us : List Token) :
    unplacedBy (fun t => t.rest.map Token.lexeme) (expectSymbol c x finish us) =
      readSymbol c x (us.map Token.lexeme) := by
  cases us with
  | nil => rfl
  | cons u us =>
    simp only [expectSymbol, List.map_cons, readSymbol, Token.isSymbol_iff]
    split_ifs <;> rfl

theorem expectSymbol_congr (c : Char) (x : Expectation) (f g : Nat) {us vs : List Token}
    (h : us.map Token.lexeme = vs.map Token.lexeme) :
    unplacedBy (fun t => t.rest.map Token.lexeme) (expectSymbol c x f us) =
      unplacedBy (fun t => t.rest.map Token.lexeme) (expectSymbol c x g vs) := by
  rw [unplacedBy_expectSymbol, unplacedBy_expectSymbol, h]

end SignalRules
