import SignalRules.Parser
import SignalRules.Proofs.Algebraic.Reading
import SignalRules.Proofs.Lexing
import SignalRules.Proofs.Polish.Reading

/-!
# Reading a source by its lexemes

Up to spans, a source is read as its lexemes are read, whatever the grammar: all of them have to be
taken, and what they make must not be a bare name.

## Main definitions

* `Context.readLexemes`: what is read from lexemes in the grammar of a context.

## Main results

* `Context.parse_eq_ok_iff`: what a source is read as.
-/

namespace SignalRules.Context

variable {ctx : Context}

/-- What is read from lexemes as an expression, in the grammar of the context. -/
def readLexemes (ctx : Context) (xs : List Lexeme) : Except Cause (Expr × List Lexeme) :=
  match ctx.grammar with
  | .polish => Polish.readExpression ctx xs
  | .algebraic => Algebraic.readExpression ctx 0 xs

theorem seen_expression (finish : Nat) (tokens : List Token) :
    seen (ctx.expression finish tokens) = ctx.readLexemes (tokens.map Token.lexeme) := by
  unfold expression readLexemes
  cases ctx.grammar with
  | polish => exact Polish.seen_expression ctx finish tokens
  | algebraic => exact Algebraic.seen_expression ctx finish 0 tokens

theorem readLexemes_nil : ctx.readLexemes [] = .error (.unexpectedEnd .expression) := by
  unfold readLexemes
  cases ctx.grammar with
  | polish => simp
  | algebraic => simp [Algebraic.readExpression_eq]

theorem notBare_eq_ok_iff {e e' : Expr} :
    notBare e = .ok e' ↔ e = e' ∧ ∀ name, e.head ≠ .symbol name := by
  unfold notBare
  cases e.head <;> simp

/-- All tokens are read as one expression. -/
theorem parseTokens_eq_ok_iff {finish : Nat} {tokens : List Token} {t : Expr} :
    (∃ e, ctx.parseTokens finish tokens = .ok e ∧ e.erase = t) ↔
      ctx.readLexemes (tokens.map Token.lexeme) = .ok (t, []) ∧
        ∀ name, t.head ≠ .symbol name := by
  cases tokens with
  | nil => simp [parseTokens, readLexemes_nil]
  | cons u us =>
    rw [← ctx.seen_expression finish]
    simp only [parseTokens, List.isEmpty_cons, Bool.false_eq_true, if_false]
    cases ctx.expression finish (u :: us) with
    | error err => simp [unplacedBy]
    | ok taken =>
      obtain ⟨e, rest, hshort⟩ := taken
      cases rest with
      | nil =>
        simp only [ok_bind, notBare_eq_ok_iff, unplacedBy, Taken.view_mk, List.map_nil,
          Except.ok.injEq, Prod.mk.injEq, and_true]
        constructor
        · rintro ⟨_, ⟨rfl, hhead⟩, rfl⟩
          exact ⟨rfl, by simpa using hhead⟩
        · rintro ⟨rfl, hhead⟩
          exact ⟨e, ⟨rfl, by simpa using hhead⟩, rfl⟩
      | cons v vs => simp [unplacedBy]

/-- A source is read as its lexemes are, if they make no bare name. -/
theorem parse_eq_ok_iff {source : List Char} {t : Expr} :
    (∃ e, ctx.parse source = .ok e ∧ e.erase = t) ↔
      ∃ xs, (Lexicon.ofGrammar ctx.grammar).Spells source xs ∧
        ctx.readLexemes xs = .ok (t, []) ∧ ∀ name, t.head ≠ .symbol name := by
  unfold parse
  constructor
  · rintro ⟨e, h, rfl⟩
    obtain ⟨tokens, htokens, h⟩ := bind_eq_ok_iff.1 h
    exact ⟨_, Lexicon.tokenize_eq_ok_iff.1 ⟨tokens, htokens, rfl⟩,
      parseTokens_eq_ok_iff.1 ⟨e, h, rfl⟩⟩
  · rintro ⟨xs, hxs, h⟩
    obtain ⟨tokens, htokens, rfl⟩ := Lexicon.tokenize_eq_ok_iff.2 hxs
    rw [htokens]
    exact parseTokens_eq_ok_iff.2 h

end SignalRules.Context
