import Mathlib.Data.Set.Subsingleton
import SignalRules.Proofs.Algebraic.Soundness
import SignalRules.Proofs.Algebraic.Unambiguous
import SignalRules.Proofs.Parsing

/-!
# Precedence climbing is exact

A source of the algebraic grammar is read as an expression exactly if its lexemes spell a phrase
that respects precedence and that builds the expression. The phrase is unique, whether it can be
built or not.

## Main definitions

* `Phrase.Spells`: the tokens of a source are the lexemes of a phrase.

## Main results

* `Phrase.parse_iff_build`: the reader accepts the sources of buildable phrases, and no others.
-/

namespace SignalRules

namespace Algebraic

theorem length_of_mem_keywords : ∀ kw ∈ Grammar.algebraic.keywords, kw.length ≠ 1 := by
  decide

theorem length_of_mem_stopKeywords : ∀ kw ∈ Grammar.algebraic.stopKeywords, kw.length ≠ 1 := by
  decide

/-- In the lexemes of a source, stop symbols are single characters and operator words longer. -/
theorem isRegular_of_spells {source : List Char} {xs : List Lexeme}
    (h : (Lexicon.ofGrammar .algebraic).Spells source xs) : ∀ x ∈ xs, IsRegular x := by
  intro x hx
  obtain ⟨cs, rest, hstarts⟩ := h.exists_starts hx
  constructor
  · intro hkind
    obtain ⟨c, -, rfl⟩ := hstarts.of_symbol hkind
    simp [Lexeme.symbol]
  · intro hkind
    rcases hstarts.of_keyword hkind with hmem | hmem
    · exact length_of_mem_stopKeywords _ (by simpa [Lexicon.ofGrammar, Lexicon.make] using hmem)
    · exact length_of_mem_keywords _ hmem

variable {ctx : Context}

/-- All of the lexemes of a source are read as one expression if they spell a phrase of it. -/
theorem readExpression_eq_ok_iff {xs : List Lexeme} (hxs : ∀ x ∈ xs, IsRegular x) {e : Expr} :
    readExpression ctx 0 xs = .ok (e, []) ↔
      ∃ p : Phrase, p.RespectsPrecedence ∧ p.yield = xs ∧ p.build ctx = .ok e := by
  constructor
  · intro h
    obtain ⟨p, hp⟩ := exists_wholeReading hxs h
    exact ⟨p, hp.respects, by simpa using hp.yield, hp.build⟩
  · rintro ⟨p, hp, rfl, hbuild⟩
    have hback : ReadsBack ctx p := readExpression_yield hp
    have hstops : Stops 0 [] := by simp [Stops]
    simpa [hbuild] using hback.readExpression_eq (fun _ => Nat.zero_le _) (follows_nil _) hstops

end Algebraic

namespace Phrase

variable {ctx : Context}

/-- A phrase never builds a bare name. -/
theorem head_ne_symbol_of_build {p : Phrase} {e : Expr} (h : p.build ctx = .ok e)
    (name : String) : e.head ≠ .symbol name := by
  have happly {op : Operator} {es : List Expr}
      (h : unplaced (ctx.apply op es default) = .ok e) : e.head ≠ .symbol name := by
    obtain ⟨head, es', hbuilt, rfl⟩ := Context.unplaced_apply_eq_ok_iff.1 h
    exact hbuilt.head_ne_symbol name
  induction p with
  | number digits | negative digits =>
    obtain ⟨e', he', rfl⟩ := unplaced_eq_ok_iff.1 h
    obtain ⟨n, -, rfl⟩ := Context.number_eq_ok_iff.1 he'
    simp [Expr.constant, Expr.head]
  | text content =>
    cases h
    simp [Expr.constant, Expr.head]
  | signal name' =>
    obtain ⟨e', he', rfl⟩ := unplaced_eq_ok_iff.1 h
    obtain ⟨s, -, rfl⟩ := Context.signal_eq_ok_iff.1 he'
    simp [Expr.head]
  | presence => exact happly h
  | group inner ih => exact ih h
  | call | minus | not =>
    obtain ⟨_, -, h⟩ := bind_eq_ok_iff.1 h
    exact happly h
  | invoke name' args =>
    obtain ⟨es, -, h⟩ := bind_eq_ok_iff.1 h
    obtain ⟨e', he', rfl⟩ := unplaced_eq_ok_iff.1 h
    obtain ⟨a, -, rfl⟩ := Context.action_eq_ok_iff.1 he'
    simp [Expr.head]
  | binary =>
    obtain ⟨_, -, h⟩ := bind_eq_ok_iff.1 h
    obtain ⟨_, -, h⟩ := bind_eq_ok_iff.1 h
    exact happly h

/-- The tokens of a source are the lexemes of the phrase, in order. -/
def Spells (p : Phrase) (source : List Char) : Prop :=
  ∃ tokens, (Lexicon.ofGrammar .algebraic).tokenize source = .ok tokens ∧
    tokens.map Token.lexeme = p.yield

/-- A source of the algebraic grammar is read, up to spans, as what a phrase that it spells and that
respects precedence builds; and it spells at most one phrase that respects precedence. -/
theorem parse_iff_build (host : Host) (strict : Bool) (source : List Char) :
    {p : Phrase | p.RespectsPrecedence ∧ p.Spells source}.Subsingleton ∧
    ∀ t : Expr,
      (∃ e, (Context.mk host strict .algebraic).parse source = .ok e ∧ e.erase = t.erase) ↔
        ∃ p : Phrase, p.RespectsPrecedence ∧ p.Spells source ∧
          p.build ⟨host, strict, .algebraic⟩ = .ok t.erase := by
  constructor
  · rintro p ⟨hp, tokens, htokens, hyield⟩ q ⟨hq, tokens', htokens', hyield'⟩
    rw [htokens] at htokens'
    cases htokens'
    exact Algebraic.eq_of_yield_eq hp hq (hyield.symm.trans hyield')
  · intro t
    rw [Context.parse_eq_ok_iff]
    constructor
    · rintro ⟨xs, hspells, hread, -⟩
      have hregular := Algebraic.isRegular_of_spells hspells
      obtain ⟨p, hp, rfl, hbuild⟩ := (Algebraic.readExpression_eq_ok_iff hregular).1 hread
      exact ⟨p, hp, Lexicon.tokenize_eq_ok_iff.2 hspells, hbuild⟩
    · rintro ⟨p, hp, hspells, hbuild⟩
      have hspells' := Lexicon.tokenize_eq_ok_iff.1 hspells
      have hregular := Algebraic.isRegular_of_spells hspells'
      exact ⟨p.yield, hspells', (Algebraic.readExpression_eq_ok_iff hregular).2
        ⟨p, hp, rfl, hbuild⟩, head_ne_symbol_of_build hbuild⟩

end Phrase

end SignalRules
