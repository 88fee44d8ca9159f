import SignalRules.Proofs.Coverage
import SignalRules.Proofs.Macros

/-!
# Quoted text is read back

A text of any characters is quoted, and the quoted text is read back as one token with the text as
its content. Quoting looks at the character before a percent sign, and reading at the character
behind a backslash, so each undoes the other character by character. A quoted text never opens a
macro: a percent sign behind an opening brace gets a backslash, and so an opening brace is never
followed by a percent sign.

## Main definitions

* `Lexicon.quoted`: the token of a quoted text at the beginning of a source.

## Main results

* `Lexicon.tokenize_quote`: how a quoted text is read, and that it opens no macro.
-/

namespace SignalRules.Lexicon

variable {g : Grammar}

/-- The token of a quoted text at the beginning of a source: it spans all of the quoted text. -/
def quoted (content : String) : Token :=
  ⟨.string, content, ⟨0, Text.byteLength (Text.quote content.toList)⟩⟩

/-- A quoted text that is set off from what follows is the first token. -/
theorem next_quote (content : String) {rest : List Char} (hoff : (ofGrammar g).SetOff rest) :
    (ofGrammar g).next 0 '\'' (Text.escape false content.toList ++ ['\''] ++ rest) =
      .ok (quoted content, rest) := by
  refine next_eq_ok_iff_starts.2 ⟨starts_quote content hoff, Text.quote content.toList, rfl, ?_⟩
  rw [quoted, Nat.zero_add]

/-- The tokens of a quoted text and what follows it are the token of the quoted text and the tokens
of what follows. -/
theorem tokenize_quote_append (content : String) {rest : List Char}
    (hoff : (ofGrammar g).SetOff rest) :
    (ofGrammar g).tokenize (Text.quote content.toList ++ rest) =
      ((ofGrammar g).scan (Text.byteLength (Text.quote content.toList)) rest).map
        (quoted content :: ·) := by
  refine (scan_cons rfl (next_quote content hoff)).trans ?_
  change _ = ((ofGrammar g).scan (quoted content).span.stop rest).map (quoted content :: ·)
  cases (ofGrammar g).scan (quoted content).span.stop rest <;> rfl

/-- A stop symbol by itself makes up a source. -/
theorem exists_scan_stopSymbol (start : Nat) {c : Char} (hc : c ∈ g.stopSymbols) :
    ∃ ts, (ofGrammar g).scan start [c] = .ok ts := by
  have hspells : ∃ xs, Spells (ofGrammar g) [c] xs := by
    by_cases hblank : Text.isBlank c
    · exact ⟨[], .blank hblank .nil⟩
    · have hshort : ∀ d ∈ g.stopSymbols, ∀ kw ∈ g.stopKeywords, ¬ kw.toList <+: [d] := by
        cases g <;> decide
      have hstarts := Starts.symbol (stopKeyword?_eq_none (hshort c hc)) (mem_stopSymbols.2 hc)
      exact ⟨[.symbol c], .token (by simpa using hblank) hstarts .nil⟩
  obtain ⟨xs, hspells⟩ := hspells
  obtain ⟨ts, hts, -⟩ := (scan_eq_ok_iff start).2 hspells
  exact ⟨ts, hts⟩

/-- In either grammar, a quoted text is read as one token that has the text as its content and spans
all of the quoted text, if it ends the source or a stop symbol follows. What follows is read as
it would be by itself. A quoted text opens no macro. -/
theorem tokenize_quote (g : Grammar) (content : String) :
    (ofGrammar g).tokenize (Text.quote content.toList) = .ok [quoted content] ∧
    (∀ c ∈ g.stopSymbols, ∃ ts,
      (ofGrammar g).tokenize (Text.quote content.toList ++ [c]) = .ok (quoted content :: ts)) ∧
    (∀ rest, (ofGrammar g).SetOff rest →
      (ofGrammar g).tokenize (Text.quote content.toList ++ rest) =
        ((ofGrammar g).scan (Text.byteLength (Text.quote content.toList)) rest).map
          (quoted content :: ·)) ∧
    ¬ Dialect.macroOpen <:+: Text.quote content.toList := by
  refine ⟨?_, fun c hc => ?_, fun rest hoff => tokenize_quote_append content hoff, ?_⟩
  · have hend : (ofGrammar g).SetOff [] := by simp [SetOff]
    have hall := tokenize_quote_append content hend
    rwa [List.append_nil, scan] at hall
  · have hoff : (ofGrammar g).SetOff [c] := by simpa [SetOff] using isStop_of_mem hc
    obtain ⟨ts, hts⟩ := exists_scan_stopSymbol (Text.byteLength (Text.quote content.toList)) hc
    exact ⟨ts, by rw [tokenize_quote_append content hoff, hts]; rfl⟩
  · have hcut := Text.cutAt?_quote content.toList (rfl : Text.cutAt? Dialect.macroOpen [] = none)
    rwa [List.append_nil, Text.cutAt?_eq_none_iff] at hcut

/-- A percent sign behind a brace, a backslash, a quote and a line break, in front of a parenthesis
and in front of another percent sign. -/
theorem tokenize_quote_brace :
    Text.quote "\x7b%\\'%\n".toList = "'\x7b\\%\\\\\\'%\n'".toList ∧
    ')' ∈ Grammar.algebraic.stopSymbols ∧
    (∃ ts, (ofGrammar .algebraic).tokenize ("'\x7b\\%\\\\\\'%\n'".toList ++ [')']) =
      .ok (quoted "\x7b%\\'%\n" :: ts)) ∧
    (ofGrammar .algebraic).SetOff ['%', '1'] ∧
    (ofGrammar .algebraic).tokenize ("'\x7b\\%\\\\\\'%\n'".toList ++ ['%', '1']) =
      .ok [quoted "\x7b%\\'%\n", ⟨.symbol, "%", ⟨11, 12⟩⟩, ⟨.number, "1", ⟨12, 13⟩⟩] ∧
    ¬ Dialect.macroOpen <:+: "'\x7b\\%\\\\\\'%\n'".toList := by
  have hquote : Text.quote "\x7b%\\'%\n".toList = "'\x7b\\%\\\\\\'%\n'".toList := by decide
  have hparen : ')' ∈ Grammar.algebraic.stopSymbols := by decide
  have hpercent : '%' ∈ Grammar.algebraic.stopSymbols := by decide
  have hoff : (ofGrammar .algebraic).SetOff ['%', '1'] := by
    simpa [SetOff] using isStop_of_mem hpercent
  obtain ⟨-, hstop, hrest, hmacro⟩ := tokenize_quote .algebraic "\x7b%\\'%\n"
  refine ⟨hquote, hparen, hquote ▸ hstop ')' hparen, hoff, ?_, hquote ▸ hmacro⟩
  rw [← hquote, hrest ['%', '1'] hoff]
  cbv

end SignalRules.Lexicon
