import SignalRules.Proofs.Lexeme
import SignalRules.Token.Lexer

/-!
# The lexemes of a source

What a source is cut into, without places, as a relation: at each place one rule of the lexicon
applies, blanks are skipped, and the lexemes follow one after the other. Offsets only tell where a
token stands, never what it is.

## Main definitions

* `Lexicon.Starts`: a text starts with a lexeme.
* `Lexicon.Spells`: a text is made up of lexemes.
* `Grammar.IsName`: a name that can be written in a grammar.

## Main results

* `Lexicon.tokenize_eq_ok_iff`: a source is cut into the lexemes that it is made up of.
* `Lexicon.Spells.unique`: they are determined by the source.
* `Lexicon.Spells.isName`: the names in a source are dotted names that are not reserved.
-/

namespace SignalRules

/-- A name that can be written in a grammar: a dotted name that is not reserved. -/
def Grammar.IsName (g : Grammar) (name : String) : Prop :=
  isIdentifier name.toList ∧ name ∉ g.keywords

namespace Lexicon

variable {lx : Lexicon}

/-- A token that has to be set off from what follows is. -/
def SetOff (lx : Lexicon) (rest : List Char) : Prop := ∀ c ∈ rest.head?, lx.isStop c

/-- The text `cs` starts with the lexeme `x` and goes on with `rest`. -/
inductive Starts (lx : Lexicon) : List Char → Lexeme → List Char → Prop
  | stopKeyword {cs rest : List Char} {keyword : String}
      (hkeyword : lx.stopKeyword? cs = some (keyword, rest))
      (hsetOff : lx.endsInStop keyword ∨ lx.SetOff rest) : Starts lx cs ⟨.keyword, keyword⟩ rest
  | symbol {c : Char} {cs : List Char} (hkeyword : lx.stopKeyword? (c :: cs) = none)
      (hc : c ∈ lx.stopSymbols) : Starts lx (c :: cs) (.symbol c) cs
  | literal {c : Char} {cs : List Char} {l : Literal}
      (hkeyword : lx.stopKeyword? (c :: cs) = none) (hc : c ∉ lx.stopSymbols)
      (hquote : c ∈ lx.quotes) (hl : readLiteral c cs = some l) (hsetOff : lx.SetOff l.rest) :
      Starts lx (c :: cs) ⟨.string, String.ofList l.content⟩ l.rest
  | word {c : Char} {cs : List Char} {kind : TokenKind}
      (hkeyword : lx.stopKeyword? (c :: cs) = none) (hc : c ∉ lx.stopSymbols)
      (hquote : c ∉ lx.quotes)
      (hkind : lx.wordKind? (c :: cs.takeWhile fun d => !lx.isStop d) = some kind) :
      Starts lx (c :: cs) ⟨kind, String.ofList (c :: cs.takeWhile fun d => !lx.isStop d)⟩
        (cs.dropWhile fun d => !lx.isStop d)

theorem separated_of_setOff {rest : List Char} (h : lx.SetOff rest) (lexeme : List Char)
    (start : Nat) :
    lx.separated lexeme start rest = .ok ⟨start, start + Text.byteLength lexeme⟩ := by
  cases rest with
  | nil => rfl
  | cons c rest => simp [separated, h c rfl]

theorem setOff_of_separated {lexeme rest : List Char} {start : Nat} {span : Span}
    (h : lx.separated lexeme start rest = .ok span) : lx.SetOff rest := by
  cases rest with
  | nil => simp [SetOff]
  | cons c rest =>
    by_cases hc : lx.isStop c
    · simpa [SetOff] using hc
    · simp [separated, hc] at h

/-- The next token is the lexeme that the text starts with. -/
theorem next_eq_ok_iff (start : Nat) {c : Char} {cs rest : List Char} {x : Lexeme} :
    (∃ t, lx.next start c cs = .ok (t, rest) ∧ t.lexeme = x) ↔ Starts lx (c :: cs) x rest := by
  -- The cases come in the order of the alternatives: stop keyword, symbol, literal, word.
  unfold next
  constructor
  · rintro ⟨t, h, rfl⟩
    split at h
    · rename_i keyword rest' hkeyword
      split_ifs at h with hends
      · cases h
        exact .stopKeyword hkeyword (.inl hends)
      · obtain ⟨span, hspan, h⟩ := bind_eq_ok_iff.1 h
        cases h
        exact .stopKeyword hkeyword (.inr (setOff_of_separated hspan))
    · rename_i hkeyword
      split_ifs at h with hc hquote
      · cases h
        exact .symbol hkeyword (by simpa using hc)
      · split at h
        · cases h
        · rename_i l hl
          obtain ⟨span, hspan, h⟩ := bind_eq_ok_iff.1 h
          cases h
          exact .literal hkeyword (by simpa using hc) (by simpa using hquote) hl
            (setOff_of_separated hspan)
      · dsimp only at h
        split at h
        · cases h
        · rename_i kind hkind
          cases h
          exact .word hkeyword (by simpa using hc) (by simpa using hquote) hkind
  · intro h
    cases h with
    | @stopKeyword _ _ keyword hkeyword hsetOff =>
      simp only [hkeyword]
      by_cases hends : lx.endsInStop keyword
      · exact ⟨_, by rw [if_pos hends], rfl⟩
      · have hspan := separated_of_setOff (hsetOff.resolve_left hends) keyword.toList start
        exact ⟨_, by rw [if_neg hends, hspan]; rfl, rfl⟩
    | symbol hkeyword hc => simp [hkeyword, hc, Token.lexeme, Lexeme.symbol]
    | @literal _ _ l hkeyword hc hquote hl hsetOff =>
      have hspan := separated_of_setOff hsetOff (c :: l.raw) start
      simp only [hkeyword, hl, hspan, List.contains_eq_mem, hc, hquote]
      exact ⟨_, rfl, rfl⟩
    | word hkeyword hc hquote hkind =>
      simp only [hkeyword, hkind, List.contains_eq_mem, hc, hquote]
      exact ⟨_, rfl, rfl⟩

/-- A text is made up of lexemes, with blanks where they do not matter. -/
inductive Spells (lx : Lexicon) : List Char → List Lexeme → Prop
  | nil : Spells lx [] []
  | blank {c : Char} {cs : List Char} {xs : List Lexeme} (hc : Text.isBlank c)
      (h : Spells lx cs xs) : Spells lx (c :: cs) xs
  | token {c : Char} {cs rest : List Char} {x : Lexeme} {xs : List Lexeme}
      (hc : Text.isBlank c = false) (hx : Starts lx (c :: cs) x rest) (h : Spells lx rest xs) :
      Spells lx (c :: cs) (x :: xs)

theorem scan_cons {start : Nat} {c : Char} {cs rest : List Char} {t : Token}
    (hc : Text.isBlank c = false) (hnext : lx.next start c cs = .ok (t, rest)) :
    lx.scan start (c :: cs) =
      match lx.scan t.span.stop rest with
      | .error e => .error e
      | .ok tokens => .ok (t :: tokens) := by
  rw [scan, if_neg (by simp [hc])]
  split
  · rename_i e he
    cases hnext.symm.trans he
  · rename_i token rest' h
    cases hnext.symm.trans h
    rfl

/-- Scanning cuts a text into the lexemes that it is made up of. -/
theorem scan_eq_ok_iff (start : Nat) {cs : List Char} {xs : List Lexeme} :
    (∃ tokens, lx.scan start cs = .ok tokens ∧ tokens.map Token.lexeme = xs) ↔
      Spells lx cs xs := by
  constructor
  · rintro ⟨tokens, h, rfl⟩
    fun_induction scan lx start cs generalizing tokens with
    | case1 => cases h; exact .nil
    | case2 start c cs hc ih => exact .blank hc (ih _ h)
    | case3 => cases h
    | case4 => cases h
    | case5 start c cs hc token rest hnext tokens' hrest ih =>
      cases h
      exact .token (by simpa using hc) ((next_eq_ok_iff start).1 ⟨token, hnext, rfl⟩) (ih _ hrest)
  · intro h
    induction h generalizing start with
    | nil => exact ⟨[], by rw [scan], rfl⟩
    | blank hc _ ih =>
      obtain ⟨tokens, h, hxs⟩ := ih (start + Char.utf8Size _)
      exact ⟨tokens, by rw [scan, if_pos hc]; exact h, hxs⟩
    | token hc hx _ ih =>
      obtain ⟨t, hnext, rfl⟩ := (next_eq_ok_iff start).2 hx
      obtain ⟨tokens, h, rfl⟩ := ih t.span.stop
      exact ⟨t :: tokens, by rw [scan_cons hc hnext, h], rfl⟩

/-- A source is cut into the lexemes that it is made up of. -/
theorem tokenize_eq_ok_iff {cs : List Char} {xs : List Lexeme} :
    (∃ tokens, lx.tokenize cs = .ok tokens ∧ tokens.map Token.lexeme = xs) ↔ Spells lx cs xs :=
  scan_eq_ok_iff 0

/-- A text is made up of lexemes in one way. -/
theorem Spells.unique {cs : List Char} {xs ys : List Lexeme} (hx : Spells lx cs xs)
    (hy : Spells lx cs ys) : xs = ys := by
  obtain ⟨tokens, h, rfl⟩ := tokenize_eq_ok_iff.2 hx
  obtain ⟨tokens', h', rfl⟩ := tokenize_eq_ok_iff.2 hy
  rw [h] at h'
  rw [Except.ok.inj h']

/-! ### What lexemes look like -/

/-- A run of characters is a number, a reserved word, or a dotted name that is not reserved. -/
theorem wordKind?_eq_some {word : List Char} {kind : TokenKind}
    (h : lx.wordKind? word = some kind) :
    kind = .number ∨ kind = .keyword ∧ String.ofList word ∈ lx.keywords ∨
      kind = .identifier ∧ isIdentifier word ∧ String.ofList word ∉ lx.keywords := by
  simp only [wordKind?] at h
  split_ifs at h with hnumber hkeyword hname
  · exact .inl (Option.some.inj h).symm
  · exact .inr (.inl ⟨(Option.some.inj h).symm, by simpa using hkeyword⟩)
  · exact .inr (.inr ⟨(Option.some.inj h).symm, hname, by simpa using hkeyword⟩)

/-- An operator that a text starts with is one of the lexicon. -/
theorem mem_of_stopKeyword? {cs rest : List Char} {keyword : String}
    (h : lx.stopKeyword? cs = some (keyword, rest)) : keyword ∈ lx.stopKeywords := by
  obtain ⟨kw, hkw, h⟩ := List.exists_of_findSome?_eq_some h
  split_ifs at h
  obtain ⟨rest', -, h⟩ := Option.map_eq_some_iff.1 h
  cases h
  exact hkw

section Starts

variable {cs rest : List Char} {x : Lexeme} (h : Starts lx cs x rest)

include h

theorem Starts.of_symbol (hx : x.kind = .symbol) : ∃ c ∈ lx.stopSymbols, x = .symbol c := by
  cases h with
  | symbol _ hc => exact ⟨_, hc, rfl⟩
  | word _ _ _ hkind =>
    obtain rfl := hx
    simpa using wordKind?_eq_some hkind
  | _ => cases hx

theorem Starts.of_keyword (hx : x.kind = .keyword) :
    x.text ∈ lx.stopKeywords ∨ x.text ∈ lx.keywords := by
  cases h with
  | stopKeyword hkeyword => exact .inl (mem_of_stopKeyword? hkeyword)
  | word _ _ _ hkind =>
    obtain rfl := hx
    exact .inr (by simpa using wordKind?_eq_some hkind)
  | _ => cases hx

theorem Starts.of_identifier (hx : x.kind = .identifier) :
    isIdentifier x.text.toList ∧ x.text ∉ lx.keywords := by
  cases h with
  | word _ _ _ hkind =>
    obtain rfl := hx
    simpa using wordKind?_eq_some hkind
  | _ => cases hx

end Starts

/-- Every lexeme of a text stands somewhere in it. -/
theorem Spells.exists_starts {cs : List Char} {xs : List Lexeme} (h : Spells lx cs xs)
    {x : Lexeme} (hx : x ∈ xs) : ∃ cs' rest, Starts lx cs' x rest := by
  induction h with
  | nil => cases hx
  | blank _ _ ih => exact ih hx
  | token _ hstarts _ ih =>
    rcases List.mem_cons.1 hx with rfl | hx
    · exact ⟨_, _, hstarts⟩
    · exact ih hx

/-- The names in a source can be written in its grammar. -/
theorem Spells.isName {g : Grammar} {cs : List Char} {xs : List Lexeme}
    (h : Spells (ofGrammar g) cs xs) {x : Lexeme} (hx : x ∈ xs) (hkind : x.kind = .identifier) :
    g.IsName x.text := by
  obtain ⟨cs', rest, hstarts⟩ := h.exists_starts hx
  exact hstarts.of_identifier hkind

end Lexicon

end SignalRules
