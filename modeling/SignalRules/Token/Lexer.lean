import SignalRules.ParseError

/-!
# From text to tokens

At every place of a source the first of these rules that applies makes the next token: a blank
separates and makes none; an operator of several symbols, the longest first; a single stop symbol;
a text literal, in which a backslash takes the next character as it is; and otherwise the longest
run of characters that are not stop symbols, which is a number, a reserved word or a name. A text
literal, and an operator that does not end in a stop symbol, must be followed by a stop symbol or
by the end of the source.

## Main definitions

* `Lexicon.readLiteral`: the rest of a text literal behind its opening quote.
* `Lexicon.next`: the token at the beginning of a text that does not start with a blank.
* `Lexicon.scan`, `Lexicon.tokenize`: all tokens of a source.
-/

namespace SignalRules

/-- A text literal behind its opening quote: the characters read, closing quote included, their
content, and the text after the literal. -/
structure Literal where
  /-- The characters read. -/
  raw : List Char
  /-- The content. -/
  content : List Char
  /-- What follows. -/
  rest : List Char

namespace Lexicon

/-- Read a text literal behind its opening quote; `none` if it does not end. -/
def readLiteral (quote : Char) : List Char → Option Literal
  | [] => none
  | c :: cs =>
    if c = '\\' then
      match cs with
      | [] => none
      | d :: cs => (readLiteral quote cs).map fun l => ⟨c :: d :: l.raw, d :: l.content, l.rest⟩
    else if c = quote then some ⟨[c], [], cs⟩
    else (readLiteral quote cs).map fun l => ⟨c :: l.raw, c :: l.content, l.rest⟩

theorem eq_append_of_readLiteral {quote : Char} {cs : List Char} {l : Literal}
    (h : readLiteral quote cs = some l) : cs = l.raw ++ l.rest := by
  fun_induction readLiteral quote cs generalizing l with
  | case1 => simp at h
  | case2 => simp at h
  | case3 d cs ih =>
    obtain ⟨l', hl, rfl⟩ := Option.map_eq_some_iff.1 h
    simp [← ih hl]
  | case4 => simp at h; subst h; simp
  | case5 c cs _ _ ih =>
    obtain ⟨l', hl, rfl⟩ := Option.map_eq_some_iff.1 h
    simp [← ih hl]

/-- The first of the given operators that the text starts with, and the text after it. -/
def stopKeyword? (lx : Lexicon) (cs : List Char) : Option (String × List Char) :=
  lx.stopKeywords.findSome? fun kw =>
    if kw = "" then none else (Text.stripStart? kw.toList cs).map fun rest => (kw, rest)

/-- The kind of a run of characters that are not stop symbols. -/
def wordKind? (lx : Lexicon) (word : List Char) : Option TokenKind :=
  let numeric := match word with
    | [] => false
    | c :: _ => Fixed.isDigit c || c == '-'
  if numeric then some .number
  else if lx.keywords.contains (String.ofList word) then some .keyword
  else if isIdentifier word then some .identifier
  else none

/-- The end of a token that has to be followed by a stop symbol or the end of the source. -/
def separated (lx : Lexicon) (lexeme : List Char) (start : Nat) (rest : List Char) :
    Except ParseError Span :=
  let stop := start + Text.byteLength lexeme
  match rest with
  | [] => .ok ⟨start, stop⟩
  | c :: _ =>
    if lx.isStop c then .ok ⟨start, stop⟩
    else .error (.located (.missingSeparator (String.ofList lexeme) c) ⟨start, stop + c.utf8Size⟩)

/-- Whether the last character of an operator is a stop symbol. -/
def endsInStop (lx : Lexicon) (keyword : String) : Bool :=
  match keyword.toList.getLast? with
  | some c => lx.isStop c
  | none => false

/-- The token at the beginning of the text `c :: cs`, which starts at the offset `start` and not
with a blank, and the text after it. -/
def next (lx : Lexicon) (start : Nat) (c : Char) (cs : List Char) :
    Except ParseError (Token × List Char) :=
  match lx.stopKeyword? (c :: cs) with
  | some (keyword, rest) =>
    if lx.endsInStop keyword then
      .ok (⟨.keyword, keyword, ⟨start, start + Text.byteLength keyword.toList⟩⟩, rest)
    else do
      let span ← lx.separated keyword.toList start rest
      return (⟨.keyword, keyword, span⟩, rest)
  | none =>
    if lx.stopSymbols.contains c then
      .ok (⟨.symbol, String.singleton c, ⟨start, start + c.utf8Size⟩⟩, cs)
    else if lx.quotes.contains c then
      match readLiteral c cs with
      | none =>
        .error (.located .unterminatedString ⟨start, start + Text.byteLength (c :: cs)⟩)
      | some literal => do
        let span ← lx.separated (c :: literal.raw) start literal.rest
        return (⟨.string, String.ofList literal.content, span⟩, literal.rest)
    else
      let word := c :: cs.takeWhile fun d => !lx.isStop d
      let span : Span := ⟨start, start + Text.byteLength word⟩
      match lx.wordKind? word with
      | none => .error (.located (.invalidIdentifier (String.ofList word)) span)
      | some kind =>
        .ok (⟨kind, String.ofList word, span⟩, cs.dropWhile fun d => !lx.isStop d)

theorem eq_append_of_stopKeyword? {lx : Lexicon} {cs rest : List Char} {keyword : String}
    (h : lx.stopKeyword? cs = some (keyword, rest)) :
    keyword ≠ "" ∧ cs = keyword.toList ++ rest := by
  obtain ⟨kw, _, hkw⟩ := List.exists_of_findSome?_eq_some h
  split at hkw
  · simp at hkw
  · next hne =>
    obtain ⟨r, hr, heq⟩ := Option.map_eq_some_iff.1 hkw
    obtain ⟨rfl, rfl⟩ := Prod.mk.inj heq
    exact ⟨hne, Text.eq_append_of_stripStart? hr⟩

theorem length_lt_of_next {lx : Lexicon} {start : Nat} {c : Char} {cs rest : List Char}
    {token : Token} (h : lx.next start c cs = .ok (token, rest)) :
    rest.length < (c :: cs).length := by
  unfold next at h
  split at h
  · next keyword rest' hk =>
    obtain ⟨hne, heq⟩ := eq_append_of_stopKeyword? hk
    have hpos : 0 < keyword.toList.length := by
      rcases Nat.eq_zero_or_pos keyword.toList.length with hz | hz
      · exact absurd (String.toList_eq_nil_iff.1 (List.length_eq_zero_iff.1 hz)) hne
      · exact hz
    have hrest : rest' = rest := by
      split at h
      · simp only [Except.ok.injEq, Prod.mk.injEq] at h
        exact h.2
      · cases hs : lx.separated keyword.toList start rest' with
        | error e => simp [hs, bind, Except.bind] at h
        | ok span =>
          simp only [hs, bind, Except.bind, pure, Except.pure, Except.ok.injEq,
            Prod.mk.injEq] at h
          exact h.2
    subst hrest
    rw [heq, List.length_append]
    omega
  · split at h
    · simp only [Except.ok.injEq, Prod.mk.injEq] at h
      rw [← h.2]
      simp
    · split at h
      · split at h
        · simp at h
        · next literal hl =>
          have heq := eq_append_of_readLiteral hl
          have hrest : literal.rest = rest := by
            cases hs : lx.separated (c :: literal.raw) start literal.rest with
            | error e => simp [hs, bind, Except.bind] at h
            | ok span =>
              simp only [hs, bind, Except.bind, pure, Except.pure, Except.ok.injEq,
                Prod.mk.injEq] at h
              exact h.2
          rw [heq, ← hrest, List.length_cons, List.length_append]
          omega
      · dsimp only at h
        split at h
        · simp at h
        · simp only [Except.ok.injEq, Prod.mk.injEq] at h
          have hle := (List.dropWhile_sublist (l := cs) fun d => !lx.isStop d).length_le
          rw [← h.2, List.length_cons]
          omega

/-- The tokens of a text that starts at the offset `start`. -/
def scan (lx : Lexicon) (start : Nat) (cs : List Char) : Except ParseError (List Token) :=
  match cs with
  | [] => .ok []
  | c :: cs =>
    if Text.isBlank c then scan lx (start + c.utf8Size) cs
    else
      match _h : lx.next start c cs with
      | .error e => .error e
      | .ok (token, rest) =>
        match scan lx token.span.stop rest with
        | .error e => .error e
        | .ok tokens => .ok (token :: tokens)
termination_by cs.length
decreasing_by
  · simp
  · exact length_lt_of_next _h

/-- The tokens of a source, or the first error in it. -/
def tokenize (lx : Lexicon) (source : List Char) : Except ParseError (List Token) :=
  lx.scan 0 source

end Lexicon

end SignalRules
