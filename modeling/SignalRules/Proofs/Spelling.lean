import SignalRules.Expr.Printer
import SignalRules.Proofs.Algebraic.Phrase
import SignalRules.Proofs.Decimal
import SignalRules.Proofs.Lexing

/-!
# How pieces of text are cut into lexemes

A piece of text spells lexemes wherever it stands, as long as what follows does not run into it. A
parenthesis, a comma and a blank are cut off from anything; a word and a literal have to be followed
by a stop symbol or by the end of the source. Texts are put together from such pieces, and so are
their lexemes.

## Main definitions

* `Lexicon.Writes`: a text spells lexemes if it is set off from what follows.
* `Lexicon.Closes`: a text spells lexemes whatever follows.

## Main results

* `Lexicon.writes_name`, `Lexicon.writes_keyword`, `Lexicon.writes_magnitudeDigits`,
  `Lexicon.writes_literal`: the words and literals.
* `Lexicon.closes_mark`: punctuation.
* `Lexicon.closes_operator`: an operator in front of a blank.
-/

namespace SignalRules

section Decidability

variable {p : Char → Prop} [DecidablePred p]

/-- A property of the characters of a text is decided along the text, not over all characters. -/
instance decidableForallMemText (cs : List Char) : Decidable (∀ c ∈ cs, p c) :=
  List.decidableBAll p cs

instance decidableExistsMemText (cs : List Char) : Decidable (∃ c ∈ cs, p c) :=
  List.decidableBEx p cs

end Decidability

namespace Lexicon

variable {lx : Lexicon} {cs ds : List Char} {xs ys : List Lexeme}

/-- The text `cs` spells `xs` wherever it is set off from what follows. -/
def Writes (lx : Lexicon) (cs : List Char) (xs : List Lexeme) : Prop :=
  ∀ rest zs, lx.SetOff rest → Spells lx rest zs → Spells lx (cs ++ rest) (xs ++ zs)

/-- The text `cs` spells `xs` whatever follows. -/
def Closes (lx : Lexicon) (cs : List Char) (xs : List Lexeme) : Prop :=
  ∀ rest zs, Spells lx rest zs → Spells lx (cs ++ rest) (xs ++ zs)

theorem Closes.writes (h : Closes lx cs xs) : Writes lx cs xs := fun rest zs _ => h rest zs

theorem Closes.append (h : Closes lx cs xs) (h' : Closes lx ds ys) :
    Closes lx (cs ++ ds) (xs ++ ys) := by
  intro rest zs hrest
  rw [List.append_assoc, List.append_assoc]
  exact h _ _ (h' rest zs hrest)

theorem Closes.append_writes (h : Closes lx cs xs) (h' : Writes lx ds ys) :
    Writes lx (cs ++ ds) (xs ++ ys) := by
  intro rest zs hoff hrest
  rw [List.append_assoc, List.append_assoc]
  exact h _ _ (h' rest zs hoff hrest)

/-- A text that starts with a stop symbol sets off what stands before it. -/
theorem Writes.append {c : Char} (h : Writes lx cs xs) (hc : lx.isStop c)
    (h' : Writes lx (c :: ds) ys) : Writes lx (cs ++ c :: ds) (xs ++ ys) := by
  intro rest zs hoff hrest
  rw [List.append_assoc, List.append_assoc]
  exact h _ _ (by simpa [SetOff] using hc) (h' rest zs hoff hrest)

theorem Writes.append_closes {c : Char} (h : Writes lx cs xs) (hc : lx.isStop c)
    (h' : Closes lx (c :: ds) ys) : Closes lx (cs ++ c :: ds) (xs ++ ys) := by
  intro rest zs hrest
  rw [List.append_assoc, List.append_assoc]
  exact h _ _ (by simpa [SetOff] using hc) (h' rest zs hrest)

/-- A text that is followed by nothing spells its lexemes. -/
theorem Writes.spells (h : Writes lx cs xs) : Spells lx cs xs := by
  simpa using h [] [] (by simp [SetOff]) .nil

theorem closes_nil : Closes lx [] [] := fun _ _ h => h

theorem closes_blank : Closes lx [' '] [] := fun _ _ h => .blank rfl h

theorem closes_symbol {c : Char} (hc : c ∈ lx.stopSymbols) (hblank : Text.isBlank c = false)
    (hkeyword : ∀ rest, lx.stopKeyword? (c :: rest) = none) : Closes lx [c] [.symbol c] :=
  fun rest _ h => .token hblank (.symbol (hkeyword rest) hc) h

/-- A character that belongs to words: it is no stop symbol and no quote. -/
def IsPlain (lx : Lexicon) (c : Char) : Prop := lx.isStop c = false ∧ c ∉ lx.quotes

/-- A run of characters that are no stop symbols is cut off where it is set off. -/
theorem takeWhile_append_of_setOff (hcs : ∀ c ∈ cs, lx.isStop c = false) {rest : List Char}
    (hoff : lx.SetOff rest) :
    (cs ++ rest).takeWhile (fun d => !lx.isStop d) = cs ∧
      (cs ++ rest).dropWhile (fun d => !lx.isStop d) = rest := by
  have hpos : ∀ c ∈ cs, (!lx.isStop c) = true := fun c hc => by simp [hcs c hc]
  rw [List.takeWhile_append_of_pos hpos, List.dropWhile_append_of_pos hpos]
  cases rest with
  | nil => simp
  | cons c rest => simp [hoff c rfl]

/-- A word is cut off at the next stop symbol. -/
theorem writes_word {c : Char} {kind : TokenKind} (hcs : ∀ d ∈ c :: cs, lx.IsPlain d)
    (hkeyword : ∀ rest, lx.stopKeyword? (c :: rest) = none)
    (hkind : lx.wordKind? (c :: cs) = some kind) :
    Writes lx (c :: cs) [⟨kind, String.ofList (c :: cs)⟩] := by
  intro rest zs hoff hrest
  obtain ⟨htake, hdrop⟩ :=
    takeWhile_append_of_setOff (fun d hd => (hcs d (List.mem_cons_of_mem _ hd)).1) hoff
  obtain ⟨hstop, hquote⟩ := hcs c (by simp)
  obtain ⟨hblank, hc⟩ : Text.isBlank c = false ∧ c ∉ lx.stopSymbols := by
    simpa [isStop] using hstop
  have hstarts : Starts lx (c :: (cs ++ rest)) _ _ :=
    .word (hkeyword _) hc hquote (htake.symm ▸ hkind)
  rw [htake, hdrop] at hstarts
  exact .token hblank hstarts hrest

/-! ### Literals -/

/-- A quoted text is read back up to its closing quote. -/
theorem readLiteral_escape (afterBrace : Bool) (cs rest : List Char) :
    ∃ l, readLiteral '\'' (Text.escape afterBrace cs ++ '\'' :: rest) = some l ∧
      l.content = cs ∧ l.rest = rest := by
  induction cs generalizing afterBrace with
  | nil => exact ⟨⟨['\''], [], rest⟩, by rw [Text.escape, List.nil_append, readLiteral.eq_def]; rfl,
      rfl, rfl⟩
  | cons c cs ih =>
    obtain ⟨l, hl, hcontent, hrest⟩ := ih (c == '\x7b')
    rw [Text.escape]
    split_ifs with hescaped
    · refine ⟨⟨'\\' :: c :: l.raw, c :: l.content, l.rest⟩, ?_, by rw [hcontent], hrest⟩
      simp [readLiteral, hl]
    · have hslash : c ≠ '\\' := by
        rintro rfl
        simp [Text.isEscaped] at hescaped
      have hquote : c ≠ '\'' := by
        rintro rfl
        simp [Text.isEscaped] at hescaped
      refine ⟨⟨c :: l.raw, c :: l.content, l.rest⟩, ?_, by rw [hcontent], hrest⟩
      rw [List.cons_append, readLiteral.eq_def]
      simp [hslash, hquote, hl]

/-! ### The words of a grammar -/

variable {g : Grammar}

theorem isStop_of_mem {c : Char} (hc : c ∈ g.stopSymbols) : (ofGrammar g).isStop c := by
  have hspace : ' ' ∈ g.stopSymbols := by cases g <;> decide
  simp [isStop, ofGrammar, make, hspace, hc]

theorem mem_stopSymbols {c : Char} : c ∈ (ofGrammar g).stopSymbols ↔ c ∈ g.stopSymbols := by
  have hspace : ' ' ∈ g.stopSymbols := by cases g <;> decide
  simp [ofGrammar, make, hspace]

theorem stopKeyword?_eq_none {g : Grammar} {cs : List Char}
    (h : ∀ kw ∈ g.stopKeywords, ¬ kw.toList <+: cs) : (ofGrammar g).stopKeyword? cs = none := by
  refine List.findSome?_eq_none_iff.2 fun kw hkw => ?_
  have hmem : kw ∈ g.stopKeywords := by simpa [ofGrammar, make] using hkw
  split_ifs
  · rfl
  · rw [Option.map_eq_none_iff, Option.eq_none_iff_forall_not_mem]
    intro rest hrest
    exact h kw hmem ⟨rest, (Text.eq_append_of_stripStart? hrest).symm⟩

theorem head?_of_mem_stopKeywords {kw : String} (hkw : kw ∈ g.stopKeywords) :
    kw.toList.head? ∈ ['=', '!', '<', '>'].map some := by
  revert kw
  cases g <;> decide

/-- No operator of several symbols starts with any other character than these. -/
theorem stopKeyword?_cons {c : Char} (hc : c ∉ ['=', '!', '<', '>']) (rest : List Char) :
    (ofGrammar g).stopKeyword? (c :: rest) = none := by
  refine stopKeyword?_eq_none fun kw hkw => ?_
  rintro ⟨tail, htail⟩
  have hhead := head?_of_mem_stopKeywords hkw
  rcases hlist : kw.toList with _ | ⟨d, ds⟩
  · simp [hlist] at hhead
  · rw [hlist, List.cons_append] at htail
    obtain ⟨rfl, -⟩ := List.cons.inj htail
    exact hc (by simpa [hlist] using hhead)

/-- The characters that no word holds. -/
def breaks (g : Grammar) : List Char := ['\t', '\n', '\r'] ++ g.stopSymbols ++ g.quotes

theorem isPlain_of_not_mem_breaks {c : Char} (h : c ∉ breaks g) : (ofGrammar g).IsPlain c := by
  simp only [breaks, List.mem_append, not_or] at h
  obtain ⟨⟨hblank, hstop⟩, hquote⟩ := h
  have hspace : c ≠ ' ' := by
    rintro rfl
    exact hstop (by cases g <;> decide)
  refine ⟨?_, hquote⟩
  simp only [List.mem_cons, List.not_mem_nil, not_or] at hblank
  simpa [isStop, Text.isBlank, hspace, hblank, ofGrammar, make] using mem_stopSymbols.not.2 hstop

/-- The characters of names and of numbers belong to words. -/
theorem isPlain_of_isAlphanumeric {c : Char} (h : isAlphanumeric c ∨ c = '.') :
    (ofGrammar g).IsPlain c := by
  have hbreaks : ∀ d ∈ breaks g, isAlphanumeric d = false ∧ d ≠ '.' := by
    cases g <;> decide
  refine isPlain_of_not_mem_breaks fun hc => ?_
  obtain ⟨halpha, hpoint⟩ := hbreaks c hc
  simp [halpha, hpoint] at h

/-- The operators of several symbols start with a stop symbol. -/
theorem stopKeyword?_of_not_mem {c : Char} (hc : c ∉ (ofGrammar g).stopSymbols)
    (rest : List Char) : (ofGrammar g).stopKeyword? (c :: rest) = none := by
  cases g with
  | polish => exact stopKeyword?_eq_none (by simp [Grammar.stopKeywords])
  | algebraic =>
    have hstop : ∀ d ∈ ['=', '!', '<', '>'], d ∈ Grammar.algebraic.stopSymbols := by decide
    exact stopKeyword?_cons (fun hmem => hc (mem_stopSymbols.2 (hstop c hmem))) rest

theorem stopKeyword?_of_isPlain {c : Char} (hc : (ofGrammar g).IsPlain c) (rest : List Char) :
    (ofGrammar g).stopKeyword? (c :: rest) = none := by
  have hstop : c ∉ (ofGrammar g).stopSymbols := fun hmem => by
    simpa [isStop, hmem] using hc.1
  exact stopKeyword?_of_not_mem hstop rest

/-- A word of a grammar is cut off at the next stop symbol. -/
theorem writes_ofGrammar {word : String} {kind : TokenKind} (hne : word.toList ≠ [])
    (hplain : ∀ c ∈ word.toList, (ofGrammar g).IsPlain c)
    (hkind : (ofGrammar g).wordKind? word.toList = some kind) :
    Writes (ofGrammar g) word.toList [⟨kind, word⟩] := by
  rw [← String.ofList_toList (s := word)]
  generalize word.toList = cs at *
  obtain ⟨c, cs, rfl⟩ := List.exists_cons_of_ne_nil hne
  rw [String.toList_ofList]
  exact writes_word hplain (stopKeyword?_of_isPlain (hplain c (by simp))) hkind

theorem forall_of_isNameTail {cs : List Char} (h : isNameTail cs) :
    ∀ c ∈ cs, isAlphanumeric c ∨ c = '.' := by
  fun_induction isNameTail cs with
  | case1 => simp
  | case2 c cs ih =>
    rw [Bool.and_eq_true] at h
    simpa [h.1] using ih h.2
  | case3 c cs _ ih =>
    rw [Bool.and_eq_true] at h
    simpa [h.1] using ih h.2

theorem forall_of_isIdentifier {cs : List Char} (h : isIdentifier cs) :
    ∀ c ∈ cs, isAlphanumeric c ∨ c = '.' := by
  cases cs with
  | nil => simp
  | cons c cs =>
    obtain ⟨hletter, htail⟩ : isLetter c ∧ isNameTail cs := by simpa [isIdentifier] using h
    rw [List.forall_mem_cons]
    exact ⟨.inl (by simp [isAlphanumeric, hletter]), forall_of_isNameTail htail⟩

/-- A letter does not start a number. -/
theorem not_numeric_of_isLetter {c : Char} (h : isLetter c) :
    (Fixed.isDigit c || c == '-') = false := by
  have hletter : (97 ≤ c.toNat ∧ c.toNat ≤ 122) ∨ (65 ≤ c.toNat ∧ c.toNat ≤ 90) := by
    simp only [isLetter, Bool.or_eq_true, Bool.and_eq_true, decide_eq_true_eq] at h
    exact h
  have hdigit : Fixed.isDigit c = false := by
    by_contra hdigit
    have hrange : 48 ≤ c.toNat ∧ c.toNat ≤ 57 := by
      simp only [Fixed.isDigit, Bool.not_eq_false, Bool.and_eq_true, decide_eq_true_eq] at hdigit
      exact hdigit
    omega
  have hminus : c ≠ '-' := by
    rintro rfl
    revert hletter
    decide
  simp [hdigit, hminus]

/-- A name that can be written in a grammar is read back. -/
theorem writes_name {name : String} (h : g.IsName name) :
    Writes (ofGrammar g) name.toList [⟨.identifier, name⟩] := by
  obtain ⟨hname, hkeyword⟩ := h
  rcases hlist : name.toList with _ | ⟨c, cs⟩
  · simp [hlist, isIdentifier] at hname
  obtain ⟨hletter, -⟩ : isLetter c ∧ isNameTail cs := by simpa [hlist, isIdentifier] using hname
  have hreserved : name ∉ (ofGrammar g).keywords := hkeyword
  rw [← hlist]
  refine writes_ofGrammar (by simp [hlist])
    (fun d hd => isPlain_of_isAlphanumeric (forall_of_isIdentifier hname d hd)) ?_
  simp only [wordKind?, hlist, not_numeric_of_isLetter hletter]
  rw [← hlist, String.ofList_toList]
  simp [hreserved, hname]

/-- The reserved words of a grammar are read back. -/
theorem writes_keyword {word : String} (h : word ∈ g.keywords) :
    Writes (ofGrammar g) word.toList [⟨.keyword, word⟩] := by
  have hall : ∀ w ∈ g.keywords, w.toList ≠ [] ∧ (∀ c ∈ w.toList, c ∉ breaks g) ∧
      (ofGrammar g).wordKind? w.toList = some .keyword := by
    cases g <;> decide
  obtain ⟨hne, hplain, hkind⟩ := hall word h
  exact writes_ofGrammar hne (fun c hc => isPlain_of_not_mem_breaks (hplain c hc)) hkind

/-- A word that starts with a digit or a minus sign is a number. -/
theorem writes_numeric {c : Char} {cs : List Char} (hc : Fixed.isDigit c || c == '-')
    (h : ∀ d ∈ c :: cs, (ofGrammar g).IsPlain d) :
    Writes (ofGrammar g) (c :: cs) [⟨.number, String.ofList (c :: cs)⟩] :=
  writes_word h (stopKeyword?_of_isPlain (h c (by simp))) (by simp only [wordKind?, hc, if_true])

theorem isPlain_of_isDigit {c : Char} (h : Fixed.isDigit c ∨ c = '.') :
    (ofGrammar g).IsPlain c := by
  refine isPlain_of_isAlphanumeric (h.imp_left fun hdigit => ?_)
  have hrange : ('0' ≤ c && c ≤ '9') = true := hdigit
  rw [isAlphanumeric, hrange, Bool.or_true]

/-- The digits of a number without its sign are read back. -/
theorem writes_magnitudeDigits (n : Fixed) :
    Writes (ofGrammar g) n.magnitudeDigits [⟨.number, String.ofList n.magnitudeDigits⟩] := by
  obtain ⟨c, cs, hcons, hc⟩ := n.magnitudeDigits_eq_cons
  have hall := n.forall_magnitudeDigits
  rw [hcons] at hall ⊢
  exact writes_numeric (by simp [hc]) fun d hd => isPlain_of_isDigit (hall d hd)

/-- In the Polish grammar a number is read back together with its sign. -/
theorem writes_digits (n : Fixed) :
    Writes (ofGrammar .polish) n.digits [⟨.number, n.text⟩] := by
  by_cases hneg : n.hundredths < 0
  · have hdigits : n.digits = '-' :: n.magnitudeDigits := if_pos hneg
    rw [Fixed.text, hdigits]
    refine writes_numeric (by decide) (List.forall_mem_cons.2 ⟨?_, fun d hd => ?_⟩)
    · exact isPlain_of_not_mem_breaks (by decide)
    · exact isPlain_of_isDigit (n.forall_magnitudeDigits d hd)
  · have hdigits : n.digits = n.magnitudeDigits := if_neg hneg
    rw [Fixed.text, hdigits]
    exact writes_magnitudeDigits n

/-- A quoted text that is set off from what follows is a text literal with that content. -/
theorem starts_quote (content : String) {rest : List Char} (hoff : (ofGrammar g).SetOff rest) :
    Starts (ofGrammar g) (Text.quote content.toList ++ rest) ⟨.string, content⟩ rest := by
  obtain ⟨l, hl, hcontent, rfl⟩ := readLiteral_escape false content.toList rest
  have hquote : '\'' ∈ (ofGrammar g).quotes := by cases g <;> decide
  have hstop : '\'' ∉ (ofGrammar g).stopSymbols := mem_stopSymbols.not.2 (by cases g <;> decide)
  have hstarts := Starts.literal (stopKeyword?_cons (by decide) _) hstop hquote hl hoff
  rw [hcontent, String.ofList_toList] at hstarts
  simpa [Text.quote] using hstarts

/-- A text literal spells its content. -/
theorem writes_literal (content : String) :
    Writes (ofGrammar g) (Text.quote content.toList) [⟨.string, content⟩] := by
  intro rest zs hoff hrest
  exact .token rfl (starts_quote content hoff) hrest

/-! ### Punctuation and operators -/

/-- The punctuation of a grammar is cut off from whatever follows. -/
theorem closes_mark {c : Char} (hc : c ∈ g.stopSymbols)
    (hplain : c ∉ [' ', '=', '!', '<', '>']) : Closes (ofGrammar g) [c] [.symbol c] := by
  have hblank : ∀ d ∈ g.stopSymbols, d ≠ ' ' → Text.isBlank d = false := by
    cases g <;> decide
  rw [List.mem_cons, not_or] at hplain
  exact closes_symbol (mem_stopSymbols.2 hc) (hblank c hc hplain.1) (stopKeyword?_cons hplain.2)

theorem stripStart?_append (opening rest : List Char) :
    Text.stripStart? opening (opening ++ rest) = some rest := by
  induction opening with
  | nil => rfl
  | cons c cs ih => simpa [Text.stripStart?] using ih

theorem length_of_mem_stopKeywords {kw : String} (hkw : kw ∈ Grammar.algebraic.stopKeywords) :
    kw.toList.length = 2 := by
  revert kw
  decide

/-- An operator of several symbols is found where it stands. -/
theorem stopKeyword?_append {kw : String} (hkw : kw ∈ Grammar.algebraic.stopKeywords)
    (rest : List Char) :
    (ofGrammar .algebraic).stopKeyword? (kw.toList ++ rest) = some (kw, rest) := by
  have hmem {w : String} :
      w ∈ (ofGrammar .algebraic).stopKeywords ↔ w ∈ Grammar.algebraic.stopKeywords := by
    simp [ofGrammar, make]
  have hne : kw ≠ "" := by
    rintro rfl
    simpa using length_of_mem_stopKeywords hkw
  cases hfound : (ofGrammar .algebraic).stopKeyword? (kw.toList ++ rest) with
  | none =>
    have hnone := List.findSome?_eq_none_iff.1 hfound kw (hmem.2 hkw)
    simp [hne, stripStart?_append] at hnone
  | some found =>
    obtain ⟨kw', rest'⟩ := found
    obtain ⟨-, heq⟩ := eq_append_of_stopKeyword? hfound
    have hkw' : kw' ∈ Grammar.algebraic.stopKeywords := hmem.1 (mem_of_stopKeyword? hfound)
    -- The operators are equally long, so no other one stands at the same place.
    have hlength := (length_of_mem_stopKeywords hkw).trans (length_of_mem_stopKeywords hkw').symm
    obtain ⟨hlist, hrest⟩ := List.append_inj heq hlength
    rw [String.toList_injective hlist, hrest]

/-- How a binary operator is written: by several symbols, by one, or by a reserved word. -/
theorem binary_cases : ∀ op : Operator, op.isBinary →
    (op.infixed ∈ Grammar.algebraic.stopKeywords ∧ op.lexeme = ⟨.keyword, op.infixed⟩) ∨
      (op.infixed ∈ Grammar.algebraic.keywords ∧ op.lexeme = ⟨.keyword, op.infixed⟩) ∨
      ∃ c ∈ Grammar.algebraic.stopSymbols, c ≠ ' ' ∧ op.infixed.toList = [c] ∧
        op.lexeme = .symbol c :=
  Operator.forall_of_all (by decide)

/-- An operator in front of a blank is read back. -/
theorem closes_operator {op : Operator} (hop : op.isBinary) :
    Closes (ofGrammar .algebraic) (op.infixed.toList ++ [' ']) [op.lexeme] := by
  have hspace : (ofGrammar .algebraic).isStop ' ' := isStop_of_mem (by decide)
  rcases binary_cases op hop with ⟨hkw, hlexeme⟩ | ⟨hkw, hlexeme⟩ | ⟨c, hc, hne, hlist, hlexeme⟩
  · intro rest zs h
    have hends : ∀ kw ∈ Grammar.algebraic.stopKeywords,
        (ofGrammar .algebraic).endsInStop kw ∧ ∀ c ∈ kw.toList, Text.isBlank c = false := by
      decide
    obtain ⟨hstop, hblank⟩ := hends op.infixed hkw
    have hfound := stopKeyword?_append hkw (' ' :: rest)
    rw [List.append_assoc, hlexeme]
    obtain ⟨c, cs, hcons⟩ : ∃ c cs, op.infixed.toList = c :: cs :=
      List.exists_cons_of_length_pos (by rw [length_of_mem_stopKeywords hkw]; decide)
    rw [hcons] at hfound hblank ⊢
    exact .token (hblank c (by simp)) (.stopKeyword hfound (.inl hstop)) (.blank rfl h)
  · rw [hlexeme]
    exact (writes_keyword hkw).append_closes hspace closes_blank
  · rw [hlist, hlexeme]
    intro rest zs h
    have hblank : ∀ d ∈ Grammar.algebraic.stopSymbols, d ≠ ' ' → Text.isBlank d = false := by
      decide
    have hsecond : ∀ kw ∈ Grammar.algebraic.stopKeywords, ' ' ∉ kw.toList := by decide
    have hnone : (ofGrammar .algebraic).stopKeyword? (c :: ' ' :: rest) = none := by
      refine stopKeyword?_eq_none fun kw hkw hpre => ?_
      have hpair : kw.toList = [c, ' '] := by
        rw [List.prefix_iff_eq_take.1 hpre, length_of_mem_stopKeywords hkw]
        rfl
      exact hsecond kw hkw (by simp [hpair])
    exact .token (hblank c hc hne) (.symbol hnone (mem_stopSymbols.2 hc)) (.blank rfl h)

end Lexicon

end SignalRules
