import Mathlib.Algebra.Module.Submodule.Lattice
import SignalRules.Proofs.Placement

/-!
# Tokens cover their source

Each token stands where it was read: the source at its span is what it was read from. The tokens
follow one another, and between them there is nothing but blanks. So no character of a source is
lost, whatever the lexicon.

The relation `Lexicon.Laid` says all of this of a text at an offset. It is what scanning decides,
and everything about the places of tokens is proved by induction over it.

## Main definitions

* `Text.slice`: the characters of a text at a span.
* `Text.Unescapes`: what the inside of a text literal means.
* `Lexicon.Laid`: a text at an offset is made up of tokens and blanks.
* `Lexicon.Depicts`: the characters that a lexeme is read from.

## Main results

* `Lexicon.scan_eq_ok_iff_laid`: scanning finds the tokens that a text is made up of.
* `Lexicon.tokenize_covers`: the tokens of a source are what it consists of, besides blanks.
-/

namespace SignalRules

/-- The offset lies in the span. -/
def Span.Covers (s : Span) (offset : Nat) : Prop := s.start ≤ offset ∧ offset < s.stop

instance decidableCovers (s : Span) (offset : Nat) : Decidable (s.Covers offset) :=
  inferInstanceAs (Decidable (_ ∧ _))

namespace Text

/-- The characters of a text at the offset `offset` that start in the span. -/
def sliceFrom (s : Span) : (offset : Nat) → List Char → List Char
  | _, [] => []
  | offset, c :: cs =>
    if s.Covers offset then c :: sliceFrom s (offset + c.utf8Size) cs
    else sliceFrom s (offset + c.utf8Size) cs

/-- The characters of a text that start in the span. -/
def slice (cs : List Char) (s : Span) : List Char := sliceFrom s 0 cs

variable {s : Span} {offset : Nat}

theorem sliceFrom_append_of_le (before cs : List Char) (h : offset + byteLength before ≤ s.start) :
    sliceFrom s offset (before ++ cs) = sliceFrom s (offset + byteLength before) cs := by
  induction before generalizing offset with
  | nil => rfl
  | cons c before ih =>
    have hsize := c.utf8Size_pos
    rw [byteLength_cons] at h
    have houtside : ¬ s.Covers offset := fun hcovers => by
      have := hcovers.1
      omega
    rw [List.cons_append, sliceFrom, if_neg houtside, ih (by omega), byteLength_cons,
      Nat.add_assoc]

theorem sliceFrom_append_of_covers (lexeme cs : List Char) (hstart : s.start ≤ offset)
    (hstop : offset + byteLength lexeme ≤ s.stop) :
    sliceFrom s offset (lexeme ++ cs) =
      lexeme ++ sliceFrom s (offset + byteLength lexeme) cs := by
  induction lexeme generalizing offset with
  | nil => rfl
  | cons c lexeme ih =>
    have hsize := c.utf8Size_pos
    rw [byteLength_cons] at hstop
    rw [List.cons_append, sliceFrom, if_pos ⟨hstart, by omega⟩, ih (by omega) (by omega),
      byteLength_cons, Nat.add_assoc, List.cons_append]

theorem sliceFrom_of_ge (cs : List Char) (h : s.stop ≤ offset) : sliceFrom s offset cs = [] := by
  induction cs generalizing offset with
  | nil => rfl
  | cons c cs ih =>
    have houtside : ¬ s.Covers offset := fun hcovers => by
      have := hcovers.2
      omega
    rw [sliceFrom, if_neg houtside, ih (by omega)]

/-- A part of a text is found at its place. -/
theorem slice_append (before lexeme after : List Char) :
    slice (before ++ lexeme ++ after)
      ⟨byteLength before, byteLength before + byteLength lexeme⟩ = lexeme := by
  rw [slice, List.append_assoc, sliceFrom_append_of_le before _ (by simp),
    sliceFrom_append_of_covers lexeme _ (by simp) (by simp), sliceFrom_of_ge after (by simp),
    List.append_nil]

/-- What the inside of a text literal between two quotes means: a backslash takes the next
character as it is, and the quote does not stand by itself. -/
inductive Unescapes (quote : Char) : (body content : List Char) → Prop
  | nil : Unescapes quote [] []
  | escaped (c : Char) {body content : List Char} (h : Unescapes quote body content) :
      Unescapes quote ('\\' :: c :: body) (c :: content)
  | plain {c : Char} {body content : List Char} (hslash : c ≠ '\\') (hquote : c ≠ quote)
      (h : Unescapes quote body content) : Unescapes quote (c :: body) (c :: content)

/-- Every offset is the length of some text. -/
theorem exists_byteLength_eq (offset : Nat) : ∃ cs, byteLength cs = offset := by
  induction offset with
  | zero => exact ⟨[], rfl⟩
  | succ n ih =>
    obtain ⟨cs, rfl⟩ := ih
    exact ⟨' ' :: cs, by rw [byteLength_cons, Nat.add_comm]; rfl⟩

end Text

namespace Lexicon

variable {lx : Lexicon}

/-- A text literal is its inside and the closing quote. -/
theorem unescapes_of_readLiteral {quote : Char} {cs : List Char} {l : Literal}
    (h : readLiteral quote cs = some l) :
    ∃ body, l.raw = body ++ [quote] ∧ Text.Unescapes quote body l.content := by
  fun_induction readLiteral quote cs generalizing l with
  | case1 => cases h
  | case2 => cases h
  | case3 d cs ih =>
    obtain ⟨l', hl, rfl⟩ := Option.map_eq_some_iff.1 h
    obtain ⟨body, hraw, hbody⟩ := ih hl
    exact ⟨'\\' :: d :: body, by simp [hraw], hbody.escaped d⟩
  | case4 =>
    cases h
    exact ⟨[], rfl, .nil⟩
  | case5 c cs hslash hquote ih =>
    obtain ⟨l', hl, rfl⟩ := Option.map_eq_some_iff.1 h
    obtain ⟨body, hraw, hbody⟩ := ih hl
    exact ⟨c :: body, by simp [hraw], hbody.plain hslash hquote⟩

/-- The characters that a lexeme is read from: those of a text literal are its content between
quotes, and those of any other lexeme are its text. -/
structure Depicts (lx : Lexicon) (lexeme : List Char) (x : Lexeme) : Prop where
  plain : x.kind ≠ .string → lexeme = x.text.toList
  quoted : x.kind = .string → ∃ quote ∈ lx.quotes, ∃ body, lexeme = quote :: body ++ [quote] ∧
    Text.Unescapes quote body x.text.toList

/-- A text starts with the characters of its first lexeme. -/
theorem Starts.exists_depicts {cs rest : List Char} {x : Lexeme} (h : Starts lx cs x rest) :
    ∃ lexeme, cs = lexeme ++ rest ∧ lx.Depicts lexeme x := by
  cases h with
  | @stopKeyword _ _ keyword hkeyword hsetOff =>
    exact ⟨keyword.toList, (eq_append_of_stopKeyword? hkeyword).2, fun _ => rfl, nofun⟩
  | @symbol c cs hkeyword hc =>
    exact ⟨[c], rfl, fun _ => by simp [Lexeme.symbol], nofun⟩
  | @literal c cs l hkeyword hc hquote hl hsetOff =>
    obtain ⟨body, hraw, hbody⟩ := unescapes_of_readLiteral hl
    refine ⟨c :: l.raw, by rw [eq_append_of_readLiteral hl]; rfl, fun hne => absurd rfl hne, ?_⟩
    intro _
    exact ⟨c, hquote, body, by rw [hraw]; rfl, by simpa using hbody⟩
  | @word c cs kind hkeyword hc hquote hkind =>
    refine ⟨c :: cs.takeWhile fun d => !lx.isStop d, by simp, fun _ => by simp, ?_⟩
    rintro rfl
    simpa using wordKind?_eq_some hkind

theorem Starts.depicts {lexeme rest : List Char} {x : Lexeme}
    (h : Starts lx (lexeme ++ rest) x rest) : lx.Depicts lexeme x := by
  obtain ⟨lexeme', heq, hlexeme⟩ := h.exists_depicts
  rwa [List.append_cancel_right heq]

/-- The next token is the lexeme that the text starts with, and its span covers the characters of
that lexeme. -/
theorem next_eq_ok_iff_starts {start : Nat} {c : Char} {cs rest : List Char} {t : Token} :
    lx.next start c cs = .ok (t, rest) ↔ Starts lx (c :: cs) t.lexeme rest ∧
      ∃ lexeme, c :: cs = lexeme ++ rest ∧ t.span = ⟨start, start + Text.byteLength lexeme⟩ := by
  obtain ⟨before, rfl⟩ := Text.exists_byteLength_eq start
  constructor
  · intro h
    exact ⟨(next_eq_ok_iff _).1 ⟨t, h, rfl⟩, exists_lexeme_of_next h⟩
  · rintro ⟨hstarts, lexeme, heq, hspan⟩
    obtain ⟨u, hnext, hu⟩ := (next_eq_ok_iff (Text.byteLength before)).2 hstarts
    obtain ⟨lexeme', heq', hspan'⟩ := exists_lexeme_of_next hnext
    obtain rfl : lexeme = lexeme' := List.append_cancel_right (heq.symm.trans heq')
    have htoken : u = t := by
      obtain ⟨kind, text, span⟩ := t
      obtain ⟨kind', text', span'⟩ := u
      obtain ⟨rfl, rfl⟩ := Lexeme.mk.inj hu
      rw [Token.mk.injEq]
      exact ⟨rfl, rfl, hspan'.trans hspan.symm⟩
    rw [hnext, htoken]

/-- The text at the offset `start` is made up of the tokens, each at its place, and of blanks. -/
inductive Laid (lx : Lexicon) : (start : Nat) → List Char → List Token → Prop
  | nil {start : Nat} : Laid lx start [] []
  | blank {start : Nat} {c : Char} {cs : List Char} {ts : List Token} (hc : Text.isBlank c)
      (h : Laid lx (start + c.utf8Size) cs ts) : Laid lx start (c :: cs) ts
  | token {start : Nat} {c : Char} {cs rest : List Char} {t : Token} {ts : List Token}
      (hc : Text.isBlank c = false) (hstarts : Starts lx (c :: cs ++ rest) t.lexeme rest)
      (hspan : t.span = ⟨start, start + Text.byteLength (c :: cs)⟩)
      (h : Laid lx t.span.stop rest ts) : Laid lx start (c :: cs ++ rest) (t :: ts)

/-- Scanning finds the tokens that a text is made up of. -/
theorem scan_eq_ok_iff_laid {start : Nat} {cs : List Char} {ts : List Token} :
    lx.scan start cs = .ok ts ↔ lx.Laid start cs ts := by
  constructor
  · intro h
    fun_induction scan lx start cs generalizing ts with
    | case1 => cases h; exact .nil
    | case2 start c cs hc ih => exact .blank hc (ih h)
    | case3 => cases h
    | case4 => cases h
    | case5 start c cs hc token rest hnext ts' hrest ih =>
      cases h
      obtain ⟨hstarts, lexeme, heq, hspan⟩ := next_eq_ok_iff_starts.1 hnext
      cases lexeme with
      | nil =>
        have hshort := length_lt_of_next hnext
        rw [heq] at hshort
        exact absurd hshort (lt_irrefl _)
      | cons d ds =>
        obtain ⟨rfl, rfl⟩ := List.cons.inj heq
        exact .token (by simpa using hc) hstarts hspan (ih hrest)
  · intro h
    induction h with
    | nil => rw [scan]
    | blank hc _ ih => rw [scan, if_pos hc, ih]
    | token hc hstarts hspan _ ih =>
      have hnext := next_eq_ok_iff_starts.2 ⟨hstarts, _, rfl, hspan⟩
      exact (scan_cons hc hnext).trans (by rw [ih])

theorem tokenize_eq_ok_iff_laid {source : List Char} {ts : List Token} :
    lx.tokenize source = .ok ts ↔ lx.Laid 0 source ts :=
  scan_eq_ok_iff_laid

namespace Laid

variable {start : Nat} {cs : List Char} {ts : List Token}

/-- No token of a text stands before it, and none is empty. -/
theorem start_le (h : lx.Laid start cs ts) :
    ∀ t ∈ ts, start ≤ t.span.start ∧ t.span.start < t.span.stop := by
  induction h with
  | nil => simp
  | blank _ _ ih =>
    intro t ht
    have := ih t ht
    omega
  | @token start c cs rest t ts hc hstarts hspan _ ih =>
    have hsize := c.utf8Size_pos
    have hstop : start < t.span.stop := by simp only [hspan, Text.byteLength_cons]; omega
    refine List.forall_mem_cons.2 ⟨⟨by simp [hspan], by simpa [hspan] using hstop⟩, ?_⟩
    intro u hu
    have := ih u hu
    omega

/-- The tokens of a text follow one another. -/
theorem pairwise (h : lx.Laid start cs ts) :
    ts.Pairwise fun t u => t.span.stop ≤ u.span.start := by
  induction h with
  | nil => exact .nil
  | blank _ _ ih => exact ih
  | token _ _ _ h ih => exact .cons (fun u hu => (h.start_le u hu).1) ih

/-- A text from a token on is made up of the token and those behind it. -/
theorem exists_from {t : Token} {pre : List Token} (h : lx.Laid start cs (pre ++ t :: ts)) :
    ∃ before after, cs = before ++ after ∧ t.span.start = start + Text.byteLength before ∧
      lx.Laid t.span.start after (t :: ts) := by
  generalize hus : pre ++ t :: ts = us at h
  induction h generalizing pre with
  | nil => simp at hus
  | @blank start c cs us hc _ ih =>
    obtain ⟨before, after, rfl, hstart, hlaid⟩ := ih hus
    exact ⟨c :: before, after, rfl, by rw [hstart, Text.byteLength_cons, Nat.add_assoc], hlaid⟩
  | @token start c cs rest u us hc hstarts hspan h ih =>
    cases pre with
    | nil =>
      obtain ⟨rfl, rfl⟩ := List.cons.inj hus
      have hstart : t.span.start = start := by rw [hspan]
      refine ⟨[], c :: cs ++ rest, rfl, hstart, ?_⟩
      rw [hstart]
      exact .token hc hstarts hspan h
    | cons v pre =>
      obtain ⟨rfl, htail⟩ := List.cons.inj hus
      obtain ⟨before, after, rfl, hstart, hlaid⟩ := ih htail
      refine ⟨c :: cs ++ before, after, (List.append_assoc _ _ _).symm, ?_, hlaid⟩
      rw [hstart, hspan, Text.byteLength_append, Nat.add_assoc]

/-- At the place of a token, the text starts with the lexeme of the token. -/
theorem exists_starts (h : lx.Laid start cs ts) {t : Token} (ht : t ∈ ts) :
    ∃ before after, cs = before ++ after ∧ t.span.start = start + Text.byteLength before ∧
      ∃ rest, lx.Starts after t.lexeme rest := by
  obtain ⟨pre, post, rfl⟩ := List.append_of_mem ht
  obtain ⟨before, after, rfl, hstart, hlaid⟩ := h.exists_from
  refine ⟨before, after, rfl, hstart, ?_⟩
  generalize hoffset : t.span.start = offset at hlaid
  cases hlaid with
  | @blank _ c _ _ _ hrest =>
    have hsize := c.utf8Size_pos
    have hle := (hrest.start_le t List.mem_cons_self).1
    omega
  | token _ hstarts => exact ⟨_, hstarts⟩

/-- What holds of the characters that a lexeme is read from holds of the characters at each
token. -/
theorem forall_slice {P : List Char → Lexeme → Prop}
    (hP : ∀ c cs rest x, Text.isBlank c = false → Starts lx (c :: cs ++ rest) x rest →
      P (c :: cs) x)
    (h : lx.Laid start cs ts) (before : List Char) (hbefore : Text.byteLength before = start) :
    ∀ t ∈ ts, P (Text.slice (before ++ cs) t.span) t.lexeme := by
  induction h generalizing before with
  | nil => simp
  | @blank start c cs ts _ _ ih =>
    have hts := ih (before ++ [c]) (by simp [hbefore])
    rwa [List.append_assoc] at hts
  | @token start c cs rest t ts hc hstarts hspan _ ih =>
    have hts := ih (before ++ (c :: cs)) (by rw [Text.byteLength_append, hbefore, hspan])
    rw [List.append_assoc] at hts
    refine List.forall_mem_cons.2 ⟨?_, hts⟩
    rw [hspan, ← hbefore, ← List.append_assoc, Text.slice_append]
    exact hP c cs rest t.lexeme hc hstarts

/-- A character of a text that no token covers is blank. -/
theorem isBlank_of_not_covers (h : lx.Laid start cs ts) (before : List Char) {c : Char}
    {after : List Char} (hcs : cs = before ++ c :: after)
    (hfree : ∀ t ∈ ts, ¬ t.span.Covers (start + Text.byteLength before)) : Text.isBlank c := by
  induction h generalizing before with
  | nil => simp at hcs
  | @blank start d ds ts hd _ ih =>
    cases before with
    | nil =>
      obtain ⟨rfl, -⟩ := List.cons.inj hcs
      exact hd
    | cons b before =>
      obtain ⟨rfl, htail⟩ := List.cons.inj hcs
      refine ih before htail ?_
      simpa only [Text.byteLength_cons, Nat.add_assoc] using hfree
  | @token start d ds rest t ts hd hstarts hspan _ ih =>
    obtain ⟨hfirst, hfree⟩ := List.forall_mem_cons.1 hfree
    -- The character stands behind the characters of the first token.
    have hbehind : t.span.stop ≤ start + Text.byteLength before := by
      by_contra hlt
      exact hfirst ⟨by simp [hspan], by omega⟩
    rcases List.append_eq_append_iff.1 hcs with ⟨middle, rfl, hrest⟩ | ⟨middle, hlexeme, hrest⟩
    · refine ih middle hrest ?_
      have hoffset : t.span.stop + Text.byteLength middle =
          start + Text.byteLength (d :: ds ++ middle) := by
        rw [hspan, Text.byteLength_append, Nat.add_assoc]
      rwa [hoffset]
    · have hlength := congrArg Text.byteLength hlexeme
      rw [Text.byteLength_append] at hlength
      cases middle with
      | nil =>
        refine ih [] (by simpa using hrest.symm) ?_
        have hoffset : t.span.stop = start + Text.byteLength before := by simp [hspan, hlength]
        simpa [hoffset] using hfree
      | cons b middle =>
        have hsize := b.utf8Size_pos
        simp only [hspan, hlength, Text.byteLength_cons] at hbehind
        omega

end Laid

/-- The tokenizer loses nothing, whatever the lexicon. Token spans are not empty, lie in the source
between its characters, and follow one another. A character outside of them is blank. The source at
a token is the text of the token; for a text literal it is a quote, an inside that means the text of
the token and in which that quote stands only behind a backslash, and the same quote. -/
theorem tokenize_covers {source : List Char} {tokens : List Token}
    (h : lx.tokenize source = .ok tokens) :
    (∀ t ∈ tokens, t.span.start < t.span.stop ∧ t.span.stop ≤ Text.byteLength source ∧
        (⟨t.span.start⟩ : String.Pos.Raw).IsValid (String.ofList source) ∧
        (⟨t.span.stop⟩ : String.Pos.Raw).IsValid (String.ofList source)) ∧
      tokens.Pairwise (fun t u => t.span.stop ≤ u.span.start) ∧
      (∀ before c after, source = before ++ c :: after →
        (∀ t ∈ tokens, ¬ t.span.Covers (Text.byteLength before)) → Text.isBlank c) ∧
      (∀ t ∈ tokens, t.kind ≠ .string → Text.slice source t.span = t.text.toList) ∧
      ∀ t ∈ tokens, t.kind = .string → ∃ quote ∈ lx.quotes, ∃ body,
        Text.slice source t.span = quote :: body ++ [quote] ∧
          Text.Unescapes quote body t.text.toList := by
  have hlaid := tokenize_eq_ok_iff_laid.1 h
  have hplaced := lx.placed_tokenize source
  rw [h] at hplaced
  have hdepicts : ∀ t ∈ tokens, lx.Depicts (Text.slice source t.span) t.lexeme :=
    hlaid.forall_slice (fun _ _ _ _ _ hstarts => hstarts.depicts) [] rfl
  refine ⟨?_, hlaid.pairwise, ?_, fun t ht => (hdepicts t ht).plain,
    fun t ht => (hdepicts t ht).quoted⟩
  · intro t ht
    have hwithin := hplaced t ht
    exact ⟨(hlaid.start_le t ht).2, hwithin.stop.le_byteLength, hwithin.start.isValid,
      hwithin.stop.isValid⟩
  · intro before c after hsource hfree
    exact hlaid.isBlank_of_not_covers before hsource (by simpa using hfree)

/-- In a lexicon whose classes overlap: the bar is a stop symbol before it is a quote, and the
operator `||` comes before either. The text literal holds a character of two bytes and a quote. -/
theorem tokenize_covers_overlapping :
    (make ['"', '|'] ['|'] ["all"] ["||"]).tokenize "\"é\\\"\" ||| all".toList =
        .ok [⟨.string, "é\"", ⟨0, 6⟩⟩, ⟨.keyword, "||", ⟨7, 9⟩⟩, ⟨.symbol, "|", ⟨9, 10⟩⟩,
          ⟨.keyword, "all", ⟨11, 14⟩⟩] ∧
      Text.slice "\"é\\\"\" ||| all".toList ⟨7, 9⟩ = "||".toList ∧
      ∃ quote ∈ ['"', '|'], ∃ body, Text.slice "\"é\\\"\" ||| all".toList ⟨0, 6⟩ =
        quote :: body ++ [quote] ∧ Text.Unescapes quote body "é\"".toList := by
  have htokens : (make ['"', '|'] ['|'] ["all"] ["||"]).tokenize "\"é\\\"\" ||| all".toList =
      .ok [⟨.string, "é\"", ⟨0, 6⟩⟩, ⟨.keyword, "||", ⟨7, 9⟩⟩, ⟨.symbol, "|", ⟨9, 10⟩⟩,
        ⟨.keyword, "all", ⟨11, 14⟩⟩] := by
    -- Unfolding uses the equation of `≤` that the import on submodules has.
    cbv
  obtain ⟨-, -, -, hplain, hquoted⟩ := tokenize_covers htokens
  exact ⟨htokens, hplain ⟨.keyword, "||", ⟨7, 9⟩⟩ (by simp) (by decide),
    hquoted ⟨.string, "é\"", ⟨0, 6⟩⟩ (by simp) rfl⟩

end Lexicon

end SignalRules
