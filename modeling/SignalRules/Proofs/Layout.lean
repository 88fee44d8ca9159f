import Mathlib.Data.List.Permutation
import SignalRules.Proofs.Coverage
import SignalRules.Proofs.Parsing
import SignalRules.Proofs.Spelling

/-!
# Layout does not matter

A lexeme of a grammar is read from the same characters whatever stands behind them, as long as that
starts with a blank or as what stood there before. So a source can be laid out anew, with any blanks
around its tokens and at least one between any two: it is made up of the same lexemes, and a source
is read by its lexemes.

## Main definitions

* `Lexicon.MayFollow`: what can stand behind a lexeme in place of something else.
* `Text.layout`: the tokens of a source with other gaps.

## Main results

* `Lexicon.Starts.mayFollow`: what a lexeme is read from does not depend on what follows.
* `Context.unplaced_parseTokens_congr`: reading does not look at places.
* `Context.parse_layout`: a source that is laid out anew is read as before.
-/

namespace SignalRules

namespace Lexicon

variable {lx : Lexicon} {g : Grammar} {rest rest' : List Char}

/-- What can stand behind a lexeme in place of `rest`: nothing, a blank, or the same character. -/
def MayFollow (rest rest' : List Char) : Prop :=
  ∀ c ∈ rest'.head?, Text.isBlank c ∨ c ∈ rest.head?

theorem mayFollow_nil (rest : List Char) : MayFollow rest [] := by
  simp [MayFollow]

theorem mayFollow_blanks {gap cs : List Char} (hgap : ∀ c ∈ gap, Text.isBlank c)
    (hcs : gap = [] → cs = []) : MayFollow rest (gap ++ cs) := by
  cases gap with
  | nil =>
    rw [hcs rfl]
    exact mayFollow_nil rest
  | cons c gap => simpa [MayFollow] using Or.inl (hgap c List.mem_cons_self)

theorem SetOff.mayFollow (h : lx.SetOff rest) (hrest : MayFollow rest rest') :
    lx.SetOff rest' := by
  intro c hc
  rcases hrest c hc with hblank | hc
  · simp [isStop, hblank]
  · exact h c hc

/-- A text literal is read up to its closing quote, whatever follows. -/
theorem readLiteral_append {quote : Char} {cs : List Char} {l : Literal}
    (h : readLiteral quote cs = some l) (rest : List Char) :
    readLiteral quote (l.raw ++ rest) = some ⟨l.raw, l.content, rest⟩ := by
  fun_induction readLiteral quote cs generalizing l with
  | case1 => cases h
  | case2 => cases h
  | case3 d cs ih =>
    obtain ⟨l', hl, rfl⟩ := Option.map_eq_some_iff.1 h
    simp [readLiteral, ih hl]
  | case4 cs hslash =>
    cases h
    rw [List.cons_append, readLiteral.eq_def]
    simp [hslash]
  | case5 c cs hslash hquote ih =>
    obtain ⟨l', hl, rfl⟩ := Option.map_eq_some_iff.1 h
    rw [List.cons_append, readLiteral.eq_def]
    simp [hslash, hquote, ih hl]

/-- No operator of several symbols is found where none stands. -/
theorem stopKeyword?_eq_none_iff {cs : List Char} :
    (ofGrammar g).stopKeyword? cs = none ↔ ∀ kw ∈ g.stopKeywords, ¬ kw.toList <+: cs := by
  refine ⟨fun h kw hkw hprefix => ?_, stopKeyword?_eq_none⟩
  obtain ⟨rest, rfl⟩ := hprefix
  cases g with
  | polish => cases hkw
  | algebraic =>
    rw [stopKeyword?_append hkw] at h
    cases h

theorem stopKeyword?_mayFollow_none {c : Char} (hrest : MayFollow rest rest')
    (h : (ofGrammar g).stopKeyword? (c :: rest) = none) :
    (ofGrammar g).stopKeyword? (c :: rest') = none := by
  rw [stopKeyword?_eq_none_iff] at h ⊢
  intro kw hkw hprefix
  refine h kw hkw ?_
  -- The operators have two symbols and no blanks, so only the character behind `c` counts.
  have hpair : ∀ kw ∈ g.stopKeywords, kw.toList.length = 2 ∧
      ∀ d ∈ kw.toList, Text.isBlank d = false := by
    cases g <;> decide
  obtain ⟨hlength, hblank⟩ := hpair kw hkw
  obtain ⟨a, b, hlist⟩ := List.length_eq_two.1 hlength
  rw [hlist] at hprefix hblank ⊢
  obtain ⟨rfl, htail⟩ := List.cons_prefix_cons.1 hprefix
  obtain ⟨tail, htail⟩ := htail
  rcases hrest b (by rw [← htail]; rfl) with hb | hb
  · rw [hblank b (by simp)] at hb
    cases hb
  · obtain ⟨tail, rfl⟩ : ∃ tail, rest = b :: tail := by
      cases rest with
      | nil => cases hb
      | cons d tail => exact ⟨tail, by simpa using hb⟩
    exact ⟨tail, rfl⟩

theorem stopKeyword?_mayFollow_some {cs : List Char} {keyword : String}
    (h : (ofGrammar g).stopKeyword? cs = some (keyword, rest)) (rest' : List Char) :
    (ofGrammar g).stopKeyword? (keyword.toList ++ rest') = some (keyword, rest') := by
  have hmem : keyword ∈ g.stopKeywords := by
    simpa [ofGrammar, make] using mem_of_stopKeyword? h
  cases g with
  | polish => cases hmem
  | algebraic => exact stopKeyword?_append hmem rest'

/-- In a grammar, a lexeme is read from the same characters whatever may follow them. -/
theorem Starts.mayFollow {lexeme : List Char} {x : Lexeme}
    (h : Starts (ofGrammar g) (lexeme ++ rest) x rest) (hrest : MayFollow rest rest') :
    Starts (ofGrammar g) (lexeme ++ rest') x rest' := by
  generalize hcs : lexeme ++ rest = cs at h
  cases h with
  | @stopKeyword _ _ keyword hkeyword hsetOff =>
    obtain ⟨-, heq⟩ := eq_append_of_stopKeyword? hkeyword
    obtain rfl := List.append_cancel_right (hcs.trans heq)
    exact .stopKeyword (stopKeyword?_mayFollow_some hkeyword rest')
      (hsetOff.imp_right fun hoff => hoff.mayFollow hrest)
  | @symbol c _ hkeyword hc =>
    obtain rfl : lexeme = [c] := List.append_cancel_right (hcs.trans rfl)
    exact .symbol (stopKeyword?_mayFollow_none hrest hkeyword) hc
  | @literal c cs l hkeyword hc hquote hl hsetOff =>
    have heq : c :: cs = c :: l.raw ++ l.rest := by rw [eq_append_of_readLiteral hl]; rfl
    obtain rfl := List.append_cancel_right (hcs.trans heq)
    exact .literal (stopKeyword?_of_not_mem hc _) hc hquote (readLiteral_append hl rest')
      (hsetOff.mayFollow hrest)
  | @word c cs kind hkeyword hc hquote hkind =>
    have heq : c :: cs = (c :: cs.takeWhile fun d => !(ofGrammar g).isStop d) ++
        cs.dropWhile fun d => !(ofGrammar g).isStop d := by simp
    obtain rfl := List.append_cancel_right (hcs.trans heq)
    have hoff : (ofGrammar g).SetOff (cs.dropWhile fun d => !(ofGrammar g).isStop d) := by
      intro d hd
      have hstop := List.head?_dropWhile_not (fun d => !(ofGrammar g).isStop d) cs
      rw [Option.mem_def.1 hd] at hstop
      simpa using hstop
    have hplain : ∀ d ∈ cs.takeWhile (fun d => !(ofGrammar g).isStop d),
        (ofGrammar g).isStop d = false := fun d hd => by
      simpa using List.mem_takeWhile_imp hd
    obtain ⟨htake, hdrop⟩ := takeWhile_append_of_setOff hplain (hoff.mayFollow hrest)
    have hstarts := Starts.word (stopKeyword?_of_not_mem hc _) hc hquote
      (htake.symm ▸ hkind : (ofGrammar g).wordKind? (c :: (_ ++ rest').takeWhile _) = some kind)
    rwa [htake, hdrop] at hstarts

/-- Blanks in front of a text do not matter. -/
theorem Spells.blanks {gap cs : List Char} {xs : List Lexeme} (h : Spells lx cs xs)
    (hgap : ∀ c ∈ gap, Text.isBlank c) : Spells lx (gap ++ cs) xs := by
  induction gap with
  | nil => exact h
  | cons c gap ih =>
    obtain ⟨hc, hgap⟩ := List.forall_mem_cons.1 hgap
    exact .blank hc (ih hgap)

/-- Characters that are read as a lexeme wherever a blank or nothing follows. -/
def StandsAlone (lx : Lexicon) (lexeme : List Char) (x : Lexeme) : Prop :=
  ∃ c cs, lexeme = c :: cs ∧ Text.isBlank c = false ∧
    ∀ rest, MayFollow [] rest → Starts lx (lexeme ++ rest) x rest

theorem StandsAlone.spells {lexeme cs : List Char} {x : Lexeme} {xs : List Lexeme}
    (h : StandsAlone lx lexeme x) (hcs : MayFollow [] cs) (hxs : Spells lx cs xs) :
    Spells lx (lexeme ++ cs) (x :: xs) := by
  obtain ⟨c, lexeme, rfl, hc, hstarts⟩ := h
  exact .token hc (hstarts cs hcs) hxs

/-- Lexemes that stand alone can be laid out with any gaps of blanks that set them off. -/
theorem spells_layout {pieces : List (List Char × Lexeme)}
    (hpieces : ∀ p ∈ pieces, StandsAlone lx p.1 p.2) {gaps : List (List Char)}
    (hlength : gaps.length = pieces.length) (hblank : ∀ gap ∈ gaps, ∀ c ∈ gap, Text.isBlank c)
    (hoff : ∀ gap ∈ gaps.dropLast, gap ≠ []) :
    Spells lx (List.zipWith (fun p gap => p.1 ++ gap) pieces gaps).flatten
      (pieces.map Prod.snd) := by
  induction pieces generalizing gaps with
  | nil => exact .nil
  | cons p pieces ih =>
    obtain ⟨gap, gaps, rfl⟩ := List.exists_cons_of_length_eq_add_one hlength
    obtain ⟨hp, hpieces⟩ := List.forall_mem_cons.1 hpieces
    obtain ⟨hgap, hblank⟩ := List.forall_mem_cons.1 hblank
    have hlength : gaps.length = pieces.length := by simpa using hlength
    rw [List.zipWith_cons_cons, List.flatten_cons, List.append_assoc]
    cases gaps with
    | nil =>
      obtain rfl := List.length_eq_zero_iff.1 hlength.symm
      exact hp.spells (mayFollow_blanks hgap fun _ => rfl) (Spells.blanks .nil hgap)
    | cons gap' gaps =>
      have hne : gap ≠ [] := hoff gap (by simp)
      have hrest := ih hpieces hlength hblank fun d hd => hoff d (by simp [hd])
      exact hp.spells (mayFollow_blanks hgap fun h => absurd h hne) (hrest.blanks hgap)

theorem Laid.standsAlone {start : Nat} {cs : List Char} {ts : List Token}
    (h : (ofGrammar g).Laid start cs ts) (before : List Char)
    (hbefore : Text.byteLength before = start) :
    ∀ t ∈ ts, (ofGrammar g).StandsAlone (Text.slice (before ++ cs) t.span) t.lexeme := by
  refine h.forall_slice (fun c cs rest x hc hstarts => ?_) before hbefore
  exact ⟨c, cs, rfl, hc, fun rest' hrest' =>
    hstarts.mayFollow fun d hd => (hrest' d hd).imp_right (by simp)⟩

end Lexicon

/-- A source laid out anew: its parts at the given spans, with `lead` in front of them and a gap
behind each. -/
def Text.layout (source lead : List Char) (spans : List Span) (gaps : List (List Char)) :
    List Char :=
  lead ++ (List.zipWith (fun s gap => slice source s ++ gap) spans gaps).flatten

/-- The tokens of a source, laid out anew, are made up of the same lexemes. -/
theorem Lexicon.spells_textLayout {g : Grammar} {source : List Char} {tokens : List Token}
    (h : (ofGrammar g).tokenize source = .ok tokens) {lead : List Char} {gaps : List (List Char)}
    (hlead : ∀ c ∈ lead, Text.isBlank c) (hgaps : ∀ gap ∈ gaps, ∀ c ∈ gap, Text.isBlank c)
    (hlength : gaps.length = tokens.length) (hoff : ∀ gap ∈ gaps.dropLast, gap ≠ []) :
    Spells (ofGrammar g) (Text.layout source lead (tokens.map Token.span) gaps)
      (tokens.map Token.lexeme) := by
  have halone : ∀ p ∈ tokens.map fun t => (Text.slice source t.span, t.lexeme),
      (ofGrammar g).StandsAlone p.1 p.2 := by
    rw [List.forall_mem_map]
    exact (tokenize_eq_ok_iff_laid.1 h).standsAlone [] rfl
  have hspells := spells_layout halone (by simpa using hlength) hgaps hoff
  rw [Text.layout, List.zipWith_map_left]
  simp only [List.zipWith_map_left, List.map_map] at hspells
  exact hspells.blanks hlead

namespace Context

variable {ctx : Context}

theorem unplaced_notBare_congr {a b : Expr} (h : a.erase = b.erase) :
    unplaced (notBare a) = unplaced (notBare b) := by
  have hhead := Expr.head_eq_of_erase_eq h
  unfold notBare
  rw [hhead]
  cases b.head <;> simp [h]

/-- Reading all of a list of tokens does not look at their places. -/
theorem unplaced_parseTokens_congr (f f' : Nat) {us vs : List Token}
    (h : us.map Token.lexeme = vs.map Token.lexeme) :
    unplaced (ctx.parseTokens f us) = unplaced (ctx.parseTokens f' vs) := by
  have hseen : seen (ctx.expression f us) = seen (ctx.expression f' vs) := by
    rw [seen_expression, seen_expression, h]
  unfold parseTokens
  rcases lexemes_cases h with ⟨rfl, rfl⟩ | ⟨u, us, v, vs, rfl, rfl, -, -⟩
  · rfl
  · simp only [List.isEmpty_cons, Bool.false_eq_true, if_false]
    refine unplacedBy_bind_congr hseen fun a a' hview => ?_
    obtain ⟨e, rest, hshort⟩ := a
    obtain ⟨e', rest', hshort'⟩ := a'
    obtain ⟨herase, hrest⟩ := Prod.mk.inj hview
    rcases lexemes_cases hrest with ⟨rfl, rfl⟩ | ⟨t, ts, t', ts', rfl, rfl, ht, -⟩
    · exact unplaced_notBare_congr herase
    · simp [Token.text_eq ht]

/-- Layout does not matter. Put other blanks around the tokens of a source, at least one between
any two of them: it is cut into the same kinds and texts, and it is read as the same expression up
to spans, or refused by an error of the same kind and with the same message. -/
theorem parse_layout {g : Grammar} {source : List Char} {tokens : List Token}
    (h : (Lexicon.ofGrammar g).tokenize source = .ok tokens) {lead : List Char}
    {gaps : List (List Char)} (hlead : ∀ c ∈ lead, Text.isBlank c)
    (hgaps : ∀ gap ∈ gaps, ∀ c ∈ gap, Text.isBlank c) (hlength : gaps.length = tokens.length)
    (hoff : ∀ gap ∈ gaps.dropLast, gap ≠ []) :
    (∃ tokens', (Lexicon.ofGrammar g).tokenize
        (Text.layout source lead (tokens.map Token.span) gaps) = .ok tokens' ∧
      tokens'.map Token.lexeme = tokens.map Token.lexeme) ∧
    ∀ ctx : Context, ctx.grammar = g →
      unplaced (ctx.parse (Text.layout source lead (tokens.map Token.span) gaps)) =
          unplaced (ctx.parse source) ∧
        ∀ err, ctx.parse source = .error err →
          ∃ err', ctx.parse (Text.layout source lead (tokens.map Token.span) gaps) = .error err' ∧
            err'.cause.kind = err.cause.kind ∧ err'.cause.message = err.cause.message := by
  obtain ⟨tokens', htokens', hlexemes⟩ :=
    Lexicon.tokenize_eq_ok_iff.2 (Lexicon.spells_textLayout h hlead hgaps hlength hoff)
  refine ⟨⟨tokens', htokens', hlexemes⟩, ?_⟩
  rintro ctx rfl
  have hsame : unplaced (ctx.parse (Text.layout source lead (tokens.map Token.span) gaps)) =
      unplaced (ctx.parse source) := by
    rw [parse, parse, htokens', h, ok_bind, ok_bind]
    exact unplaced_parseTokens_congr _ _ hlexemes
  refine ⟨hsame, fun err herr => ?_⟩
  rw [herr] at hsame
  cases hparse : ctx.parse (Text.layout source lead (tokens.map Token.span) gaps) with
  | ok e =>
    rw [hparse] at hsame
    cases hsame
  | error err' =>
    rw [hparse] at hsame
    have hcause : err'.cause = err.cause := Except.error.inj hsame
    exact ⟨err', rfl, by rw [hcause], by rw [hcause]⟩

/-- Operators that touch each other and their operands, set apart by a tab, a line break and
spaces. -/
theorem parse_layout_touching :
    ∃ tokens, (Lexicon.ofGrammar .algebraic).tokenize "a<=-1".toList = .ok tokens ∧
      Text.layout "a<=-1".toList ['\t'] (tokens.map Token.span)
          [[' '], ['\r', '\n'], [' ', ' '], []] = "\ta <=\r\n-  1".toList ∧
      ∀ host strict, unplaced (parse ⟨host, strict, .algebraic⟩ "\ta <=\r\n-  1".toList) =
        unplaced (parse ⟨host, strict, .algebraic⟩ "a<=-1".toList) := by
  have htokens : (Lexicon.ofGrammar .algebraic).tokenize "a<=-1".toList =
      .ok [⟨.identifier, "a", ⟨0, 1⟩⟩, ⟨.keyword, "<=", ⟨1, 3⟩⟩, ⟨.symbol, "-", ⟨3, 4⟩⟩,
        ⟨.number, "1", ⟨4, 5⟩⟩] := by
    -- Unfolding uses the equation of `Prod.snd` that the import on permutations has.
    cbv
  have hlead : ∀ c ∈ ['\t'], Text.isBlank c := by decide
  have hgaps : ∀ gap ∈ [[' '], ['\r', '\n'], [' ', ' '], []], ∀ c ∈ gap, Text.isBlank c := by
    decide
  have hlayout := parse_layout htokens hlead hgaps rfl (by decide)
  exact ⟨_, htokens, by decide, fun host strict => (hlayout.2 ⟨host, strict, .algebraic⟩ rfl).1⟩

end Context

end SignalRules
