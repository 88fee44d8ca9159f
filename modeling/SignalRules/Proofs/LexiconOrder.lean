import SignalRules.Proofs.Coverage
import SignalRules.Proofs.Spelling

/-!
# The order of a lexicon does not matter

A lexicon is made from lists of quotes, stop symbols, reserved words and operators. What a source
is cut into depends on the members of these lists, and neither on their order nor on how often a
member is given.

Three of the lists are only asked for membership. The operators are tried one after the other, by
the number of their bytes, the longest first. Two operators that the same text starts with are
equal as soon as they have as many bytes. So the longest one is taken, in whatever order they were
given.

## Main definitions

* `Lexicon.IsLongest`: the longest of several operators that a text starts with.
* `Lexicon.Alike`: two lexica classify characters and words alike.

## Main results

* `Lexicon.stopKeyword?_make_eq_some_iff`: the operator that is taken is the longest.
* `Lexicon.isLongest_iff_of_starts`: an operator is a token where it is the longest.
* `Lexicon.Alike.tokenize`: alike lexica cut a source into the same tokens.
* `Lexicon.tokenize_make_congr`: only the members of the lists matter.
-/

namespace SignalRules

/-- Of two texts that stand at the same place, the one with fewer bytes starts the other. -/
theorem Text.prefix_of_byteLength_le {as bs cs : List Char} (ha : as <+: cs) (hb : bs <+: cs)
    (h : byteLength as ≤ byteLength bs) : as <+: bs := by
  rcases List.prefix_or_prefix_of_prefix ha hb with hpre | ⟨tail, rfl⟩
  · exact hpre
  · cases tail with
    | nil => simp
    | cons c tail =>
      have hsize := c.utf8Size_pos
      rw [byteLength_append, byteLength_cons] at h
      omega

namespace Lexicon

variable {lx lx' : Lexicon}

/-! ### Operators -/

/-- The longest of several operators that a text starts with. -/
structure IsLongest (operators : List String) (cs : List Char) (keyword : String) : Prop where
  mem : keyword ∈ operators
  ne_empty : keyword ≠ ""
  isPrefix : keyword.toList <+: cs
  longest : ∀ other ∈ operators, other.toList <+: cs → other.length ≤ keyword.length

theorem IsLongest.unique {operators : List String} {cs : List Char} {a b : String}
    (ha : IsLongest operators cs a) (hb : IsLongest operators cs b) : a = b := by
  have hle : a.toList.length ≤ b.toList.length := by
    simpa only [String.length_toList] using hb.longest a ha.mem ha.isPrefix
  have hge : b.toList.length ≤ a.toList.length := by
    simpa only [String.length_toList] using ha.longest b hb.mem hb.isPrefix
  have hpre := List.prefix_of_prefix_length_le ha.isPrefix hb.isPrefix hle
  exact String.toList_injective (hpre.eq_of_length (Nat.le_antisymm hle hge))

theorem IsLongest.congr {operators operators' : List String}
    (h : ∀ kw, kw ∈ operators ↔ kw ∈ operators') {cs : List Char} {keyword : String} :
    IsLongest operators cs keyword ↔ IsLongest operators' cs keyword := by
  constructor
  · rintro ⟨hmem, hne, hpre, hlongest⟩
    exact ⟨(h keyword).1 hmem, hne, hpre, fun other hother => hlongest other ((h other).2 hother)⟩
  · rintro ⟨hmem, hne, hpre, hlongest⟩
    exact ⟨(h keyword).2 hmem, hne, hpre, fun other hother => hlongest other ((h other).1 hother)⟩

/-- An operator is found if the text starts with one that is not empty. -/
theorem stopKeyword?_ne_none {cs : List Char} {keyword : String}
    (hmem : keyword ∈ lx.stopKeywords) (hne : keyword ≠ "") (hpre : keyword.toList <+: cs) :
    lx.stopKeyword? cs ≠ none := by
  intro hnone
  obtain ⟨rest, rfl⟩ := hpre
  have hkeyword := List.findSome?_eq_none_iff.1 hnone keyword hmem
  simp [hne, stripStart?_append] at hkeyword

/-- If longer operators are tried first, none that stands at the same place has more bytes than the
one that is found. -/
theorem byteLength_le_of_stopKeyword? {cs rest : List Char} {keyword : String}
    (hsorted : lx.stopKeywords.Pairwise fun a b =>
      Text.byteLength b.toList ≤ Text.byteLength a.toList)
    (h : lx.stopKeyword? cs = some (keyword, rest)) {other : String}
    (hmem : other ∈ lx.stopKeywords) (hne : other ≠ "") (hpre : other.toList <+: cs) :
    Text.byteLength other.toList ≤ Text.byteLength keyword.toList := by
  obtain ⟨earlier, found, later, hlist, hfound, hearlier⟩ := List.findSome?_eq_some_iff.1 h
  split_ifs at hfound
  obtain ⟨_, -, hpair⟩ := Option.map_eq_some_iff.1 hfound
  obtain ⟨rfl, -⟩ := Prod.mk.inj hpair
  rw [hlist] at hmem hsorted
  rcases List.mem_append.1 hmem with hmem | hmem
  · -- An earlier one would have been found.
    have hrefused := hearlier other hmem
    obtain ⟨tail, rfl⟩ := hpre
    simp [hne, stripStart?_append] at hrefused
  · rcases List.mem_cons.1 hmem with rfl | hmem
    · exact Nat.le_refl _
    · exact List.rel_of_pairwise_cons (List.pairwise_append.1 hsorted).2.1 hmem

section Make

variable {quotes stopSymbols : List Char} {keywords operators : List String}

theorem mem_stopKeywords_make {kw : String} :
    kw ∈ (make quotes stopSymbols keywords operators).stopKeywords ↔ kw ∈ operators :=
  List.mem_mergeSort

/-- Longer operators are tried before shorter ones. -/
theorem pairwise_stopKeywords_make :
    (make quotes stopSymbols keywords operators).stopKeywords.Pairwise fun a b =>
      Text.byteLength b.toList ≤ Text.byteLength a.toList := by
  refine (List.pairwise_mergeSort ?_ ?_ operators).imp fun hab => of_decide_eq_true hab
  · intro a b c hab hbc
    simp only [decide_eq_true_eq] at hab hbc ⊢
    omega
  · intro a b
    simp only [Bool.or_eq_true, decide_eq_true_eq]
    omega

theorem isLongest_of_stopKeyword? {cs rest : List Char} {keyword : String}
    (h : (make quotes stopSymbols keywords operators).stopKeyword? cs = some (keyword, rest)) :
    IsLongest operators cs keyword := by
  obtain ⟨hne, hcs⟩ := eq_append_of_stopKeyword? h
  have hpre : keyword.toList <+: cs := ⟨rest, hcs.symm⟩
  refine ⟨mem_stopKeywords_make.1 (mem_of_stopKeyword? h), hne, hpre, fun other hmem hother => ?_⟩
  by_cases hempty : other = ""
  · simp [hempty]
  · have hbytes := byteLength_le_of_stopKeyword? pairwise_stopKeywords_make h
      (mem_stopKeywords_make.2 hmem) hempty hother
    simpa only [String.length_toList] using
      (Text.prefix_of_byteLength_le hother hpre hbytes).length_le

/-- The operator that is taken at the beginning of a text is the longest that the text starts
with. -/
theorem stopKeyword?_make_eq_some_iff {cs rest : List Char} {keyword : String} :
    (make quotes stopSymbols keywords operators).stopKeyword? cs = some (keyword, rest) ↔
      IsLongest operators cs keyword ∧ cs = keyword.toList ++ rest := by
  constructor
  · intro h
    exact ⟨isLongest_of_stopKeyword? h, (eq_append_of_stopKeyword? h).2⟩
  · rintro ⟨hlongest, hcs⟩
    have hsome : (make quotes stopSymbols keywords operators).stopKeyword? cs ≠ none :=
      stopKeyword?_ne_none (mem_stopKeywords_make.2 hlongest.mem) hlongest.ne_empty
        hlongest.isPrefix
    obtain ⟨⟨found, rest'⟩, hfound⟩ := Option.ne_none_iff_exists'.1 hsome
    obtain rfl := (isLongest_of_stopKeyword? hfound).unique hlongest
    have hrest : rest' = rest :=
      List.append_cancel_left ((eq_append_of_stopKeyword? hfound).2.symm.trans hcs)
    rw [hfound, hrest]

/-- Where a text starts with a lexeme, an operator is the longest that stands there exactly if it is
the lexeme. -/
theorem isLongest_iff_of_starts {cs rest : List Char} {x : Lexeme}
    (h : Starts (make quotes stopSymbols keywords operators) cs x rest) {keyword : String} :
    IsLongest operators cs keyword ↔ keyword ∈ operators ∧ x = ⟨.keyword, keyword⟩ := by
  constructor
  · intro hlongest
    obtain ⟨tail, hcs⟩ := hlongest.isPrefix
    have hfound : (make quotes stopSymbols keywords operators).stopKeyword? cs =
        some (keyword, tail) := stopKeyword?_make_eq_some_iff.2 ⟨hlongest, hcs.symm⟩
    refine ⟨hlongest.mem, ?_⟩
    cases h with
    | stopKeyword hkeyword =>
      obtain ⟨rfl, -⟩ := Prod.mk.inj (Option.some.inj (hkeyword.symm.trans hfound))
      rfl
    | symbol hkeyword | literal hkeyword | word hkeyword =>
      rw [hkeyword] at hfound
      cases hfound
  · rintro ⟨hmem, hx⟩
    cases h with
    | stopKeyword hkeyword =>
      cases hx
      exact isLongest_of_stopKeyword? hkeyword
    | symbol | literal => cases hx
    | @word c cs kind hkeyword =>
      -- A reserved word that is an operator as well would have been found as one.
      obtain ⟨-, rfl⟩ := Lexeme.mk.inj hx
      refine absurd hkeyword (stopKeyword?_ne_none (mem_stopKeywords_make.2 hmem) (by simp) ?_)
      rw [String.toList_ofList]
      exact List.cons_prefix_cons.2 ⟨rfl, List.takeWhile_prefix _⟩

theorem mem_stopSymbols_make {c : Char} :
    c ∈ (make quotes stopSymbols keywords operators).stopSymbols ↔ c ∈ stopSymbols ∨ c = ' ' := by
  simp only [make, List.contains_eq_mem, decide_eq_true_eq]
  split_ifs with hspace
  · constructor
    · exact .inl
    · rintro (hc | rfl)
      · exact hc
      · exact hspace
  · simp

end Make

/-! ### Lexica that classify alike -/

/-- Two lexica have the same quotes, stop symbols and reserved words, and take the same operators
from the front of any text. -/
structure Alike (lx lx' : Lexicon) : Prop where
  quotes : ∀ c, c ∈ lx.quotes ↔ c ∈ lx'.quotes
  stopSymbols : ∀ c, c ∈ lx.stopSymbols ↔ c ∈ lx'.stopSymbols
  keywords : ∀ kw, kw ∈ lx.keywords ↔ kw ∈ lx'.keywords
  stopKeyword? : ∀ cs, lx.stopKeyword? cs = lx'.stopKeyword? cs

namespace Alike

variable (h : Alike lx lx')
include h

theorem isStop : lx.isStop = lx'.isStop := by
  funext c
  simp [Lexicon.isStop, h.stopSymbols]

theorem separated (lexeme : List Char) (start : Nat) (rest : List Char) :
    lx.separated lexeme start rest = lx'.separated lexeme start rest := by
  simp only [Lexicon.separated, h.isStop]

theorem endsInStop (keyword : String) : lx.endsInStop keyword = lx'.endsInStop keyword := by
  simp only [Lexicon.endsInStop, h.isStop]

theorem wordKind? (word : List Char) : lx.wordKind? word = lx'.wordKind? word := by
  simp only [Lexicon.wordKind?, List.contains_eq_mem, h.keywords]

/-- The next token is the same. -/
theorem next (start : Nat) (c : Char) (cs : List Char) :
    lx.next start c cs = lx'.next start c cs := by
  simp only [Lexicon.next, h.stopKeyword?, h.endsInStop, h.separated, h.wordKind?, h.isStop,
    List.contains_eq_mem, h.stopSymbols, h.quotes]

/-- All tokens of a text are the same, or the same error is met first. -/
theorem scan (start : Nat) (cs : List Char) : lx.scan start cs = lx'.scan start cs := by
  fun_induction Lexicon.scan lx start cs with
  | case1 => rw [Lexicon.scan]
  | case2 start c cs hc ih => rw [Lexicon.scan, if_pos hc, ih]
  | case3 start c cs hc e hnext =>
    rw [h.next] at hnext
    rw [Lexicon.scan, if_neg hc]
    split
    · rename_i e' he'
      cases hnext.symm.trans he'
      rfl
    · rename_i token rest hok
      cases hnext.symm.trans hok
  | case4 start c cs hc token rest hnext e hrest ih =>
    rw [h.next] at hnext
    rw [scan_cons (by simpa using hc) hnext, ← ih, hrest]
  | case5 start c cs hc token rest hnext tokens hrest ih =>
    rw [h.next] at hnext
    rw [scan_cons (by simpa using hc) hnext, ← ih, hrest]

theorem tokenize (source : List Char) : lx.tokenize source = lx'.tokenize source :=
  h.scan 0 source

end Alike

/-- Only the members of the lists that a lexicon is made from matter: whatever the order in which
they are given, and however often, a source is cut into the same tokens or refused with the same
error. In particular the operator that is taken at any place is the longest of those given that
stand there, and so an operator is a token exactly if it is the longest one at the place of the
token. -/
theorem tokenize_make_congr {q q' s s' : List Char} {k k' w w' : List String}
    (hquotes : ∀ c, c ∈ q ↔ c ∈ q') (hsymbols : ∀ c, c ∈ s ↔ c ∈ s')
    (hkeywords : ∀ kw, kw ∈ k ↔ kw ∈ k') (hoperators : ∀ kw, kw ∈ w ↔ kw ∈ w') :
    (∀ source, (make q s k w).tokenize source = (make q' s' k' w').tokenize source) ∧
    (∀ cs keyword rest,
      (make q s k w).stopKeyword? cs = some (keyword, rest) ↔
        keyword ∈ w ∧ keyword ≠ "" ∧ cs = keyword.toList ++ rest ∧
          ∀ other ∈ w, other.toList <+: cs → other.length ≤ keyword.length) ∧
    ∀ source tokens, (make q s k w).tokenize source = .ok tokens → ∀ t ∈ tokens,
      ∃ before cs, source = before ++ cs ∧ t.span.start = Text.byteLength before ∧
        ∀ keyword, IsLongest w cs keyword ↔ keyword ∈ w ∧ t.lexeme = ⟨.keyword, keyword⟩ := by
  have hoperator (cs : List Char) :
      (make q s k w).stopKeyword? cs = (make q' s' k' w').stopKeyword? cs := by
    refine Option.ext fun ⟨keyword, rest⟩ => ?_
    rw [stopKeyword?_make_eq_some_iff, stopKeyword?_make_eq_some_iff, IsLongest.congr hoperators]
  have halike : Alike (make q s k w) (make q' s' k' w') :=
    ⟨hquotes, fun c => by rw [mem_stopSymbols_make, mem_stopSymbols_make, hsymbols], hkeywords,
      hoperator⟩
  refine ⟨halike.tokenize, fun cs keyword rest => ?_, fun source tokens htokens t ht => ?_⟩
  · rw [stopKeyword?_make_eq_some_iff]
    constructor
    · rintro ⟨⟨hmem, hne, -, hlongest⟩, hcs⟩
      exact ⟨hmem, hne, hcs, hlongest⟩
    · rintro ⟨hmem, hne, hcs, hlongest⟩
      exact ⟨⟨hmem, hne, ⟨rest, hcs.symm⟩, hlongest⟩, hcs⟩
  · obtain ⟨before, cs, rfl, hstart, rest, hstarts⟩ :=
      (tokenize_eq_ok_iff_laid.1 htokens).exists_starts ht
    rw [Nat.zero_add] at hstart
    exact ⟨before, cs, rfl, hstart, fun keyword => isLongest_iff_of_starts hstarts⟩

/-- Operators that start one another, of characters with one byte and with three, one of them given
twice and one of them empty. -/
def arrows : List String := ["=", "→", "==", "", "→→", "="]

/-- A lexicon with these operators. -/
def arrowLexicon : Lexicon := make ['"', '|'] ['(', '='] ["all", "any"] arrows

theorem tokenize_make_congr_arrows :
    (∀ source, arrowLexicon.tokenize source =
      (make ['|', '"'] ['=', '('] ["any", "all"] ["→→", "=", "→", "=", "==", ""]).tokenize source) ∧
      arrowLexicon.stopKeyword? "→→==".toList = some ("→→", ['=', '=']) ∧
      arrowLexicon.tokenize "→→==".toList =
        .ok [⟨.keyword, "→→", ⟨0, 6⟩⟩, ⟨.keyword, "==", ⟨6, 8⟩⟩] ∧
      ∃ before cs, "→→==".toList = before ++ cs ∧ 6 = Text.byteLength before ∧
        IsLongest arrows cs "==" := by
  have hquotes (c : Char) : c ∈ ['"', '|'] ↔ c ∈ ['|', '"'] := List.Perm.mem_iff (by decide)
  have hsymbols (c : Char) : c ∈ ['(', '='] ↔ c ∈ ['=', '('] := List.Perm.mem_iff (by decide)
  have hkeywords (kw : String) : kw ∈ ["all", "any"] ↔ kw ∈ ["any", "all"] :=
    List.Perm.mem_iff (by decide)
  have hoperators (kw : String) : kw ∈ arrows ↔ kw ∈ ["→→", "=", "→", "=", "==", ""] :=
    List.Perm.mem_iff (by decide)
  obtain ⟨hsame, hchosen, hplaces⟩ := tokenize_make_congr hquotes hsymbols hkeywords hoperators
  have harrows : arrowLexicon.stopKeyword? "→→==".toList = some ("→→", ['=', '=']) :=
    (hchosen _ _ _).2 ⟨by decide, by decide, by decide, by decide⟩
  have hequal : arrowLexicon.stopKeyword? ['=', '='] = some ("==", []) :=
    (hchosen _ _ _).2 ⟨by decide, by decide, by decide, by decide⟩
  have hsetOff : arrowLexicon.SetOff ['=', '='] := by
    simp [SetOff, isStop, arrowLexicon, mem_stopSymbols_make]
  have hlaid : arrowLexicon.Laid 0 "→→==".toList
      [⟨.keyword, "→→", ⟨0, 6⟩⟩, ⟨.keyword, "==", ⟨6, 8⟩⟩] :=
    @Laid.token _ 0 '→' ['→'] ['=', '='] ⟨.keyword, "→→", ⟨0, 6⟩⟩ _ rfl
      (.stopKeyword harrows (.inr hsetOff)) rfl
      (@Laid.token _ 6 '=' ['='] [] ⟨.keyword, "==", ⟨6, 8⟩⟩ _ rfl
        (.stopKeyword hequal (.inl (by decide))) rfl .nil)
  have htokens := tokenize_eq_ok_iff_laid.2 hlaid
  obtain ⟨before, cs, hsource, hstart, hlongest⟩ :=
    hplaces _ _ htokens ⟨.keyword, "==", ⟨6, 8⟩⟩ (by simp)
  exact ⟨hsame, harrows, htokens, before, cs, hsource, hstart, (hlongest _).2 ⟨by decide, rfl⟩⟩

end Lexicon

end SignalRules
