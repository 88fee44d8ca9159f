import SignalRules.Proofs.Keeping

/-!
# Canonical text as a fixed point

Canonicalizing a canonical text gives it back exactly if it is read in the grammar that it was
written in and every literal beside a signal settles to itself. A text that was written in the other
grammar comes back only if it is a literal: parentheses enclose all of a Polish form, but never all
of an algebraic expression.

## Main definitions

* `Text.behind`: the text behind a closing parenthesis.

## Main results

* `Expr.write_polish_ne`: a Polish form is no canonical text of the algebraic grammar.
* `Dialect.canonicalize_canonical_iff`: when canonical text is a fixed point.
-/

namespace SignalRules

/-! ### Matching parentheses -/

namespace Text

/-- Where a place of a canonical text is. -/
inductive Mode where
  /-- Outside of text literals. -/
  | plain
  /-- In a text literal. -/
  | literal
  /-- Behind a backslash in a text literal. -/
  | escaped

/-- The text behind the first parenthesis that closes more than is open, where `depth` parentheses
are open at first. -/
def behind (depth : Nat) : Mode → List Char → List Char
  | _, [] => []
  | .plain, c :: cs =>
    if c = '(' then behind (depth + 1) .plain cs
    else if c = ')' then
      match depth with
      | 0 => cs
      | depth + 1 => behind depth .plain cs
    else if c = '\'' then behind depth .literal cs
    else behind depth .plain cs
  | .literal, c :: cs =>
    if c = '\\' then behind depth .escaped cs
    else if c = '\'' then behind depth .plain cs
    else behind depth .literal cs
  | .escaped, _ :: cs => behind depth .literal cs

/-- The inside of a literal is skipped. -/
theorem behind_escape (depth : Nat) (afterBrace : Bool) (content rest : List Char) :
    behind depth .literal (escape afterBrace content ++ '\'' :: rest) =
      behind depth .plain rest := by
  induction content generalizing afterBrace with
  | nil => simp [escape, behind]
  | cons c content ih =>
    rw [escape]
    split_ifs with hc
    · simp [behind, ih]
    · have hc' : c ≠ '\\' ∧ c ≠ '\'' := by
        simp only [isEscaped, Bool.or_eq_true, beq_iff_eq, not_or] at hc
        exact hc.1
      simp [behind, hc', ih]

/-- Characters of names, numbers and operators are skipped. -/
theorem behind_word (depth : Nat) {word : List Char} (h : ∀ c ∈ word, c ∉ Piece.special)
    (rest : List Char) : behind depth .plain (word ++ rest) = behind depth .plain rest := by
  induction word with
  | nil => rfl
  | cons c word ih =>
    rw [List.forall_mem_cons] at h
    have hc : c ≠ '(' ∧ c ≠ ')' ∧ c ≠ '\'' := by
      have hspecial := h.1
      simp only [Piece.special, List.mem_cons, not_or] at hspecial
      exact ⟨hspecial.1, hspecial.2.1, hspecial.2.2.2.1⟩
    simp [behind, hc, ih h.2]

end Text

/-- Balanced pieces are skipped. -/
theorem Piece.Balanced.behind_text {ps : List Piece} (h : Balanced ps) (depth : Nat)
    (rest : List Char) :
    Text.behind depth .plain (text ps ++ rest) = Text.behind depth .plain rest := by
  induction h generalizing depth rest with
  | nil => rfl
  | @cons p ps hp _ ih =>
    rw [text_cons, List.append_assoc, ← ih depth rest]
    cases p with
    | literal content =>
      have hinside := Text.behind_escape depth false content.toList (text ps ++ rest)
      rw [chars, Text.quote, List.cons_append, List.append_assoc]
      exact hinside
    | mark c => exact Text.behind_word depth (List.forall_mem_singleton.2 hp) _
    | word s => exact Text.behind_word depth hp _
    | blank => exact Text.behind_word depth (by decide) _
    | openGroup | closeGroup => exact hp.elim
  | @enclosed opening closing ps qs hopening hclosing _ _ ihps ihqs =>
    simp only [text_cons, text_append, hopening, hclosing, List.append_assoc, List.cons_append,
      List.nil_append]
    rw [← ihqs depth rest]
    simp [Text.behind, ihps]

/-- What follows the parenthesis that closes balanced pieces. -/
theorem Piece.Balanced.behind_close {ps : List Piece} (h : Balanced ps) (rest : List Char) :
    Text.behind 0 .plain (text ps ++ ')' :: rest) = rest := by
  rw [h.behind_text]
  simp [Text.behind]

/-! ### Texts of the two grammars -/

/-- A text that starts with a plain piece does not start with a parenthesis. -/
theorem Piece.IsPlain.head?_ne {p : Piece} (hp : p.IsPlain) (hne : p.chars ≠ [])
    (ps : List Piece) : (Piece.text (p :: ps)).head? ≠ some '(' := by
  rw [Piece.text_cons, List.head?_append_of_ne_nil _ hne]
  intro hhead
  have hmem : '(' ∈ p.chars := List.mem_of_head? hhead
  cases p with
  | mark c => exact hp (List.mem_singleton.1 hmem ▸ by decide)
  | word s => exact hp '(' hmem (by decide)
  | blank => exact absurd hmem (by decide)
  | literal content => simp [Piece.chars, Text.quote] at hhead
  | openGroup | closeGroup => exact hp.elim

namespace Phrase

/-- Whether a phrase stands for something else than a literal, without parentheses around it. -/
def isCompound : Phrase → Bool
  | number _ | negative _ | text _ | group _ => false
  | _ => true

theorem isCompound_chain (p : Phrase) (s : Operator × Phrase) (ss : List (Operator × Phrase)) :
    (chain p (s :: ss)).isCompound := by
  induction ss generalizing p s with
  | nil => rfl
  | cons t ss ih => exact ih (binary s.1 p s.2) t

/-- Nothing but a group starts with a parenthesis, apart from what starts with an operand. -/
theorem head?_ne_open {p : Phrase} (hp : p.RespectsPrecedence)
    (hw : p.IsWritable fun name => isIdentifier name.toList) (hgroup : ∀ q, p ≠ group q)
    (hbinary : p.isBinary = false) : (Piece.text p.pieces).head? ≠ some '(' := by
  have hname {name : String} (h : isIdentifier name.toList) (ps : List Piece) :
      (Piece.text (.word name :: ps)).head? ≠ some '(' := by
    refine (Piece.isPlain_name h).head?_ne (fun hnil => ?_) ps
    rw [Piece.chars] at hnil
    simp [hnil, isIdentifier] at h
  have hword {word : String} (h : ∀ c ∈ word.toList, c ∉ Piece.special) (hne : word ≠ "")
      (ps : List Piece) : (Piece.text (.word word :: ps)).head? ≠ some '(' := by
    have hplain : (Piece.word word).IsPlain := h
    exact hplain.head?_ne (by simpa [Piece.chars] using hne) ps
  cases hp with
  | number digits =>
    obtain ⟨n, rfl⟩ := (hw ⟨.number, digits⟩ (by simp [yield])).2 rfl
    obtain ⟨c, cs, hcons, -⟩ := n.magnitudeDigits_eq_cons
    have hplain : ∀ c ∈ (String.ofList n.magnitudeDigits).toList, c ∉ Piece.special := by
      simpa using Piece.isPlain_digits n
    exact hword hplain (by simp [hcons]) []
  | negative => simp [pieces, Piece.chars]
  | text => simp [pieces, Piece.chars, Text.quote]
  | signal name => exact hname ((hw ⟨.identifier, name⟩ (by simp [yield])).1 rfl) []
  | presence kind =>
    have hne : (Operator.presence kind).infixed ≠ "" := by cases kind <;> decide
    exact hword (Piece.isPlain_operator _).1 hne _
  | @call op args hop =>
    have hne : ∀ op : Operator, op.isCall → op.infixed ≠ "" := Operator.forall_of_all (by decide)
    exact hword (Piece.isPlain_operator op).1 (hne op hop) _
  | invoke name => exact hname ((hw ⟨.identifier, name⟩ (by simp [yield])).1 rfl) _
  | group => exact absurd rfl (hgroup _)
  | minus | not => simp [pieces, Piece.chars]
  | binary => cases hbinary

/-- If the text of a phrase starts with a parenthesis but the phrase is not a group, the parenthesis
is closed before the text ends. -/
theorem exists_closed {p : Phrase} (hp : p.RespectsPrecedence)
    (hw : p.IsWritable fun name => isIdentifier name.toList) (hgroup : ∀ q, p ≠ group q)
    (hopen : (Piece.text p.pieces).head? = some '(') :
    ∃ ps rest, Piece.Balanced ps ∧
      Piece.text p.pieces = '(' :: (Piece.text ps ++ ')' :: ' ' :: rest) := by
  induction p with
  | binary op left right ihl _ =>
    cases hp with
    | binary _ hleft _ =>
      have hwleft : left.IsWritable fun name => isIdentifier name.toList :=
        hw.mono fun x hx => by simp [yield, hx]
      obtain ⟨tail, htail⟩ : ∃ tail, Piece.text (.blank :: .word op.infixed :: .blank ::
          right.pieces) = ' ' :: tail := ⟨_, by rw [Piece.text_cons]; rfl⟩
      rw [pieces, Piece.text_append, htail] at hopen ⊢
      by_cases hleftGroup : ∃ q, left = group q
      · obtain ⟨q, rfl⟩ := hleftGroup
        have hwq : q.IsWritable fun name => isIdentifier name.toList :=
          hwleft.mono fun x hx => by simp [yield, Lexeme.enclosed, hx]
        exact ⟨q.pieces, tail, balanced_pieces hwq, by simp [pieces, Piece.chars]⟩
      · have hopenLeft : (Piece.text left.pieces).head? = some '(' := by
          cases htext : Piece.text left.pieces with
          | nil => simp [htext] at hopen
          | cons c cs => simpa [htext] using hopen
        obtain ⟨ps, rest, hps, htext⟩ := ihl hleft hwleft (not_exists.1 hleftGroup) hopenLeft
        exact ⟨ps, rest ++ ' ' :: tail, hps, by simp [htext]⟩
  | _ => exact absurd hopen (head?_ne_open hp hw hgroup rfl)

end Phrase

section Shapes

variable {ctx : Context} {e : Expr}

/-- The phrase of an expression that is not a literal is compound. -/
theorem Expr.isCompound_phrase (h : e.Everywhere (Sound ctx)) (hne : ∀ v, e.head ≠ .constant v) :
    e.phrase.isCompound := by
  obtain ⟨span, head, es⟩ := e
  have hchain {op : Operator} (hop : op ∈ head.operator?)
      (hcount : head.operandCount es.length = es.length) (hleast : 2 ≤ op.arity.least) :
      (op.chainPhrase (es.map fun e => (e.head, e.phrase))).isCompound := by
    have haccepts := Arity.accepts_iff.1 (h.head.count op hop)
    have hlength : 2 ≤ es.length := by
      have haccepts' : op.arity.least ≤ head.operandCount (es.map Expr.head).length := haccepts.1
      rw [List.length_map, hcount] at haccepts'
      exact Nat.le_trans hleast haccepts'
    match es, hlength with
    | a :: b :: rest, _ => exact Phrase.isCompound_chain _ _ _
  rw [phrase_node]
  cases head with
  | constant v => exact absurd rfl (hne v)
  | symbol name => cases h.head
  | comparison op => cases op <;> exact hchain rfl rfl (by decide)
  | connective op =>
    cases op with
    | not => rfl
    | and | or => exact hchain rfl rfl (by decide)
  | arithmetic op =>
    cases op with
    | neg | min | max | round => rfl
    | add | sub | mul | div | mod => exact hchain rfl rfl (by decide)
  | _ => rfl

/-- The term of an expression that is not a literal is a form. -/
theorem Expr.exists_form (h : e.Everywhere (Sound ctx)) (hne : ∀ v, e.head ≠ .constant v) :
    ∃ op ts, e.term = .form op ts := by
  obtain ⟨span, head, es⟩ := e
  rw [term_node]
  cases head with
  | constant v => exact absurd rfl (hne v)
  | symbol name => cases h.head
  | _ => exact ⟨_, _, rfl⟩

theorem Expr.phrase_literal (h : e.Everywhere (Sound ctx)) {v : Value} (hv : e.head = .constant v) :
    e.phrase = v.phrase := by
  rw [eq_literal h hv, phrase_node]
  rfl

theorem Value.isCompound_phrase (v : Value) :
    v.phrase.isCompound = false ∧ ∀ q, v.phrase ≠ .group q := by
  cases v with
  | unset | string => simp [Value.phrase, Phrase.isCompound]
  | number n =>
    rw [Value.phrase]
    split_ifs <;> simp [Phrase.isCompound]

/-- The phrase of an expression is never a group as a whole. -/
theorem Expr.phrase_ne_group (h : e.Everywhere (Sound ctx)) (q : Phrase) : e.phrase ≠ .group q := by
  by_cases hconst : ∃ v, e.head = .constant v
  · obtain ⟨v, hv⟩ := hconst
    rw [phrase_literal h hv]
    exact v.isCompound_phrase.2 q
  · intro hgroup
    have hcompound := isCompound_phrase h (not_exists.1 hconst)
    rw [hgroup] at hcompound
    cases hcompound

/-- A Polish form is no canonical text of the algebraic grammar: its first parenthesis is closed at
the very end. -/
theorem Expr.write_polish_ne {ctx' : Context} {e' : Expr} (hkeyed : ctx.host.Keyed)
    (hkeyed' : ctx'.host.Keyed) (h : e.Everywhere (Sound ctx)) (h' : e'.Everywhere (Sound ctx'))
    (hne : ∀ v, e.head ≠ .constant v) : e.write .polish ≠ e'.write .algebraic := by
  intro hwrite
  have hnames : ∀ n ∈ e.names, isIdentifier n.toList := fun n hn => (isName_names h hkeyed n hn).1
  have hnames' : ∀ n ∈ e'.names, isIdentifier n.toList := fun n hn =>
    (isName_names h' hkeyed' n hn).1
  obtain ⟨op, ts, hform⟩ := exists_form h hne
  have hinner : Piece.Balanced (.word op.keyword :: Term.piecesAll ts) := by
    have hcan := canWrite_term h hnames
    rw [hform] at hcan
    refine .cons (Piece.isPlain_operator op).2 (Term.balanced_piecesAll fun t ht => ?_)
    refine Term.balanced_pieces fun x hx => hcan x ?_
    simp [Term.yield, Term.mem_yieldAll ht hx]
  have hpolish : (e.write .polish).toList =
      '(' :: (Piece.text (.word op.keyword :: Term.piecesAll ts) ++ [')']) := by
    rw [toList_write, pieces, ← pieces_term, hform]
    simp [Term.pieces, Piece.chars]
  have halgebraic : Piece.text e'.phrase.pieces =
      '(' :: (Piece.text (.word op.keyword :: Term.piecesAll ts) ++ [')']) := by
    rw [← hpolish, hwrite, toList_write, pieces, ← pieces_phrase h']
  obtain ⟨ps, rest, hps, htext⟩ := Phrase.exists_closed (isPlaced h').respects
    (isWritable_phrase h' hnames') (phrase_ne_group h') (by rw [halgebraic]; rfl)
  -- The parenthesis that closes the first one is followed by a blank and by nothing.
  have hrest := hps.behind_close (' ' :: rest)
  rw [← (List.cons.inj (halgebraic.symm.trans htext)).2, hinner.behind_close] at hrest
  cases hrest

/-- A literal is written alike in both grammars. -/
theorem Expr.write_literal (h : e.Everywhere (Sound ctx)) {v : Value} (hv : e.head = .constant v)
    (g g' : Grammar) : e.write g = e.write g' := by
  have hpieces (g : Grammar) : e.pieces g = v.pieces := by
    rw [eq_literal h hv]
    cases g <;> simp [pieces, polish, algebraic]
  rw [write, write, hpieces, hpieces]

/-- A literal is sound in every context. -/
theorem Expr.sound_literal (h : e.Everywhere (Sound ctx)) {v : Value} (hv : e.head = .constant v)
    (ctx' : Context) : e.Everywhere (Sound ctx') := by
  rw [eq_literal h hv]
  exact .node (.literal v) (by simp)

/-- Nothing but literals is written alike in the two grammars. -/
theorem Expr.write_ne {ctx' : Context} {e' : Expr} (hkeyed : ctx.host.Keyed)
    (hkeyed' : ctx'.host.Keyed) (h : e.Everywhere (Sound ctx)) (h' : e'.Everywhere (Sound ctx'))
    (hne : ∀ v, e.head ≠ .constant v) (hgrammar : ctx.grammar ≠ ctx'.grammar) :
    e.write ctx.grammar ≠ e'.write ctx'.grammar := by
  cases hg : ctx.grammar with
  | polish =>
    obtain hg' : ctx'.grammar = .algebraic := by
      cases hg' : ctx'.grammar with
      | polish => exact absurd (hg.trans hg'.symm) hgrammar
      | algebraic => rfl
    rw [hg']
    exact write_polish_ne hkeyed hkeyed' h h' hne
  | algebraic =>
    obtain hg' : ctx'.grammar = .polish := by
      cases hg' : ctx'.grammar with
      | polish => rfl
      | algebraic => exact absurd (hg.trans hg'.symm) hgrammar
    rw [hg']
    by_cases hconst : ∃ v, e'.head = .constant v
    · obtain ⟨v, hv⟩ := hconst
      intro hwrite
      have hsound := sound_literal h' hv ctx
      have hspells := spells_algebraic hkeyed hg h
      rw [hwrite, write_literal h' hv .polish .algebraic] at hspells
      have hphrase := Algebraic.eq_of_yield_eq (isPlaced h).respects (isPlaced hsound).respects
        (hspells.unique (spells_algebraic hkeyed hg hsound))
      have hcompound := isCompound_phrase h hne
      rw [hphrase, phrase_literal h' hv, v.isCompound_phrase.1] at hcompound
      cases hcompound
    · exact (write_polish_ne hkeyed' hkeyed h' h (not_exists.1 hconst)).symm

end Shapes

/-! ### Canonicalizing twice -/

namespace Dialect

variable {d : Dialect} {h : Host}

theorem canonicalize_eq_ok_iff {source : List Char} {text : String} :
    d.canonicalize h source = .ok text ↔
      ∃ script, d.read h source = .ok script ∧ script.canonical = text := by
  rw [canonicalize, bind_eq_ok_iff]
  simp [pure, Except.pure]

/-- Text that is written in the grammar that it is read in is a fixed point if every node is read
back and keeps its text. -/
theorem canonicalize_write_iff (hkeyed : h.Keyed) {e : Expr}
    (hsound : e.Everywhere (Sound (d.context h d.grammar))) :
    d.canonicalize h (e.write d.grammar).toList = .ok (e.write d.grammar) ↔
      e.Everywhere (Rereads d.strict) ∧ e.Everywhere Keeps := by
  have hverbatim := Expr.isVerbatim_write hkeyed hsound d.grammar
  have hparse := Expr.parse_write hkeyed hsound
  rw [canonicalize_eq_ok_iff]
  constructor
  · rintro ⟨script, hread, hcanonical⟩
    obtain ⟨hgrammar, hscript⟩ := (readIn_eq_ok_iff hverbatim).1 hread
    obtain ⟨hrereads, hreread⟩ :=
      (hparse script.expr.erase).1 (unplaced_eq_ok_iff.2 ⟨script.expr, hscript, rfl⟩)
    have hsound' := (Context.checked_of_parse hscript).sound
    have hwrite : e.reread.write d.grammar = e.write d.grammar := by
      rw [← hreread, Expr.write_erase hsound', ← hcanonical, Script.canonical, hgrammar]
    have herased := Expr.everywhere_erase.2 hsound'
    rw [hreread] at herased
    exact ⟨hrereads, (Expr.write_reread_iff hkeyed hsound herased).1 hwrite⟩
  · rintro ⟨hrereads, hkeeps⟩
    obtain ⟨x, hx, hreread⟩ := unplaced_eq_ok_iff.1 ((hparse e.reread).2 ⟨hrereads, rfl⟩)
    have hsound' := (Context.checked_of_parse hx).sound
    have herased := Expr.everywhere_erase.2 hsound'
    rw [hreread] at herased
    refine ⟨⟨x, d.grammar⟩, (readIn_eq_ok_iff hverbatim).2 ⟨rfl, hx⟩, ?_⟩
    rw [Script.canonical, ← Expr.write_erase hsound', hreread]
    exact (Expr.write_reread_iff hkeyed hsound herased).2 hkeeps

/-- The canonical text of a source is a fixed point exactly if it is a literal or in the grammar of
the dialect, and every literal beside a signal is read back and written as it was. -/
theorem canonicalize_canonical_iff (hreachable : h.Reachable) {source : List Char}
    {script : Script} (hread : d.read h source = .ok script) :
    d.canonicalize h source = .ok script.canonical ∧
    (d.canonicalize h script.canonical.toList = .ok script.canonical ↔
      (script.grammar = d.grammar ∨ ∃ v, script.expr.head = .constant v) ∧
        script.expr.Everywhere (Rereads d.strict) ∧ script.expr.Everywhere Keeps) := by
  obtain ⟨text, hparse⟩ := exists_parse_of_readIn hread
  have hsound := (Context.checked_of_parse hparse).sound
  have hkeyed := hreachable.keyed
  refine ⟨canonicalize_eq_ok_iff.2 ⟨script, hread, rfl⟩, ?_⟩
  by_cases hgrammar : script.grammar = d.grammar
  · rw [and_iff_right (.inl hgrammar), Script.canonical, hgrammar]
    rw [hgrammar] at hsound
    exact canonicalize_write_iff hkeyed hsound
  by_cases hconst : ∃ v, script.expr.head = .constant v
  · obtain ⟨v, hv⟩ := hconst
    rw [and_iff_right (.inr ⟨v, hv⟩), Script.canonical,
      Expr.write_literal hsound hv script.grammar d.grammar]
    exact canonicalize_write_iff hkeyed (Expr.sound_literal hsound hv _)
  · refine iff_of_false (fun hfixed => ?_) fun hcond => hcond.1.elim hgrammar hconst
    obtain ⟨again, hagain, hcanonical⟩ := canonicalize_eq_ok_iff.1 hfixed
    have hverbatim := Expr.isVerbatim_write hkeyed hsound script.grammar
    obtain ⟨hgrammar', hparse'⟩ := (readIn_eq_ok_iff hverbatim).1 hagain
    have hsound' := (Context.checked_of_parse hparse').sound
    rw [Script.canonical, hgrammar'] at hcanonical
    exact Expr.write_ne hkeyed hkeyed hsound hsound' (not_exists.1 hconst) hgrammar hcanonical.symm

theorem canonicalize_canonical_doorHost :
    doorHost.Reachable ∧
    ∃ script, (⟨.polish, true, true⟩ : Dialect).read doorHost
        "(eq (sig Door) 'ajar')".toList = .ok script ∧
      (⟨.polish, true, true⟩ : Dialect).canonicalize doorHost "(eq (sig Door) 'ajar')".toList =
        .ok script.canonical ∧
      ((⟨.polish, true, true⟩ : Dialect).canonicalize doorHost script.canonical.toList =
          .ok script.canonical ↔
        (script.grammar = .polish ∨ ∃ v, script.expr.head = .constant v) ∧
          script.expr.Everywhere (Rereads true) ∧ script.expr.Everywhere Keeps) := by
  have hreachable : doorHost.Reachable := .addSignal .empty _ _
  have hok : ((⟨.polish, true, true⟩ : Dialect).read doorHost
      "(eq (sig Door) 'ajar')".toList).isOk = true := by
    cbv
  obtain ⟨script, hread⟩ := exists_eq_ok hok
  exact ⟨hreachable, script, hread, canonicalize_canonical_iff hreachable hread⟩

/-- A marker is lost: the canonical text of a source in the other grammar cannot be read again. -/
theorem canonicalize_marked_not_fixed :
    (⟨.algebraic, false, true⟩ : Dialect).canonicalize .empty "#!prefix (add 1 2)".toList =
        .ok "(add 1 2)" ∧
      ((⟨.algebraic, false, true⟩ : Dialect).canonicalize .empty "(add 1 2)".toList).isOk =
        false := by
  constructor
  · cbv
  · cbv

end Dialect

end SignalRules
