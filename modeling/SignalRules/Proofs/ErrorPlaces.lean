import SignalRules.Proofs.Markers
import SignalRules.Proofs.Placement

/-!
# Where errors lie

The readers of both grammars put every error at a token, at the end of the source, or around several
such places. So an error of reading lies in the text that is read. An error in a macro is moved to
where the body of the macro stands, and an error behind a marker by the length of the marker, so
both lie in the source that was given.

## Main definitions

* `Places`: a condition on places that readers keep.
* `Taken.Lies`, `Kept.Lies`: what was read and the tokens that are left satisfy such a condition.

## Main results

* `Context.placed_parse`: an error of reading a text lies in the text.
* `Dialect.isValid_span_of_readIn`: an error of reading a source lies in the source.
-/

namespace SignalRules

/-- A condition on places that holds at the end of the source and around two places. -/
structure Places (P : Span → Prop) (finish : Nat) : Prop where
  finish : P ⟨finish, finish⟩
  merge : ∀ {a b}, P a → P b → P (a.merge b)

section Lies

variable {α : Type} {before : List Token}

/-- What was read satisfies `Q`, and the tokens that are left lie at places in `P`. -/
def Taken.Lies (P : Span → Prop) (Q : α → Prop) (t : Taken α before) : Prop :=
  Q t.result ∧ ∀ u ∈ t.rest, P u.span

/-- What was read satisfies `Q`, and the tokens that are left lie at places in `P`. -/
def Kept.Lies (P : Span → Prop) (Q : α → Prop) (t : Kept α before) : Prop :=
  Q t.result ∧ ∀ u ∈ t.rest, P u.span

end Lies

/-- Operands and the closing parenthesis behind them lie at places in `P`. -/
def OperandsLie (P : Span → Prop) (p : List Expr × Span) : Prop :=
  (∀ e ∈ p.1, P e.span) ∧ P p.2

section Readers

variable {ctx : Context} {P : Span → Prop} {finish : Nat}

theorem placed_expectSymbol (hP : Places P finish) (c : Char) (x : Expectation)
    {us : List Token} (hus : ∀ u ∈ us, P u.span) :
    Placed P (Taken.Lies P P) (expectSymbol c x finish us) := by
  cases us with
  | nil => exact .located hP.finish
  | cons u us =>
    rw [List.forall_mem_cons] at hus
    rw [expectSymbol]
    split_ifs
    · exact hus
    · exact .located hus.1

namespace Polish

mutual

theorem placed_expression (hP : Places P finish) : (us : List Token) → (∀ u ∈ us, P u.span) →
    Placed P (Taken.Lies P fun e => P e.span) (expression ctx finish us)
  | [], _ => by
    rw [expression]
    exact .located hP.finish
  | u :: us, hus => by
    rw [List.forall_mem_cons] at hus
    rw [expression]
    cases u.kind with
    | symbol =>
      dsimp only
      split_ifs
      · exact (placed_form hP hus.1 us hus.2).bind fun _ h => h
      · exact .located hus.1
    | number => exact (Context.placed_number u.text hus.1).bind fun _ he => ⟨he, hus.2⟩
    | string => exact hus
    | identifier => exact hus
    | keyword => exact .located hus.1
termination_by us => (us.length, 0)

theorem placed_form (hP : Places P finish) {opening : Span} (hopening : P opening) :
    (us : List Token) → (∀ u ∈ us, P u.span) →
    Placed P (Taken.Lies P fun e => P e.span) (form ctx finish opening us)
  | [], _ => by
    rw [form]
    exact .located (hP.merge hopening hP.finish)
  | u :: us, hus => by
    rw [List.forall_mem_cons] at hus
    rw [form]
    split_ifs
    · cases Operator.ofKeyword? u.text with
      | none => exact .located hus.1
      | some op =>
        refine (placed_operands hP hopening us hus.2).bind ?_
        rintro ⟨⟨args, closing⟩, rest, hshort⟩ ⟨⟨hargs, hclosing⟩, hrest⟩
        exact (Context.placed_apply op (hP.merge hopening hclosing) hargs).bind
          fun _ he => ⟨he, hrest⟩
    · exact .located hus.1
termination_by us => (us.length, 0)

theorem placed_operands (hP : Places P finish) {opening : Span} (hopening : P opening) :
    (us : List Token) → (∀ u ∈ us, P u.span) →
    Placed P (Taken.Lies P (OperandsLie P)) (operands ctx finish opening us)
  | [], _ => by
    rw [operands]
    exact .located (hP.merge hopening hP.finish)
  | u :: us, hus => by
    rw [operands]
    split_ifs
    · rw [List.forall_mem_cons] at hus
      exact ⟨⟨List.forall_mem_nil _, hus.1⟩, hus.2⟩
    · refine (placed_expression hP (u :: us) hus).bind ?_
      rintro ⟨e, rest, hshort⟩ ⟨he, hrest⟩
      refine (placed_operands hP hopening rest hrest).bind ?_
      rintro ⟨⟨es, closing⟩, rest', hshort'⟩ ⟨⟨hes, hclosing⟩, hrest'⟩
      exact ⟨⟨List.forall_mem_cons.2 ⟨he, hes⟩, hclosing⟩, hrest'⟩
termination_by us => (us.length, 1)

end

end Polish

namespace Algebraic

theorem placed_bareName (hP : Places P finish) {us : List Token} (hus : ∀ u ∈ us, P u.span) :
    Placed P (Taken.Lies P fun e => P e.span) (bareName finish us) := by
  cases us with
  | nil => exact .located hP.finish
  | cons u us =>
    rw [List.forall_mem_cons] at hus
    rw [bareName]
    split_ifs
    · exact hus
    · exact .located hus.1

theorem lies_of_negatedNumber? {op : Operator} {us : List Token} (hus : ∀ u ∈ us, P u.span)
    {t : Taken Token us} (h : negatedNumber? op us = some t) : t.Lies P fun n => P n.span := by
  cases us with
  | nil => cases h
  | cons u us =>
    rw [List.forall_mem_cons] at hus
    rw [negatedNumber?] at h
    split_ifs at h
    cases h
    exact hus

mutual

theorem placed_expression (hP : Places P finish) (least : Nat) (us : List Token)
    (hus : ∀ u ∈ us, P u.span) :
    Placed P (Taken.Lies P fun e => P e.span) (expression ctx finish least us) := by
  rw [expression]
  refine (placed_unary hP us hus).bind ?_
  rintro ⟨left, rest, hshort⟩ ⟨hleft, hrest⟩
  exact (placed_climb hP least hleft rest hrest).bind fun _ h => h
termination_by (us.length, 3)

theorem placed_climb (hP : Places P finish) (least : Nat) {left : Expr} (hleft : P left.span) :
    (us : List Token) → (∀ u ∈ us, P u.span) →
    Placed P (Kept.Lies P fun e => P e.span) (climb ctx finish least left us)
  | [], _ => by
    rw [climb]
    exact ⟨hleft, by simp⟩
  | u :: us, hus => by
    rw [climb]
    cases binary? u with
    | none => exact ⟨hleft, hus⟩
    | some op =>
      dsimp only
      split_ifs
      · exact ⟨hleft, hus⟩
      · rw [List.forall_mem_cons] at hus
        refine (placed_expression hP (op.precedence + 1) us hus.2).bind ?_
        rintro ⟨right, rest, hshort⟩ ⟨hright, hrest⟩
        have hoperands : ∀ e ∈ [left, right], P e.span := by simpa using ⟨hleft, hright⟩
        refine (Context.placed_apply op (hP.merge hleft hright) hoperands).bind fun e he => ?_
        exact (placed_climb hP least he rest hrest).bind fun _ h => h
termination_by us => (us.length, 0)

theorem placed_unary (hP : Places P finish) : (us : List Token) → (∀ u ∈ us, P u.span) →
    Placed P (Taken.Lies P fun e => P e.span) (unary ctx finish us)
  | [], _ => by
    rw [unary]
    exact .located hP.finish
  | u :: us, hus => by
    rw [unary]
    cases unary? u with
    | none => exact placed_primary hP (u :: us) hus
    | some op =>
      rw [List.forall_mem_cons] at hus
      dsimp only
      split
      · rename_i n rest hshort hnumber
        obtain ⟨hn, hrest⟩ := lies_of_negatedNumber? hus.2 hnumber
        exact (Context.placed_number ("-" ++ n.text) (hP.merge hus.1 hn)).bind
          fun _ he => ⟨he, hrest⟩
      · refine (placed_expression hP op.operandPrecedence us hus.2).bind ?_
        rintro ⟨operand, rest, hshort⟩ ⟨hoperand, hrest⟩
        have hoperands : ∀ e ∈ [operand], P e.span := by simpa using hoperand
        exact (Context.placed_apply op (hP.merge hus.1 hoperand) hoperands).bind
          fun _ he => ⟨he, hrest⟩
termination_by us => (us.length, 2)

theorem placed_primary (hP : Places P finish) : (us : List Token) → (∀ u ∈ us, P u.span) →
    Placed P (Taken.Lies P fun e => P e.span) (primary ctx finish us)
  | [], _ => by
    rw [primary]
    exact .located hP.finish
  | u :: us, hus => by
    rw [List.forall_mem_cons] at hus
    rw [primary]
    cases u.kind with
    | number => exact (Context.placed_number u.text hus.1).bind fun _ he => ⟨he, hus.2⟩
    | string => exact hus
    | symbol =>
      dsimp only
      split_ifs
      · refine (placed_expression hP 0 us hus.2).bind ?_
        rintro ⟨⟨_, head, operands⟩, rest, hshort⟩ ⟨-, hrest⟩
        refine (placed_expectSymbol hP ')' .closeParen hrest).bind ?_
        rintro ⟨closing, rest', hshort'⟩ ⟨hclosing, hrest'⟩
        exact ⟨hP.merge hus.1 hclosing, hrest'⟩
      · exact .located hus.1
    | keyword =>
      dsimp only
      cases Operator.ofCall? u.text with
      | none => exact .located hus.1
      | some op =>
        refine (placed_arguments hP (takesNames op) us hus.2).bind ?_
        rintro ⟨⟨args, closing⟩, rest, hshort⟩ ⟨⟨hargs, hclosing⟩, hrest⟩
        exact (Context.placed_apply op (hP.merge hus.1 hclosing) hargs).bind
          fun _ he => ⟨he, hrest⟩
    | identifier =>
      dsimp only
      split_ifs
      · refine (placed_arguments hP false us hus.2).bind ?_
        rintro ⟨⟨args, closing⟩, rest, hshort⟩ ⟨⟨hargs, hclosing⟩, hrest⟩
        exact (Context.placed_action u.text (hP.merge hus.1 hclosing) hargs).bind
          fun _ he => ⟨he, hrest⟩
      · exact (Context.placed_signal u.text hus.1).bind fun _ he => ⟨he, hus.2⟩
termination_by us => (us.length, 1)

theorem placed_arguments (hP : Places P finish) (names : Bool) (us : List Token)
    (hus : ∀ u ∈ us, P u.span) :
    Placed P (Taken.Lies P (OperandsLie P)) (arguments ctx finish names us) := by
  rw [arguments]
  refine (placed_expectSymbol hP '(' .openParen hus).bind ?_
  rintro ⟨_, rest, hshort⟩ ⟨-, hrest⟩
  have hclose := placed_expectSymbol hP ')' .closeParen hrest
  dsimp only
  revert hclose
  cases expectSymbol ')' .closeParen finish rest with
  | ok closed => exact fun hclosed => ⟨⟨List.forall_mem_nil _, hclosed.1⟩, hclosed.2⟩
  | error _ => exact fun _ => (placed_items hP names rest hrest).bind fun _ h => h
termination_by (us.length, 0)

theorem placed_items (hP : Places P finish) (names : Bool) (us : List Token)
    (hus : ∀ u ∈ us, P u.span) :
    Placed P (Taken.Lies P (OperandsLie P)) (items ctx finish names us) := by
  have hname := placed_bareName hP hus
  have hexpression := placed_expression hP 0 us hus
  rw [items]
  split_ifs
  all_goals
    refine Placed.bind (by assumption) ?_
    rintro ⟨e, rest, hshort⟩ ⟨he, hrest⟩
    have hcomma := placed_expectSymbol hP ',' .commaOrClose hrest
    dsimp only
    revert hcomma
    cases expectSymbol ',' .commaOrClose finish rest with
    | ok taken =>
      obtain ⟨_, rest', hshort'⟩ := taken
      rintro ⟨-, hrest'⟩
      refine (placed_items hP _ rest' hrest').bind ?_
      rintro ⟨⟨es, closing⟩, rest'', hshort''⟩ ⟨⟨hes, hclosing⟩, hrest''⟩
      exact ⟨⟨List.forall_mem_cons.2 ⟨he, hes⟩, hclosing⟩, hrest''⟩
    | error _ =>
      intro _
      refine (placed_expectSymbol hP ')' .commaOrClose hrest).bind ?_
      rintro ⟨closing, rest', hshort'⟩ ⟨hclosing, hrest'⟩
      exact ⟨⟨List.forall_mem_singleton.2 he, hclosing⟩, hrest'⟩
termination_by (us.length, 4)

end

end Algebraic

end Readers

/-! ### Errors of reading a text -/

namespace Context

variable {ctx : Context}

/-- What is read from a text lies in it, and so does an error. -/
theorem placed_parse (source : List Char) :
    Placed (Span.Within source) (fun e => e.span.Within source) (ctx.parse source) := by
  have hP : Places (Span.Within source) (Text.byteLength source) :=
    ⟨.finish source, Span.Within.merge⟩
  refine ((Lexicon.ofGrammar ctx.grammar).placed_tokenize source).bind fun us hus => ?_
  have hexpression : Placed (Span.Within source)
      (Taken.Lies (Span.Within source) fun e => e.span.Within source)
      (ctx.expression (Text.byteLength source) us) := by
    unfold expression
    cases ctx.grammar with
    | polish => exact Polish.placed_expression hP us hus
    | algebraic => exact Algebraic.placed_expression hP 0 us hus
  unfold parseTokens
  split_ifs
  · exact .located (.whole source)
  · refine hexpression.bind ?_
    rintro ⟨e, rest, hshort⟩ ⟨he, hrest⟩
    cases rest with
    | cons u rest => exact .located (hrest u List.mem_cons_self)
    | nil =>
      dsimp only [notBare]
      split
      · exact .located he
      · exact he

end Context

/-! ### Errors of reading a source -/

/-- A refusal that comes from reading, at a place in the text if it has a place. -/
def SourceError.Lies (cs : List Char) : SourceError → Prop
  | parse e => ∀ s ∈ e.span, s.Within cs
  | role .. => False
  | precondition _ => True

/-- A refusal of a part of a text, seen from the whole. -/
theorem SourceError.Lies.shift {cs : List Char} {e : SourceError} (he : e.Lies cs)
    (before after : List Char) :
    (e.shift (Text.byteLength before)).Lies (before ++ cs ++ after) := by
  cases e with
  | parse e =>
    intro s hs
    obtain ⟨s', hs', rfl⟩ := Option.map_eq_some_iff.1 hs
    exact (he s' hs').shift before after
  | role => exact he.elim
  | precondition => trivial

namespace Dialect

variable {d : Dialect} {h : Host} {g : Grammar}

/-- An error in a macro lies in its body. -/
theorem lies_of_expandBody {before body after : List Char} {err : SourceError}
    (hbody : d.expandBody h g body (Text.byteLength before) = .error err) :
    err.Lies (before ++ body ++ after) := by
  have hplaced := (d.context h g).placed_parse body
  unfold expandBody at hbody
  split at hbody
  · rename_i e he
    rw [he] at hplaced
    cases hbody
    exact SourceError.Lies.shift (e := .parse e) hplaced.forall_span before after
  · rename_i e he
    rw [he] at hplaced
    have hspan := Span.Within.shift hplaced before after
    have hlocated (cause : Cause) :
        (SourceError.parse (.located cause (e.span.shift (Text.byteLength before)))).Lies
          (before ++ body ++ after) := by
      simpa [SourceError.Lies, ParseError.located] using hspan
    dsimp only at hbody
    split at hbody
    · split at hbody
      · cases hbody
      · cases hbody
        trivial
      · cases hbody
        exact hlocated _
    · split at hbody
      · cases hbody
      · cases hbody
        exact hlocated _
    · cases hbody
      exact hlocated _

/-- An error of expanding macros lies in the text that has them. -/
theorem lies_of_expandFrom (before : List Char) {cs : List Char} {err : SourceError}
    (hexpand : d.expandFrom h g (Text.byteLength before) cs = .error err) :
    err.Lies (before ++ cs) := by
  induction hn : cs.length using Nat.strongRecOn generalizing before cs with
  | ind n ih =>
    rw [expandFrom_eq] at hexpand
    split at hexpand
    · cases hexpand
    · rename_i front after hopen
      have hcs := Text.eq_append_of_cutAt? hopen
      split at hexpand
      · cases hexpand
        have hwithin := Span.Within.of_append (before ++ front) (macroOpen ++ after) []
        simpa [SourceError.Lies, ParseError.located, hcs, Nat.add_assoc] using hwithin
      · rename_i body rest hclose
        have hafter := Text.eq_append_of_cutAt? hclose
        subst hafter
        -- The error stems from the body of the first macro or from what stands behind the macro.
        have hsource : before ++ cs =
            (before ++ front ++ macroOpen) ++ body ++ (macroClose ++ rest) := by
          simp [hcs]
        have hlength : Text.byteLength (before ++ front ++ macroOpen) =
            Text.byteLength before + Text.byteLength front + Text.byteLength macroOpen := by
          rw [Text.byteLength_append, Text.byteLength_append]
        dsimp only at hexpand
        rw [← hlength] at hexpand
        cases hbody : d.expandBody h g body (Text.byteLength (before ++ front ++ macroOpen)) with
        | error e =>
          simp only [hbody, error_bind, Except.error.injEq] at hexpand
          subst hexpand
          rw [hsource]
          exact lies_of_expandBody hbody
        | ok text =>
          rw [hbody, ok_bind, ← Text.byteLength_append, ← Text.byteLength_append] at hexpand
          cases hrest : d.expandFrom h g (Text.byteLength
              ((before ++ front ++ macroOpen) ++ body ++ macroClose)) rest with
          | ok tail =>
            rw [hrest] at hexpand
            cases hexpand
          | error e =>
            simp only [hrest, error_bind, Except.error.injEq] at hexpand
            subst hexpand
            have hshort : rest.length < n := by
              have hopenLength : macroOpen.length = 2 := rfl
              simp only [← hn, hcs, List.length_append]
              omega
            have hlies := ih rest.length hshort _ hrest rfl
            rwa [List.append_assoc _ macroClose, ← hsource] at hlies

/-- A text without macros is not changed by expanding them. -/
theorem text_of_expand {cs : List Char} {expansion : Expansion}
    (hexpand : d.expand h g cs = .ok expansion) (hnone : expansion.hadMacros = false) :
    expansion.text = cs := by
  rw [expand, expandFrom_eq] at hexpand
  obtain ⟨text, htext, hexpansion⟩ := bind_eq_ok_iff.1 hexpand
  cases hexpansion
  cases hopen : Text.cutAt? macroOpen cs with
  | none =>
    rw [hopen] at htext
    exact (Except.ok.inj htext).symm
  | some parts => simp [hopen] at hnone

/-- An error of expanding a text lies in the text. -/
theorem lies_of_expanded {body : List Char} {err : SourceError}
    (hexpanded : d.expanded h g 0 body = .error err) : err.Lies body := by
  unfold expanded at hexpanded
  split_ifs at hexpanded
  cases hfrom : d.expandFrom h g 0 body with
  | ok text => simp [expand, hfrom, pure, Except.pure, Except.mapError] at hexpanded
  | error e =>
    simp only [expand, hfrom, error_bind, Except.mapError, SourceError.shift_zero,
      Except.error.injEq] at hexpanded
    subst hexpanded
    exact lies_of_expandFrom [] hfrom

/-- A text without macros is expanded to itself. -/
theorem text_of_expanded {body : List Char} {expansion : Expansion}
    (hexpanded : d.expanded h g 0 body = .ok expansion) (hmacros : expansion.hadMacros = false) :
    expansion.text = body := by
  unfold expanded at hexpanded
  split_ifs at hexpanded
  · cases hexpand : d.expand h g body with
    | ok expansion' =>
      rw [hexpand] at hexpanded
      cases hexpanded
      exact text_of_expand hexpand hmacros
    | error e =>
      rw [hexpand] at hexpanded
      cases hexpanded
  · cases hexpanded
    rfl

/-- An error of reading an expanded text has no place, or it lies in the text before. -/
theorem lies_of_parsed {body : List Char} {expansion : Expansion} {err : SourceError}
    (htext : expansion.hadMacros = false → expansion.text = body)
    (hparsed : d.parsed h g 0 expansion = .error err) : err.Lies body := by
  have hplaced := (d.context h g).placed_parse expansion.text
  unfold parsed at hparsed
  cases he : (d.context h g).parse expansion.text with
  | ok e =>
    rw [he] at hparsed
    cases hparsed
  | error e =>
    rw [he] at hparsed hplaced
    cases hparsed
    cases hmacros : expansion.hadMacros with
    | true => simp [SourceError.Lies]
    | false =>
      rw [htext hmacros] at hplaced
      simp only [Bool.false_eq_true, if_false, ParseError.shift_zero]
      exact hplaced.forall_span

/-- An error of reading a text lies in the text. -/
theorem lies_of_readBody {body : List Char} {err : SourceError}
    (hread : d.readBody h g 0 body = .error err) : err.Lies body := by
  rw [readBody_eq_bind] at hread
  cases hexpanded : d.expanded h g 0 body with
  | error e =>
    rw [hexpanded] at hread
    cases hread
    exact lies_of_expanded hexpanded
  | ok expansion =>
    rw [hexpanded] at hread
    exact lies_of_parsed (text_of_expanded hexpanded) hread

/-- A source with a marker is the marker and what is read. -/
theorem eq_append_of_stripMarker? {source rest : List Char}
    (hmarker : Grammar.stripMarker? source = some (g, rest)) :
    source = g.marker.toList ++ rest := by
  obtain ⟨g', -, hfound⟩ := List.exists_of_findSome?_eq_some hmarker
  obtain ⟨rest', hbehind, heq⟩ := Option.map_eq_some_iff.1 hfound
  cases heq
  refine Text.eq_append_of_stripStart? ?_
  unfold Grammar.behindMarker? at hbehind
  split at hbehind
  · cases hbehind
  · rename_i hstrip
    rwa [← hbehind]
  · rename_i hstrip
    split_ifs at hbehind
    rwa [← hbehind]

/-- An error of reading a source lies in the source. -/
theorem lies_of_readIn {source : List Char} {err : SourceError}
    (hread : d.readIn h g source = .error err) : err.Lies source := by
  unfold readIn at hread
  split at hread
  · rename_i forced rest hmarker
    have hsource := eq_append_of_stripMarker? hmarker
    rw [hsource, Text.byteLength_append, Nat.add_sub_cancel, readBody_eq] at hread
    cases hbody : d.readBody h forced 0 rest with
    | ok script => simp [hbody, Except.mapError] at hread
    | error e =>
      simp only [hbody, Except.mapError, Except.error.injEq] at hread
      subst hread
      have hlies := (lies_of_readBody hbody).shift forced.marker.toList []
      rwa [List.append_nil, ← hsource] at hlies
  · exact lies_of_readBody hread

/-- The place of an error lies in the source: its ends are in order, not behind the end of the
source, and boundaries between characters. -/
theorem isValid_span_of_readIn {source : List Char} {err : SourceError} {span : Span}
    (hread : d.readIn h g source = .error err) (hspan : err.span? = some span) :
    span.start ≤ span.stop ∧ span.stop ≤ Text.byteLength source ∧
      (⟨span.start⟩ : String.Pos.Raw).IsValid (String.ofList source) ∧
      (⟨span.stop⟩ : String.Pos.Raw).IsValid (String.ofList source) := by
  have hlies := lies_of_readIn hread
  cases err with
  | parse e =>
    have hwithin := hlies span hspan
    exact ⟨hwithin.start_le_stop, hwithin.stop.le_byteLength, hwithin.start.isValid,
      hwithin.stop.isValid⟩
  | role => exact hlies.elim
  | precondition => cases hspan

/-- An error in a macro behind a marker and a text of characters of several bytes. -/
theorem isValid_span_of_readIn_macro :
    ∃ err, (default : Dialect).readIn .empty .polish "#!infix 'äß€' == \x7b% 1 + 'é' %\x7d".toList =
        .error err ∧ err.span? = some ⟨28, 32⟩ ∧
      (⟨28⟩ : String.Pos.Raw).IsValid "#!infix 'äß€' == \x7b% 1 + 'é' %\x7d" ∧
      (⟨32⟩ : String.Pos.Raw).IsValid "#!infix 'äß€' == \x7b% 1 + 'é' %\x7d" := by
  have hread : (default : Dialect).readIn .empty .polish
      "#!infix 'äß€' == \x7b% 1 + 'é' %\x7d".toList =
        .error (.parse (.located (.numberExpected "+" (.value .string)) ⟨28, 32⟩)) := by
    cbv
  obtain ⟨-, -, hstart, hstop⟩ := isValid_span_of_readIn hread rfl
  rw [String.ofList_toList] at hstart hstop
  exact ⟨_, hread, rfl, hstart, hstop⟩

end Dialect

end SignalRules
