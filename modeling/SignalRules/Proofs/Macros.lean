import SignalRules.Proofs.ErrorPlaces

/-!
# Expanding macros

A source is cut at the first mark that opens a macro, then at the first mark behind it that closes
one, and so on with the rest, until no macro is opened any more or the last one is not closed. What
the parts between the macros and the bodies of the macros may contain determines the cut, so it can
be described without the cutting: no macro is opened in a part between macros, and none is closed in
a body.

Every macro is replaced by itself, in the grammar of the source, and the texts that replace them are
put between the parts as they are. The first macro from the left that cannot be replaced decides how
the source is refused.

## Main definitions

* `Dialect.Inset`, `Dialect.Cut`: a closed macro with the text before it, and a source cut into such
  parts.
* `Dialect.Expands`, `Dialect.Declines`: the text that replaces a macro, and a guard that fails.
* `Dialect.Refuses`: how a macro that cannot be replaced is refused.

## Main results

* `Text.cutAt?_eq_none_iff`, `Text.cutAt?_mark`: where a text is cut.
* `Dialect.exists_cut`: every source can be cut.
* `Dialect.expandFrom_insets`, `Dialect.expandFrom_refused`: what a run of macros is expanded to.
* `Dialect.expand_cut`: what a source is expanded to, or how it is refused.
-/

namespace SignalRules

/-! ### Cutting at a mark -/

namespace Text

variable {mark cs before after : List Char}

theorem stripStart?_eq_none_iff : stripStart? mark cs = none ↔ ¬ mark <+: cs := by
  rw [Option.eq_none_iff_forall_not_mem, List.IsPrefix, not_exists]
  refine forall_congr' fun rest => not_congr ?_
  constructor
  · intro h
    exact (eq_append_of_stripStart? h).symm
  · rintro rfl
    exact Lexicon.stripStart?_append mark rest

/-- A text is cut at a mark unless the mark does not stand in it. -/
theorem cutAt?_eq_none_iff : cutAt? mark cs = none ↔ ¬ mark <:+: cs := by
  induction cs with
  | nil =>
    rw [cutAt?, Option.map_eq_none_iff, stripStart?_eq_none_iff, List.prefix_nil, List.infix_nil]
  | cons c cs ih =>
    rw [cutAt?, List.infix_cons_iff, not_or, ← ih, ← stripStart?_eq_none_iff]
    cases stripStart? mark (c :: cs) with
    | some rest => simp
    | none => simp

/-- The mark does not stand before the place of the cut. -/
theorem not_infix_of_cutAt? (hmark : mark ≠ []) (h : cutAt? mark cs = some (before, after)) :
    ¬ mark <:+: before := by
  have hnil : ¬ mark <:+: [] := by rwa [List.infix_nil]
  induction cs generalizing before with
  | nil =>
    obtain ⟨rest, -, hparts⟩ := Option.map_eq_some_iff.1 h
    cases hparts
    exact hnil
  | cons c cs ih =>
    rw [cutAt?] at h
    cases hstrip : stripStart? mark (c :: cs) with
    | some rest =>
      rw [hstrip] at h
      cases h
      exact hnil
    | none =>
      rw [hstrip] at h
      obtain ⟨⟨before', after'⟩, hcut, hparts⟩ := Option.map_eq_some_iff.1 h
      cases hparts
      have hprefix : c :: before' <+: c :: cs := by
        rw [eq_append_of_cutAt? hcut, List.append_assoc, ← List.cons_append]
        exact List.prefix_append _ _
      rw [List.infix_cons_iff, not_or]
      exact ⟨fun hpre => stripStart?_eq_none_iff.1 hstrip (hpre.trans hprefix), ih hcut⟩

/-- A text is cut at the first place of a mark of two different characters. A mark cannot begin in
the text before it, because its characters differ. -/
theorem cutAt?_mark {a b : Char} (hab : a ≠ b) (hbefore : ¬ [a, b] <:+: before)
    (after : List Char) : cutAt? [a, b] (before ++ [a, b] ++ after) = some (before, after) := by
  induction before with
  | nil => simp [cutAt?, stripStart?]
  | cons c before ih =>
    rw [List.infix_cons_iff, not_or] at hbefore
    have hstrip : stripStart? [a, b] (c :: (before ++ [a, b] ++ after)) = none := by
      rw [stripStart?_eq_none_iff, List.cons_prefix_cons]
      rintro ⟨rfl, hpre⟩
      cases before with
      | nil => exact hab (List.cons_prefix_cons.1 hpre).1.symm
      | cons d before =>
        obtain ⟨rfl, -⟩ := List.cons_prefix_cons.1 hpre
        exact hbefore.1 (List.prefix_append [a, b] before)
    rw [List.cons_append, List.cons_append, cutAt?, hstrip, ih hbefore.2]
    rfl

end Text

namespace Dialect

/-! ### Cutting a source -/

/-- A macro that is closed, with the text before it. -/
structure Inset where
  /-- The text before the macro. -/
  before : List Char
  /-- The body of the macro. -/
  body : List Char
  /-- No macro is opened in the text before. -/
  before_plain : ¬ macroOpen <:+: before
  /-- No macro is closed in the body. -/
  body_plain : ¬ macroClose <:+: body

/-- The part of a source that an inset is. -/
def Inset.chars (m : Inset) : List Char := m.before ++ macroOpen ++ m.body ++ macroClose

/-- The part of a source that several insets are. -/
def Inset.charsAll (ms : List Inset) : List Char := ms.flatMap Inset.chars

/-- A source that is cut into insets and what follows them. -/
structure Cut where
  /-- The macros that are closed, each with the text before it. -/
  insets : List Inset
  /-- The text behind them, up to a macro that is not closed. -/
  rest : List Char
  /-- The body of a last macro that is not closed, if there is one. -/
  unclosed : Option (List Char)
  /-- No macro is opened in the text behind the closed ones. -/
  rest_plain : ¬ macroOpen <:+: rest
  /-- No macro is closed in the body of the last one. -/
  unclosed_plain : ∀ body ∈ unclosed, ¬ macroClose <:+: body

namespace Cut

/-- The part of a source that is not closed. -/
def ending (c : Cut) : List Char :=
  match c.unclosed with
  | none => []
  | some body => macroOpen ++ body

/-- The source that is cut. -/
def source (c : Cut) : List Char := Inset.charsAll c.insets ++ (c.rest ++ c.ending)

/-- The source with its macros replaced by texts. -/
def splice (c : Cut) (texts : List (List Char)) : List Char :=
  (c.insets.zipWith (fun m text => m.before ++ text) texts).flatten ++ c.rest

end Cut

theorem macroOpen_ne_nil : macroOpen ≠ [] := by decide

theorem macroClose_ne_nil : macroClose ≠ [] := by decide

/-- A source is cut at the first macro, if one is opened. -/
theorem cutAt?_macroOpen {before : List Char} (hbefore : ¬ macroOpen <:+: before)
    (after : List Char) :
    Text.cutAt? macroOpen (before ++ macroOpen ++ after) = some (before, after) :=
  Text.cutAt?_mark (by decide) hbefore after

/-- A macro ends where the first mark behind its opening closes it. -/
theorem cutAt?_macroClose {body : List Char} (hbody : ¬ macroClose <:+: body)
    (after : List Char) :
    Text.cutAt? macroClose (body ++ macroClose ++ after) = some (body, after) :=
  Text.cutAt?_mark (by decide) hbody after

/-- Every source can be cut. -/
theorem exists_cut (source : List Char) : ∃ c : Cut, c.source = source := by
  induction hn : source.length using Nat.strongRecOn generalizing source with
  | ind n ih =>
    cases hopen : Text.cutAt? macroOpen source with
    | none =>
      have hplain := Text.cutAt?_eq_none_iff.1 hopen
      exact ⟨⟨[], source, none, hplain, by simp⟩, by simp [Cut.source, Cut.ending, Inset.charsAll]⟩
    | some parts =>
      obtain ⟨before, after⟩ := parts
      have hsource := Text.eq_append_of_cutAt? hopen
      have hbefore := Text.not_infix_of_cutAt? macroOpen_ne_nil hopen
      cases hclose : Text.cutAt? macroClose after with
      | none =>
        have hplain := Text.cutAt?_eq_none_iff.1 hclose
        exact ⟨⟨[], before, some after, hbefore, by simpa using hplain⟩,
          by simp [Cut.source, Cut.ending, Inset.charsAll, hsource]⟩
      | some parts =>
        obtain ⟨body, rest⟩ := parts
        have hafter := Text.eq_append_of_cutAt? hclose
        have hbody := Text.not_infix_of_cutAt? macroClose_ne_nil hclose
        have hshort : rest.length < n := by
          have hopenLength : macroOpen.length = 2 := rfl
          simp only [← hn, hsource, hafter, List.length_append]
          omega
        obtain ⟨c, hc⟩ := ih rest.length hshort rest rfl
        exact ⟨{ c with insets := ⟨before, body, hbefore, hbody⟩ :: c.insets },
          by simp [Cut.source, Cut.ending, Inset.charsAll, Inset.chars, hsource, hafter, ← hc]⟩

/-! ### One macro -/

/-- The text that replaces the macro with the given body: nothing if the body is a condition that
holds, and the text of its value if it has one. -/
inductive Expands (d : Dialect) (h : Host) (g : Grammar) (body : List Char) : List Char → Prop
  | guard {e : Expr} (hparse : (d.context h g).parse body = .ok e) (htype : e.type = .boolean)
      (htest : e.test h = .ok true) : Expands d h g body []
  | value {e : Expr} {type : ValueType} {v : Value} (hparse : (d.context h g).parse body = .ok e)
      (htype : e.type = .value type) (hvalue : e.value h = .ok v) :
      Expands d h g body v.text.toList

/-- The body of a macro is a condition that does not hold. -/
def Declines (d : Dialect) (h : Host) (g : Grammar) (body : List Char) : Prop :=
  ∃ e, (d.context h g).parse body = .ok e ∧ e.type = .boolean ∧ e.test h = .ok false

/-- How a macro is refused: as a guard if it is one that fails, and otherwise by an error whose
place lies between the given ends. -/
def Refuses (d : Dialect) (h : Host) (g : Grammar) (body : List Char) (first last : Nat)
    (err : SourceError) : Prop :=
  (d.Declines h g body ∧ err = .precondition (String.ofList (Text.trim body))) ∨
    ¬ d.Declines h g body ∧ ∃ e span, err = .parse e ∧ e.span = some span ∧
      first ≤ span.start ∧ span.start ≤ span.stop ∧ span.stop ≤ last

variable {d : Dialect} {h : Host} {g : Grammar}

theorem Refuses.mono {body : List Char} {first last first' last' : Nat} {err : SourceError}
    (herr : d.Refuses h g body first last err) (hfirst : first' ≤ first) (hlast : last ≤ last') :
    d.Refuses h g body first' last' err := by
  rcases herr with hguard | ⟨hnot, e, span, rfl, hspan, hstart, horder, hstop⟩
  · exact .inl hguard
  · exact .inr ⟨hnot, e, span, rfl, hspan, hfirst.trans hstart, horder, hstop.trans hlast⟩

/-- A macro is replaced by the text that stands for it, wherever it stands. -/
theorem expandBody_eq_ok_iff {body text : List Char} {start : Nat} :
    d.expandBody h g body start = .ok text ↔ d.Expands h g body text := by
  unfold expandBody
  constructor
  · intro hbody
    split at hbody
    · cases hbody
    · rename_i e hparse
      dsimp only at hbody
      split at hbody
      · rename_i htype
        split at hbody
        · rename_i htest
          cases hbody
          exact .guard hparse htype htest
        · cases hbody
        · cases hbody
      · rename_i htype
        split at hbody
        · rename_i hvalue
          cases hbody
          exact .value hparse htype hvalue
        · cases hbody
      · cases hbody
  · rintro (⟨hparse, htype, htest⟩ | ⟨hparse, htype, hvalue⟩)
    · simp only [hparse, htype, htest]
    · simp only [hparse, htype, hvalue]

/-- A macro that nothing stands for is refused, at a place in its body unless it is a guard. -/
theorem refuses_of_expandBody {body : List Char} {start : Nat} {err : SourceError}
    (hbody : d.expandBody h g body start = .error err) :
    d.Refuses h g body start (start + Text.byteLength body) err := by
  have hplaced := (d.context h g).placed_parse body
  have hlies {span : Span} (hspan : span.Within body) :
      start ≤ (span.shift start).start ∧ (span.shift start).start ≤ (span.shift start).stop ∧
        (span.shift start).stop ≤ start + Text.byteLength body := by
    have horder := hspan.start_le_stop
    have hstop := hspan.stop.le_byteLength
    simp only [Span.shift]
    omega
  unfold expandBody at hbody
  cases hparse : (d.context h g).parse body with
  | error e =>
    simp only [hparse, Except.error.injEq] at hbody hplaced
    obtain ⟨span, hspan, hwithin⟩ := hplaced
    subst hbody
    refine .inr ⟨?_, _, span.shift start, rfl, by simp [ParseError.shift, hspan], hlies hwithin⟩
    rintro ⟨e', hparse', -⟩
    cases hparse.symm.trans hparse'
  | ok e =>
    simp only [hparse] at hbody hplaced
    -- Every error but that of a guard is placed at the expression in the body.
    have hlocated {cause : Cause} (hnot : ¬ (e.type = .boolean ∧ e.test h = .ok false))
        (herr : (.error (.parse (.located cause (e.span.shift start))) :
          Except SourceError (List Char)) = .error err) :
        d.Refuses h g body start (start + Text.byteLength body) err := by
      cases herr
      refine .inr ⟨?_, _, _, rfl, rfl, hlies hplaced⟩
      rintro ⟨e', hparse', hguard⟩
      cases hparse.symm.trans hparse'
      exact hnot hguard
    split at hbody
    · rename_i htype
      split at hbody
      · cases hbody
      · rename_i htest
        cases hbody
        exact .inl ⟨⟨e, hparse, htype, htest⟩, rfl⟩
      · rename_i htest
        exact hlocated (by simp [htest]) hbody
    · rename_i htype
      split at hbody
      · cases hbody
      · exact hlocated (by simp [htype]) hbody
    · rename_i hboolean hvalue
      exact hlocated (fun hguard => hboolean hguard.1) hbody

/-! ### The macros of a source -/

/-- The first macro is replaced, and then the rest of the source is expanded. -/
theorem expandFrom_inset (m : Inset) (start : Nat) (tail : List Char) :
    d.expandFrom h g start (m.chars ++ tail) =
      d.expandBody h g m.body (start + Text.byteLength (m.before ++ macroOpen)) >>= fun text =>
        d.expandFrom h g (start + Text.byteLength m.chars) tail >>= fun rest =>
          .ok (m.before ++ text ++ rest) := by
  have hopen : Text.cutAt? macroOpen (m.chars ++ tail) =
      some (m.before, m.body ++ macroClose ++ tail) := by
    rw [← cutAt?_macroOpen m.before_plain, Inset.chars]
    simp
  rw [expandFrom_eq, hopen]
  dsimp only
  rw [cutAt?_macroClose m.body_plain]
  simp only [Inset.chars, Text.byteLength_append, Nat.add_assoc]

/-- A text in which no macro is opened is left as it is. -/
theorem expandFrom_plain {text : List Char} (htext : ¬ macroOpen <:+: text) (start : Nat) :
    d.expandFrom h g start text = .ok text := by
  rw [expandFrom_eq, Text.cutAt?_eq_none_iff.2 htext]

/-- A macro that is not closed is refused from its opening to the end of the source. -/
theorem expandFrom_unclosed {before body : List Char} (hbefore : ¬ macroOpen <:+: before)
    (hbody : ¬ macroClose <:+: body) (start : Nat) :
    d.expandFrom h g start (before ++ macroOpen ++ body) =
      .error (.parse (.located .unterminatedMacro ⟨start + Text.byteLength before,
        start + Text.byteLength (before ++ macroOpen ++ body)⟩)) := by
  rw [expandFrom_eq, cutAt?_macroOpen hbefore]
  dsimp only
  rw [Text.cutAt?_eq_none_iff.2 hbody]

/-- Macros that can be replaced are, one after the other, and the texts that replace them are not
looked at again. -/
theorem expandFrom_insets {ms : List Inset} {texts : List (List Char)}
    (hms : List.Forall₂ (fun m text => d.Expands h g m.body text) ms texts) (start : Nat)
    (tail : List Char) :
    d.expandFrom h g start (Inset.charsAll ms ++ tail) =
      (d.expandFrom h g (start + Text.byteLength (Inset.charsAll ms)) tail).map fun rest =>
        (ms.zipWith (fun m text => m.before ++ text) texts).flatten ++ rest := by
  induction hms generalizing start with
  | nil =>
    simp only [Inset.charsAll, List.flatMap_nil, List.nil_append, Text.byteLength_nil, Nat.add_zero,
      List.zipWith_nil_left, List.flatten_nil]
    cases d.expandFrom h g start tail <;> rfl
  | @cons m text ms texts hm _ ih =>
    have hchars : Inset.charsAll (m :: ms) = m.chars ++ Inset.charsAll ms := rfl
    rw [hchars, List.append_assoc, expandFrom_inset, expandBody_eq_ok_iff.2 hm, ok_bind, ih,
      Text.byteLength_append, Nat.add_assoc]
    cases d.expandFrom h g _ tail with
    | error e => rfl
    | ok rest => simp [Except.map]

/-- The first macro that cannot be replaced decides how the source is refused. -/
theorem expandFrom_refused {before : List Inset} {texts : List (List Char)} {m : Inset}
    (hbefore : List.Forall₂ (fun m text => d.Expands h g m.body text) before texts)
    (hm : ∀ text, ¬ d.Expands h g m.body text) (start : Nat) (tail : List Char) :
    ∃ err, d.expandFrom h g start (Inset.charsAll before ++ (m.chars ++ tail)) = .error err ∧
      d.Refuses h g m.body (start + Text.byteLength (Inset.charsAll before ++ m.before))
        (start + Text.byteLength (Inset.charsAll before ++ m.chars)) err := by
  rw [expandFrom_insets hbefore, expandFrom_inset]
  cases hbody : d.expandBody h g m.body
      (start + Text.byteLength (Inset.charsAll before) +
        Text.byteLength (m.before ++ macroOpen)) with
  | ok text => exact absurd (expandBody_eq_ok_iff.1 hbody) (hm text)
  | error err =>
    refine ⟨err, rfl, (refuses_of_expandBody hbody).mono ?_ ?_⟩
    · simp only [Text.byteLength_append]
      omega
    · simp only [Inset.chars, Text.byteLength_append]
      omega

/-- Either all macros can be replaced, or there is a first one that cannot. -/
theorem forall₂_expands_or_first (d : Dialect) (h : Host) (g : Grammar) (ms : List Inset) :
    (∃ texts, List.Forall₂ (fun m text => d.Expands h g m.body text) ms texts) ∨
      ∃ before m after texts, ms = before ++ m :: after ∧
        List.Forall₂ (fun m text => d.Expands h g m.body text) before texts ∧
        ∀ text, ¬ d.Expands h g m.body text := by
  induction ms with
  | nil => exact .inl ⟨[], .nil⟩
  | cons m ms ih =>
    by_cases hm : ∃ text, d.Expands h g m.body text
    · obtain ⟨text, htext⟩ := hm
      rcases ih with ⟨texts, htexts⟩ | ⟨before, m', after, texts, rfl, htexts, hm'⟩
      · exact .inl ⟨text :: texts, .cons htext htexts⟩
      · exact .inr ⟨m :: before, m', after, text :: texts, rfl, .cons htext htexts, hm'⟩
    · exact .inr ⟨[], m, ms, [], rfl, .nil, not_exists.1 hm⟩

theorem exists_forall₂_expands {ms : List Inset}
    (hms : ∀ m ∈ ms, ∃ text, d.Expands h g m.body text) :
    ∃ texts, List.Forall₂ (fun m text => d.Expands h g m.body text) ms texts := by
  rcases d.forall₂_expands_or_first h g ms with htexts | ⟨before, m, after, _, rfl, -, hm⟩
  · exact htexts
  · obtain ⟨text, htext⟩ := hms m (by simp)
    exact absurd htext (hm text)

/-- A source whose macros are closed has some if it is not just a text. -/
theorem isSome_cutAt?_source {c : Cut} (hclosed : c.unclosed = none) :
    (Text.cutAt? macroOpen c.source).isSome = !c.insets.isEmpty := by
  cases hinsets : c.insets with
  | nil =>
    have hsource : c.source = c.rest := by simp [Cut.source, Cut.ending, Inset.charsAll, *]
    rw [hsource, Text.cutAt?_eq_none_iff.2 c.rest_plain]
    rfl
  | cons m ms =>
    have hopened : macroOpen <:+: c.source := by
      rw [Cut.source, hinsets]
      exact ⟨m.before, m.body ++ macroClose ++ (Inset.charsAll ms ++ (c.rest ++ c.ending)),
        by simp [Inset.charsAll, Inset.chars]⟩
    rw [List.isEmpty_cons, Bool.not_false, Option.isSome_iff_ne_none]
    exact fun hnone => Text.cutAt?_eq_none_iff.1 hnone hopened

theorem expand_eq_map (d : Dialect) (h : Host) (g : Grammar) (source : List Char) :
    d.expand h g source = (d.expandFrom h g 0 source).map fun text =>
      ⟨text, (Text.cutAt? macroOpen source).isSome⟩ := by
  unfold expand
  cases d.expandFrom h g 0 source <;> rfl

/-- If all macros are closed and can be replaced, they are. -/
theorem expand_of_closed {c : Cut} (hclosed : c.unclosed = none) {texts : List (List Char)}
    (htexts : List.Forall₂ (fun m text => d.Expands h g m.body text) c.insets texts) :
    d.expand h g c.source = .ok ⟨c.splice texts, !c.insets.isEmpty⟩ := by
  have hending : c.ending = [] := by rw [Cut.ending, hclosed]
  rw [expand_eq_map, isSome_cutAt?_source hclosed, Cut.source, hending, List.append_nil,
    expandFrom_insets htexts, expandFrom_plain c.rest_plain]
  rfl

/-- If all macros that are closed can be replaced, one that is not closed is refused. -/
theorem expand_of_unclosed {c : Cut} {body : List Char} (hunclosed : c.unclosed = some body)
    {texts : List (List Char)}
    (htexts : List.Forall₂ (fun m text => d.Expands h g m.body text) c.insets texts) :
    d.expand h g c.source = .error (.parse (.located .unterminatedMacro
      ⟨Text.byteLength (Inset.charsAll c.insets ++ c.rest), Text.byteLength c.source⟩)) := by
  have hbody := c.unclosed_plain body hunclosed
  have hending : c.rest ++ c.ending = c.rest ++ macroOpen ++ body := by
    rw [Cut.ending, hunclosed, List.append_assoc]
  rw [expand_eq_map, Cut.source, hending, expandFrom_insets htexts,
    expandFrom_unclosed c.rest_plain hbody]
  simp [Except.map]

/-- The first macro that cannot be replaced decides how a source is refused. -/
theorem expand_of_refused {c : Cut} {before after : List Inset} {m : Inset}
    (hinsets : c.insets = before ++ m :: after) {texts : List (List Char)}
    (hbefore : List.Forall₂ (fun m text => d.Expands h g m.body text) before texts)
    (hm : ∀ text, ¬ d.Expands h g m.body text) :
    ∃ err, d.expand h g c.source = .error err ∧
      d.Refuses h g m.body (Text.byteLength (Inset.charsAll before ++ m.before))
        (Text.byteLength (Inset.charsAll before ++ m.chars)) err := by
  have hsource : c.source = Inset.charsAll before ++
      (m.chars ++ (Inset.charsAll after ++ (c.rest ++ c.ending))) := by
    simp [Cut.source, hinsets, Inset.charsAll]
  obtain ⟨err, herr, hrefuses⟩ := expandFrom_refused hbefore hm 0
    (Inset.charsAll after ++ (c.rest ++ c.ending))
  rw [Nat.zero_add, Nat.zero_add] at hrefuses
  exact ⟨err, by rw [expand_eq_map, hsource, herr]; rfl, hrefuses⟩

/-- A source without macros is left as it is. Every other one can be cut into its macros and the
texts around them. If all macros are closed, the source is expanded exactly if every macro can be
replaced, to the texts around them and the texts that replace them. Otherwise the first macro that
cannot be replaced is refused, as a guard if it is one that fails and else at a place in it; or, if
there is none, the macro that is not closed is refused, from its opening to the end. -/
theorem expand_cut (d : Dialect) (h : Host) (g : Grammar) :
    (∀ source, ¬ macroOpen <:+: source → d.expand h g source = .ok ⟨source, false⟩) ∧
    (∀ source, ∃ c : Cut, c.source = source) ∧
    ∀ c : Cut,
      (∀ expansion, d.expand h g c.source = .ok expansion ↔ c.unclosed = none ∧
        ∃ texts, List.Forall₂ (fun m text => d.Expands h g m.body text) c.insets texts ∧
          expansion = ⟨c.splice texts, !c.insets.isEmpty⟩) ∧
      (∀ before m after, c.insets = before ++ m :: after →
        (∀ x ∈ before, ∃ text, d.Expands h g x.body text) →
        (∀ text, ¬ d.Expands h g m.body text) →
        ∃ err, d.expand h g c.source = .error err ∧
          d.Refuses h g m.body (Text.byteLength (Inset.charsAll before ++ m.before))
            (Text.byteLength (Inset.charsAll before ++ m.chars)) err) ∧
      ∀ body, c.unclosed = some body → (∀ m ∈ c.insets, ∃ text, d.Expands h g m.body text) →
        d.expand h g c.source = .error (.parse (.located .unterminatedMacro
          ⟨Text.byteLength (Inset.charsAll c.insets ++ c.rest), Text.byteLength c.source⟩)) := by
  refine ⟨fun source hsource => ?_, exists_cut, fun c => ⟨fun expansion => ⟨?_, ?_⟩, ?_, ?_⟩⟩
  · rw [expand_eq_map, expandFrom_plain hsource, Text.cutAt?_eq_none_iff.2 hsource]
    rfl
  · intro hexpand
    rcases d.forall₂_expands_or_first h g c.insets with
      ⟨texts, htexts⟩ | ⟨before, m, after, texts, hinsets, htexts, hm⟩
    · cases hunclosed : c.unclosed with
      | none =>
        rw [expand_of_closed hunclosed htexts] at hexpand
        cases hexpand
        exact ⟨rfl, texts, htexts, rfl⟩
      | some body =>
        rw [expand_of_unclosed hunclosed htexts] at hexpand
        cases hexpand
    · obtain ⟨err, herr, -⟩ := expand_of_refused hinsets htexts hm
      rw [herr] at hexpand
      cases hexpand
  · rintro ⟨hclosed, texts, htexts, rfl⟩
    exact expand_of_closed hclosed htexts
  · intro before m after hinsets hbefore hm
    obtain ⟨texts, htexts⟩ := exists_forall₂_expands hbefore
    exact expand_of_refused hinsets htexts hm
  · intro body hunclosed hinsets
    obtain ⟨texts, htexts⟩ := exists_forall₂_expands hinsets
    exact expand_of_unclosed hunclosed htexts

/-- A macro whose text opens a macro itself. -/
def openingInset : Inset := ⟨['a'], "'\x7b%'".toList, by decide, by decide⟩

/-- A source with that macro alone. -/
def openingCut : Cut := ⟨[openingInset], ['b'], none, by decide, by simp⟩

/-- A text that replaces a macro and opens one itself stays as it is. -/
theorem expand_cut_unscanned :
    ∃ c : Cut, c.source = "a\x7b%'\x7b%'%\x7db".toList ∧
      (default : Dialect).expand .empty .algebraic c.source = .ok ⟨"a\x7b%b".toList, true⟩ := by
  have hparse : (((default : Dialect).context .empty .algebraic).parse "'\x7b%'".toList).map
      (fun e => (e.type, e.value .empty)) = .ok (.value .string, .ok (.string "\x7b%")) := by
    cbv
  obtain ⟨e, hparse, hvalue⟩ := map_eq_ok_iff.1 hparse
  obtain ⟨htype, hvalue⟩ := Prod.mk.inj hvalue
  refine ⟨openingCut, by decide, ?_⟩
  exact (((expand_cut default .empty .algebraic).2.2 openingCut).1 _).2
    ⟨rfl, _, .cons (.value hparse htype hvalue) .nil, by decide⟩

end Dialect

end SignalRules
