import SignalRules.Dialect
import SignalRules.Proofs.Balanced

/-!
# Text that is read as it stands

A marker at the beginning of a source and macros inside it change how the source is read. Canonical
text has neither: no lexeme starts with the first character of a marker, and an opening brace stands
in text literals only, where a percent sign behind it is escaped.

## Main definitions

* `Text.IsVerbatim`: a text has no marker and no macros.
* `Dialect.expanded`, `Dialect.parsed`: the two steps in which the text behind a marker is read.

## Main results

* `Dialect.readIn_eq_ok_iff`: how a verbatim text is read.
* `Expr.isVerbatim_write`: canonical text is verbatim.
-/

namespace SignalRules

/-- A text without a marker and without macros. -/
structure Text.IsVerbatim (cs : List Char) : Prop where
  /-- No marker stands at the beginning. -/
  marker : Grammar.stripMarker? cs = none
  /-- No macro is opened. -/
  macros : cutAt? Dialect.macroOpen cs = none

namespace Dialect

variable {d : Dialect} {h : Host} {g : Grammar} {source : List Char}

/-- The text of a source after its macros were expanded, if they are. -/
def expanded (d : Dialect) (h : Host) (g : Grammar) (start : Nat) (body : List Char) :
    Except SourceError Expansion :=
  if d.macros then (d.expand h g body).mapError fun e => e.shift start else .ok ⟨body, false⟩

/-- What an expanded text is read as. Places in it are those of the source only if there were no
macros. -/
def parsed (d : Dialect) (h : Host) (g : Grammar) (start : Nat) (expansion : Expansion) :
    Except SourceError Script :=
  match (d.context h g).parse expansion.text with
  | .ok e => .ok ⟨e, g⟩
  | .error e => .error (.parse (if expansion.hadMacros then ⟨e.cause, none⟩ else e.shift start))

/-- A source is expanded, and then read. -/
theorem readBody_eq_bind (d : Dialect) (h : Host) (g : Grammar) (start : Nat)
    (body : List Char) :
    d.readBody h g start body = d.expanded h g start body >>= d.parsed h g start := by
  unfold readBody expanded
  split_ifs <;> rfl

theorem parsed_eq_ok_iff {start : Nat} {expansion : Expansion} {script : Script} :
    d.parsed h g start expansion = .ok script ↔
      script.grammar = g ∧ (d.context h g).parse expansion.text = .ok script.expr := by
  obtain ⟨e, g'⟩ := script
  unfold parsed
  cases (d.context h g).parse expansion.text with
  | ok e' => simp [and_comm, eq_comm]
  | error err => simp

theorem readBody_eq_ok_iff {start : Nat} {body : List Char} {script : Script} :
    d.readBody h g start body = .ok script ↔
      ∃ expansion, d.expanded h g start body = .ok expansion ∧ script.grammar = g ∧
        (d.context h g).parse expansion.text = .ok script.expr := by
  simp only [readBody_eq_bind, bind_eq_ok_iff, parsed_eq_ok_iff]

/-- Whatever is read was read from some text in the grammar that is told. -/
theorem exists_parse_of_readIn {script : Script} (hread : d.readIn h g source = .ok script) :
    ∃ text, (d.context h script.grammar).parse text = .ok script.expr := by
  unfold readIn at hread
  split at hread
  · obtain ⟨expansion, -, rfl, hparse⟩ := readBody_eq_ok_iff.1 hread
    exact ⟨expansion.text, hparse⟩
  · obtain ⟨expansion, -, rfl, hparse⟩ := readBody_eq_ok_iff.1 hread
    exact ⟨expansion.text, hparse⟩

theorem expanded_eq_ok {start : Nat} {body : List Char}
    (hbody : Text.cutAt? macroOpen body = none) :
    d.expanded h g start body = .ok ⟨body, false⟩ := by
  have hexpand : d.expand h g body = .ok ⟨body, false⟩ := by
    rw [expand, expandFrom]
    split
    · simp [hbody, pure, Except.pure]
    · rename_i hsome
      cases hbody.symm.trans hsome
  rw [expanded, hexpand]
  exact ite_self _

/-- A verbatim text is read as it stands. -/
theorem readIn_eq_ok_iff (hsource : Text.IsVerbatim source) {script : Script} :
    d.readIn h g source = .ok script ↔
      script.grammar = g ∧ (d.context h g).parse source = .ok script.expr := by
  rw [readIn, hsource.marker]
  dsimp only
  rw [readBody_eq_ok_iff, expanded_eq_ok hsource.macros]
  simp

end Dialect

/-! ### Markers -/

/-- Text that does not start like a marker has none. -/
theorem Grammar.stripMarker?_eq_none {cs : List Char} (h : cs.head? ≠ some '#') :
    stripMarker? cs = none := by
  have hstrip (g : Grammar) : Text.stripStart? g.marker.toList cs = none := by
    rw [Option.eq_none_iff_forall_not_mem]
    intro rest hrest
    rw [Text.eq_append_of_stripStart? hrest] at h
    cases g <;> exact h rfl
  simp [stripMarker?, all, behindMarker?, hstrip]

/-! ### Macros -/

namespace Text

/-- No macro is opened in a text if none is opened by its first two characters or later. -/
theorem cutAt?_cons {c : Char} {cs : List Char} (hfirst : c = '\x7b' → cs.head? ≠ some '%')
    (h : cutAt? Dialect.macroOpen cs = none) : cutAt? Dialect.macroOpen (c :: cs) = none := by
  have hstrip : stripStart? Dialect.macroOpen (c :: cs) = none := by
    rw [Option.eq_none_iff_forall_not_mem]
    intro rest hrest
    obtain ⟨rfl, hcs⟩ := List.cons.inj (eq_append_of_stripStart? hrest)
    exact hfirst rfl (by rw [hcs]; rfl)
  simp only [cutAt?, hstrip, h, Option.map_none]

/-- Text without opening braces does not open a macro. -/
theorem cutAt?_append {word cs : List Char} (hword : '\x7b' ∉ word)
    (h : cutAt? Dialect.macroOpen cs = none) : cutAt? Dialect.macroOpen (word ++ cs) = none := by
  induction word with
  | nil => exact h
  | cons c word ih =>
    rw [List.mem_cons, not_or] at hword
    exact cutAt?_cons (fun hc => absurd hc.symm hword.1) (ih hword.2)

/-- Behind an opening brace, the inside of a literal never goes on with a percent sign. -/
theorem head?_escape_ne (content rest : List Char) :
    (escape true content ++ '\'' :: rest).head? ≠ some '%' := by
  cases content with
  | nil => simp [escape]
  | cons c content =>
    rw [escape]
    split_ifs with hc
    · simp
    · rintro h
      obtain rfl : c = '%' := by simpa using h
      exact hc rfl

/-- The inside of a literal does not open a macro. -/
theorem cutAt?_escape (afterBrace : Bool) (content : List Char) {rest : List Char}
    (h : cutAt? Dialect.macroOpen rest = none) :
    cutAt? Dialect.macroOpen (escape afterBrace content ++ '\'' :: rest) = none := by
  induction content generalizing afterBrace with
  | nil => exact cutAt?_cons (fun hc => absurd hc (by decide)) h
  | cons c content ih =>
    have hrest : cutAt? Dialect.macroOpen
        (c :: (escape (c == '\x7b') content ++ '\'' :: rest)) = none := by
      refine cutAt?_cons ?_ (ih _)
      rintro rfl
      exact head?_escape_ne content rest
    rw [escape]
    split_ifs with hc
    · exact cutAt?_cons (fun hc => absurd hc (by decide)) hrest
    · exact hrest

/-- A text literal does not open a macro. -/
theorem cutAt?_quote (content : List Char) {rest : List Char}
    (h : cutAt? Dialect.macroOpen rest = none) :
    cutAt? Dialect.macroOpen (quote content ++ rest) = none := by
  have hinside := cutAt?_escape false content h
  rw [quote, List.cons_append, List.append_assoc]
  exact cutAt?_cons (fun hc => absurd hc (by decide)) hinside

end Text

/-- Balanced pieces do not open a macro, unless what follows does. -/
theorem Piece.Balanced.cutAt?_text {ps : List Piece} (h : Balanced ps) {cs : List Char}
    (hcs : Text.cutAt? Dialect.macroOpen cs = none) :
    Text.cutAt? Dialect.macroOpen (text ps ++ cs) = none := by
  induction h generalizing cs with
  | nil => exact hcs
  | @cons p ps hp _ ih =>
    have hrest := ih hcs
    rw [text_cons, List.append_assoc]
    cases p with
    | literal content => exact Text.cutAt?_quote content.toList hrest
    | mark c =>
      exact Text.cutAt?_cons (fun hc => absurd (hc ▸ hp) (by decide)) hrest
    | word s => exact Text.cutAt?_append (fun hmem => hp _ hmem (by decide)) hrest
    | blank => exact Text.cutAt?_cons (fun hc => absurd hc (by decide)) hrest
    | openGroup | closeGroup => exact hp.elim
  | @enclosed opening closing ps qs hopening hclosing _ _ ihps ihqs =>
    have hclose : Text.cutAt? Dialect.macroOpen (')' :: (text qs ++ cs)) = none :=
      Text.cutAt?_cons (fun hc => absurd hc (by decide)) (ihqs hcs)
    have hopen := Text.cutAt?_cons (fun hc => absurd hc (by decide : '(' ≠ '\x7b')) (ihps hclose)
    simpa [hopening, hclosing] using hopen

/-- Balanced pieces do not start with a marker. -/
theorem Piece.Balanced.head?_text {ps : List Piece} (h : Balanced ps) :
    (text ps).head? ≠ some '#' := by
  induction h with
  | nil => simp
  | @cons p ps hp _ ih =>
    rw [text_cons]
    cases p with
    | word s =>
      cases hs : s.toList with
      | nil => simpa [chars, hs] using ih
      | cons c cs =>
        rintro hc
        obtain rfl : c = '#' := by simpa [chars, hs] using hc
        exact hp '#' (by simp [hs]) (by decide)
    | mark c =>
      rintro hc
      obtain rfl : c = '#' := by simpa [chars] using hc
      exact hp (by decide)
    | blank => simp [chars]
    | literal content => simp [chars, Text.quote]
    | openGroup | closeGroup => exact hp.elim
  | enclosed hopening => simp [hopening]

/-- Canonical text is verbatim, in whichever grammar. -/
theorem Expr.isVerbatim_write {ctx : Context} {e : Expr} (hkeyed : ctx.host.Keyed)
    (h : e.Everywhere (Sound ctx)) (g : Grammar) : Text.IsVerbatim (e.write g).toList where
  marker := by
    rw [toList_write]
    exact Grammar.stripMarker?_eq_none (balanced_pieces hkeyed h g).head?_text
  macros := by
    have hnil : Text.cutAt? Dialect.macroOpen [] = none := rfl
    have hcut := (balanced_pieces hkeyed h g).cutAt?_text hnil
    rwa [List.append_nil, ← toList_write] at hcut

end SignalRules
