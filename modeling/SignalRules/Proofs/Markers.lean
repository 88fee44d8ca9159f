import SignalRules.Proofs.Verbatim

/-!
# Sources behind a marker

A source that starts with the marker of a grammar is read as the text behind the marker is read in
a dialect of that grammar. What cannot be read is refused for the same cause, and its place lies
further to the right by the length of the marker. A source that can be read and does not fit its
role is the exception: the place of that refusal is taken from the expression, whose spans count
from the end of the marker, and it is not moved.

## Main definitions

* `SourceError.moved`: a refusal with its place moved, whatever it is about.

## Main results

* `Dialect.readFor_marker`: how a source behind a marker is read.
* `Dialect.readFor_marker_moved_iff`: when the place of a refusal is moved with the text.
-/

namespace SignalRules

@[simp] theorem ParseError.shift_zero (e : ParseError) : e.shift 0 = e := by
  obtain ⟨cause, span⟩ := e
  cases span <;> rfl

@[simp] theorem SourceError.shift_zero (e : SourceError) : e.shift 0 = e := by
  cases e <;> simp [shift]

/-- The refusal with its place moved to the right, whatever it is about. -/
def SourceError.moved (e : SourceError) (delta : Nat) : SourceError :=
  match e with
  | role id span => role id (span.shift delta)
  | other => other.shift delta

/-- Two ways to move a refusal agree unless it is about a role. -/
theorem SourceError.shift_eq_moved_iff {e : SourceError} {delta : Nat} (hdelta : 0 < delta) :
    e.shift delta = e.moved delta ↔ ∀ id span, e ≠ .role id span := by
  cases e with
  | role id span =>
    have hne : span.start ≠ span.start + delta := by omega
    refine iff_of_false (fun heq => ?_) fun h => h id span rfl
    simp only [shift, moved, role.injEq, true_and] at heq
    exact hne (congrArg Span.start heq)
  | parse | precondition => simp [moved]

/-! ### Recognising a marker -/

namespace Grammar

variable {g : Grammar} {body : List Char}

/-- A marker is recognised in front of white space and at the end of a source. -/
theorem stripMarker?_marker (hbody : ∀ c ∈ body.head?, Text.isWhite c) :
    stripMarker? (g.marker.toList ++ body) = some (g, body) := by
  have hbehind : g.behindMarker? (g.marker.toList ++ body) = some body := by
    rw [behindMarker?, Lexicon.stripStart?_append]
    cases body with
    | nil => rfl
    | cons c rest => simp [hbody c rfl]
  cases g with
  | polish => simp [stripMarker?, all, hbehind]
  | algebraic =>
    have hother : polish.behindMarker? (algebraic.marker.toList ++ body) = none := rfl
    simp [stripMarker?, all, hother, hbehind]

/-- White space is no marker. -/
theorem stripMarker?_of_white (hbody : ∀ c ∈ body.head?, Text.isWhite c) :
    stripMarker? body = none := by
  refine stripMarker?_eq_none fun hhead => ?_
  exact absurd (hbody '#' hhead) (by decide)

theorem byteLength_marker_pos (g : Grammar) : 0 < Text.byteLength g.marker.toList := by
  cases g <;> decide

end Grammar

/-! ### Reading behind a marker -/

namespace Dialect

/-- The dialect in which sources without a marker are read in the grammar `g`. -/
def withGrammar (d : Dialect) (g : Grammar) : Dialect := { d with grammar := g }

variable {d : Dialect} {h : Host} {g : Grammar} {body : List Char}

/-- Macros are expanded one by one from the left. -/
theorem expandFrom_eq (d : Dialect) (h : Host) (g : Grammar) (start : Nat) (cs : List Char) :
    d.expandFrom h g start cs =
      match Text.cutAt? macroOpen cs with
      | none => .ok cs
      | some (before, after) =>
        match Text.cutAt? macroClose after with
        | none => .error (.parse (.located .unterminatedMacro
            ⟨start + Text.byteLength before, start + Text.byteLength cs⟩))
        | some (body, rest) =>
          let bodyStart := start + Text.byteLength before + Text.byteLength macroOpen
          d.expandBody h g body bodyStart >>= fun replacement =>
            d.expandFrom h g
                (bodyStart + Text.byteLength body + Text.byteLength macroClose) rest >>= fun tail =>
              .ok (before ++ replacement ++ tail) := by
  rw [expandFrom]
  split
  · rename_i hopen
    rw [hopen]
  · rename_i before after hopen
    rw [hopen]
    dsimp only
    split
    · rename_i hclose
      rw [hclose]
    · rename_i body rest hclose
      rw [hclose]
      dsimp only
      cases d.expandBody h g body _ with
      | error e => rfl
      | ok replacement => cases d.expandFrom h g _ rest <;> rfl

/-- Macros do not depend on the grammar of sources without a marker. -/
theorem expandFrom_withGrammar (d : Dialect) (h : Host) (g g' : Grammar) (start : Nat)
    (cs : List Char) :
    (d.withGrammar g').expandFrom h g start cs = d.expandFrom h g start cs := by
  have hbody (body : List Char) (bodyStart : Nat) :
      (d.withGrammar g').expandBody h g body bodyStart = d.expandBody h g body bodyStart :=
    rfl
  fun_induction expandFrom d h g start cs with
  | case1 start cs hopen => rw [expandFrom_eq, hopen]
  | case2 start cs before after hopen opening hclose =>
    simp only [expandFrom_eq, hopen, hclose, opening]
  | case3 start cs before after hopen opening body rest hclose bodyStart e he =>
    simp only [bodyStart, opening] at he
    rw [expandFrom_eq]
    simp only [hopen, hclose, hbody, he, error_bind]
  | case4 start cs before after hopen opening body rest hclose bodyStart text htext restStart e he
      ih =>
    simp only [restStart, bodyStart, opening] at htext he ih
    rw [expandFrom_eq]
    simp only [hopen, hclose, hbody, htext, ih, he, ok_bind, error_bind]
  | case5 start cs before after hopen opening body rest hclose bodyStart text htext restStart tail
      htail ih =>
    simp only [restStart, bodyStart, opening] at htext htail ih
    rw [expandFrom_eq]
    simp only [hopen, hclose, hbody, htext, ih, htail, ok_bind]

/-- What is read in a grammar does not depend on the grammar of sources without a marker. -/
theorem readBody_withGrammar (d : Dialect) (h : Host) (g g' : Grammar) (start : Nat)
    (body : List Char) :
    (d.withGrammar g').readBody h g start body = d.readBody h g start body := by
  rw [readBody, readBody, expand, expand, expandFrom_withGrammar]
  rfl

theorem expanded_eq (d : Dialect) (h : Host) (g : Grammar) (start : Nat) (body : List Char) :
    d.expanded h g start body = (d.expanded h g 0 body).mapError (SourceError.shift · start) := by
  unfold expanded
  split_ifs
  · cases d.expand h g body <;> simp [Except.mapError]
  · rfl

theorem parsed_eq (d : Dialect) (h : Host) (g : Grammar) (start : Nat) (expansion : Expansion) :
    d.parsed h g start expansion =
      (d.parsed h g 0 expansion).mapError (SourceError.shift · start) := by
  unfold parsed
  cases (d.context h g).parse expansion.text with
  | ok e => rfl
  | error e =>
    cases expansion.hadMacros <;> simp [Except.mapError, SourceError.shift, ParseError.shift]

/-- Where a text starts in a larger source only moves the places of what is refused. -/
theorem readBody_eq (d : Dialect) (h : Host) (g : Grammar) (start : Nat) (body : List Char) :
    d.readBody h g start body = (d.readBody h g 0 body).mapError (SourceError.shift · start) := by
  rw [readBody_eq_bind, readBody_eq_bind, expanded_eq]
  cases d.expanded h g 0 body with
  | error e => rfl
  | ok expansion => exact parsed_eq d h g start expansion

/-- A source behind a marker is read as the text behind the marker in the grammar that it names. -/
theorem readIn_marker (hbody : ∀ c ∈ body.head?, Text.isWhite c) (g' : Grammar) :
    d.readIn h g' (g.marker.toList ++ body) =
      (d.readIn h g body).mapError (SourceError.shift · (Text.byteLength g.marker.toList)) := by
  rw [readIn, Grammar.stripMarker?_marker hbody, readIn, Grammar.stripMarker?_of_white hbody]
  simp only [Text.byteLength_append, Nat.add_sub_cancel]
  exact readBody_eq d h g _ body

/-- In a role too, a source behind a marker is read as the text behind it is read in a dialect of
the grammar that the marker names. The places of refusals that come from reading are moved. -/
theorem readFor_marker (hbody : ∀ c ∈ body.head?, Text.isWhite c) {purpose : Purpose}
    (hpurpose : ∀ g', purpose ≠ .any (some g')) :
    d.readFor h purpose (g.marker.toList ++ body) =
      ((d.withGrammar g).readFor h purpose body).mapError
        (SourceError.shift · (Text.byteLength g.marker.toList)) := by
  have hread : d.read h (g.marker.toList ++ body) =
      ((d.withGrammar g).read h body).mapError
        (SourceError.shift · (Text.byteLength g.marker.toList)) := by
    have hsame : (d.withGrammar g).read h body = d.readIn h g body := by
      rw [read, readIn, readIn, Grammar.stripMarker?_of_white hbody]
      exact readBody_withGrammar d h g g 0 body
    rw [hsame, read, readIn_marker hbody]
  cases purpose with
  | any grammar =>
    cases grammar with
    | none => exact hread
    | some g' => exact absurd rfl (hpurpose g')
  | condition =>
    rw [readFor, readFor, readCondition, readCondition, hread]
    cases (d.withGrammar g).read h body with
    | error e => rfl
    | ok script => simp only [Except.mapError, ok_bind]; split_ifs <;> rfl
  | action =>
    rw [readFor, readFor, readAction, readAction, hread]
    cases (d.withGrammar g).read h body with
    | error e => rfl
    | ok script => simp only [Except.mapError, ok_bind]; split_ifs <;> rfl

/-- Behind a marker, a source is read as the same expression or refused for the same reason; the
place of the refusal is moved by the length of the marker exactly if it is not about the role of
the expression. -/
theorem readFor_marker_moved_iff (hbody : ∀ c ∈ body.head?, Text.isWhite c) {purpose : Purpose}
    (hpurpose : ∀ g', purpose ≠ .any (some g')) :
    d.readFor h purpose (g.marker.toList ++ body) =
      ((d.withGrammar g).readFor h purpose body).mapError
        (SourceError.shift · (Text.byteLength g.marker.toList)) ∧
    (d.readFor h purpose (g.marker.toList ++ body) =
      ((d.withGrammar g).readFor h purpose body).mapError
        (SourceError.moved · (Text.byteLength g.marker.toList)) ↔
      ∀ id span, (d.withGrammar g).readFor h purpose body ≠ .error (.role id span)) := by
  have hmarker := readFor_marker (d := d) (h := h) (g := g) hbody hpurpose
  refine ⟨hmarker, ?_⟩
  rw [hmarker]
  cases (d.withGrammar g).readFor h purpose body with
  | ok script => simp [Except.mapError]
  | error e =>
    have hmoved := SourceError.shift_eq_moved_iff (e := e) g.byteLength_marker_pos
    simpa [Except.mapError] using hmoved

theorem readFor_marker_moved_polish :
    (∀ c ∈ " (gt (sig Door) 1)".toList.head?, Text.isWhite c) ∧
      (∀ g', Purpose.condition ≠ .any (some g')) ∧
      (default : Dialect).readFor .empty .condition
          (Grammar.polish.marker.toList ++ " (gt (sig Door) 1)".toList) =
        .error (.parse (.located (.unresolved (.unknownSignal "Door")) ⟨13, 23⟩)) := by
  have hwhite : ∀ c ∈ " (gt (sig Door) 1)".toList.head?, Text.isWhite c := by
    simp [Text.isWhite, Text.whiteRanges]
  have hpurpose : ∀ g', Purpose.condition ≠ .any (some g') := by simp
  have hbody : ((default : Dialect).withGrammar .polish).readFor .empty .condition
      " (gt (sig Door) 1)".toList =
        .error (.parse (.located (.unresolved (.unknownSignal "Door")) ⟨5, 15⟩)) := by
    cbv
  have hrole : ∀ id span, ((default : Dialect).withGrammar .polish).readFor .empty .condition
      " (gt (sig Door) 1)".toList ≠ .error (.role id span) := by
    rw [hbody]
    simp
  refine ⟨hwhite, hpurpose, ?_⟩
  rw [(readFor_marker_moved_iff hwhite hpurpose).2.2 hrole, hbody]
  cbv

/-- The place of a refusal about a role is not moved, so it covers other text than it is about. -/
theorem readCondition_marker_not_moved :
    (default : Dialect).readFor .empty .condition
        (Grammar.algebraic.marker.toList ++ " 1 + 2".toList) =
          .error (.role .conditionNotBoolean ⟨1, 6⟩) ∧
      (((default : Dialect).withGrammar .algebraic).readFor .empty .condition
        " 1 + 2".toList).mapError
          (SourceError.moved · (Text.byteLength Grammar.algebraic.marker.toList)) =
            .error (.role .conditionNotBoolean ⟨8, 13⟩) := by
  constructor
  · cbv
  · cbv

end Dialect

end SignalRules
