import SignalRules.Expr.Describe
import SignalRules.Parser
import SignalRules.Punctuation
import SignalRules.SourceError

/-!
# Reading rule sources

A dialect says how sources are read: in which grammar if no marker tells otherwise, whether the
options of signals are enforced, and whether macros are expanded.

With macros, every stretch between `{%` and the next `%}` is read and evaluated before the source
itself. A macro that is a condition is a guard: if it holds, it vanishes, and if not, the source is
refused. A macro with a value is replaced by the text of the value. Text that comes from a macro
is not searched for macros.

## Main definitions

* `Dialect`, `Script`, `Purpose`.
* `Dialect.expand`: expand the macros of a source.
* `Dialect.readIn`, `Dialect.read`: read a source.
* `Dialect.readCondition`, `Dialect.readAction`: read a source for a role in a rule;
  `Dialect.readFor` for any purpose.
* `Dialect.canonicalize`: the text to store for a source.
-/

namespace SignalRules

/-- How sources are read. -/
structure Dialect where
  /-- The grammar of sources without a marker. -/
  grammar : Grammar := .algebraic
  /-- Whether literals must be among the options of the signal that they are compared with. -/
  strict : Bool := false
  /-- Whether macros are expanded. -/
  macros : Bool := true
deriving DecidableEq, Inhabited

/-- An expression together with the grammar that it was written in. -/
structure Script where
  /-- The expression. -/
  expr : Expr
  /-- The grammar. -/
  grammar : Grammar

/-- The canonical text in the grammar that the script was written in. -/
def Script.canonical (s : Script) : String := s.expr.write s.grammar

/-- What a source is read for. -/
inductive Purpose where
  /-- Any expression, in the default grammar unless another is given. -/
  | any (grammar : Option Grammar)
  /-- The condition of a rule. -/
  | condition
  /-- The action of a rule. -/
  | action
deriving DecidableEq, Inhabited

/-- A source after its macros were expanded. -/
structure Expansion where
  /-- The text. -/
  text : List Char
  /-- Whether there were macros, so that places in the text are not places in the source. -/
  hadMacros : Bool
deriving DecidableEq, Inhabited

namespace Dialect

/-- The context in which expressions are built. -/
def context (d : Dialect) (h : Host) (g : Grammar) : Context := ⟨h, d.strict, g⟩

/-! ### Macros -/

/-- The mark that opens a macro. -/
def macroOpen : List Char := Punctuation.macroOpen.spelling.toList

/-- The mark that closes a macro. -/
def macroClose : List Char := Punctuation.macroClose.spelling.toList

/-- The text that replaces the macro with the given body, which starts at the offset `start`. -/
def expandBody (d : Dialect) (h : Host) (g : Grammar) (body : List Char) (start : Nat) :
    Except SourceError (List Char) :=
  match (d.context h g).parse body with
  | .error e => .error (.parse (e.shift start))
  | .ok e =>
    let span := e.span.shift start
    let guard := String.ofList (Text.trim body)
    match e.type with
    | .boolean =>
      match e.test h with
      | .ok true => .ok []
      | .ok false => .error (.precondition guard)
      | .error fault => .error (.parse (.located (.macroFailed guard fault) span))
    | .value _ =>
      match e.value h with
      | .ok v => .ok v.text.toList
      | .error fault => .error (.parse (.located (.macroFailed guard fault) span))
    | found => .error (.parse (.located (.macroType found) span))

/-- Expand the macros of a text that starts at the offset `start`, from the left. -/
def expandFrom (d : Dialect) (h : Host) (g : Grammar) (start : Nat) (cs : List Char) :
    Except SourceError (List Char) :=
  match _h₁ : Text.cutAt? macroOpen cs with
  | none => .ok cs
  | some (before, after) =>
    let opening := start + Text.byteLength before
    match _h₂ : Text.cutAt? macroClose after with
    | none =>
      .error (.parse (.located .unterminatedMacro ⟨opening, start + Text.byteLength cs⟩))
    | some (body, rest) =>
      let bodyStart := opening + Text.byteLength macroOpen
      match d.expandBody h g body bodyStart with
      | .error e => .error e
      | .ok replacement =>
        let restStart := bodyStart + Text.byteLength body + Text.byteLength macroClose
        match expandFrom d h g restStart rest with
        | .error e => .error e
        | .ok tail => .ok (before ++ replacement ++ tail)
termination_by cs.length
decreasing_by
  have h₁ := Text.eq_append_of_cutAt? _h₁
  have h₂ := Text.eq_append_of_cutAt? _h₂
  have hopen : macroOpen.length = 2 := rfl
  subst h₁ h₂
  simp only [List.length_append]
  omega

/-- Expand the macros of a source. -/
def expand (d : Dialect) (h : Host) (g : Grammar) (source : List Char) :
    Except SourceError Expansion := do
  let text ← d.expandFrom h g 0 source
  return ⟨text, (Text.cutAt? macroOpen source).isSome⟩

/-! ### Reading -/

/-- Read a source that has no marker or lost it, in a grammar. Places are given relative to a
larger source in which the text starts at the offset `start`; they are lost if macros were
expanded. -/
def readBody (d : Dialect) (h : Host) (g : Grammar) (start : Nat) (body : List Char) :
    Except SourceError Script := do
  let expansion ←
    if d.macros then (d.expand h g body).mapError fun e => e.shift start
    else .ok ⟨body, false⟩
  match (d.context h g).parse expansion.text with
  | .ok e => return ⟨e, g⟩
  | .error e =>
    throw (.parse (if expansion.hadMacros then ⟨e.cause, none⟩ else e.shift start))

/-- Read a source in a grammar, unless a marker names another. -/
def readIn (d : Dialect) (h : Host) (g : Grammar) (source : List Char) :
    Except SourceError Script :=
  match Grammar.stripMarker? source with
  | some (forced, rest) =>
    d.readBody h forced (Text.byteLength source - Text.byteLength rest) rest
  | none => d.readBody h g 0 source

/-- Read a source. -/
def read (d : Dialect) (h : Host) (source : List Char) : Except SourceError Script :=
  d.readIn h d.grammar source

/-- Read the condition of a rule: it holds or not, and it depends on a signal or a property. -/
def readCondition (d : Dialect) (h : Host) (source : List Char) : Except SourceError Script := do
  let s ← d.read h source
  if s.expr.type ≠ .boolean then throw (.role .conditionNotBoolean s.expr.span)
  if !s.expr.readsHost then throw (.role .conditionWithoutSignal s.expr.span)
  return s

/-- Read the action of a rule. -/
def readAction (d : Dialect) (h : Host) (source : List Char) : Except SourceError Script := do
  let s ← d.read h source
  if s.expr.type ≠ .action then throw (.role .notAnAction s.expr.span)
  return s

/-- Read a source for a purpose. -/
def readFor (d : Dialect) (h : Host) (purpose : Purpose) (source : List Char) :
    Except SourceError Script :=
  match purpose with
  | .any none => d.read h source
  | .any (some g) => d.readIn h g source
  | .condition => d.readCondition h source
  | .action => d.readAction h source

/-- The text to store for a source. -/
def canonicalize (d : Dialect) (h : Host) (source : List Char) : Except SourceError String := do
  let s ← d.read h source
  return s.canonical

end Dialect

end SignalRules
