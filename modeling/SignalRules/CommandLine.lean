import SignalRules.CommandLine.Arguments
import SignalRules.Dialect
import SignalRules.Fixture
import SignalRules.StatusBoard

/-!
# The commands

A command reads its expression against a host and answers with lines of text and an exit code. An
expression that is refused, or a host that cannot be loaded, exits with 1, a fault with 2, and a
condition that does not hold with 3.

## Main definitions

* `LoadError`: why there is no host.
* `Answer`: what a command answers, with `Answer.exitCode` and `Answer.output`.
* `Invocation.run`: carry out a command.
-/

namespace SignalRules

/-- Why there is no host. -/
inductive LoadError where
  /-- The file cannot be read, for the given reason. -/
  | unreadable (path reason : String)
  /-- The fixture describes no host. -/
  | fixture (error : FixtureError)
deriving DecidableEq, Inhabited

/-- The text of a load error. -/
def LoadError.message : LoadError → String
  | unreadable path reason => "Error: cannot read host fixture " ++ path ++ ": " ++ reason
  | fixture error => "Error: " ++ error.message

/-- What a command answers. -/
inductive Answer where
  /-- Lines of text. -/
  | lines (lines : List String)
  /-- Whether a condition holds. -/
  | condition (holds : Bool)
  /-- There is no host. -/
  | unloaded (error : LoadError)
  /-- The expression is refused. -/
  | refused (error : SourceError)
  /-- Evaluation failed with these statuses. -/
  | faulted (statuses : List Status)
deriving Inhabited

namespace Answer

/-- The exit code. -/
def exitCode : Answer → Nat
  | lines _ => 0
  | condition holds => if holds then 0 else 3
  | unloaded _ | refused _ => 1
  | faulted _ => 2

/-- The text for standard output. -/
def output : Answer → String
  | lines ls => Text.join "" (ls.map fun l => l ++ "\n")
  | condition holds => if holds then "true\n" else "false\n"
  | _ => ""

/-- A status as a line of text. -/
def statusLine (s : Status) : String := "error[" ++ s.key ++ "]: " ++ s.message

/-- The text for standard error. -/
def failure? : Answer → Option String
  | unloaded e => some e.message
  | refused e => some (e.code ++ ": " ++ e.message)
  | faulted statuses => some (Text.join "\n" (statuses.map statusLine))
  | _ => none

end Answer

/-- Fill a text up with blanks behind it. -/
def padRight (width : Nat) (text : String) : String :=
  text ++ String.ofList (List.replicate (width - text.length) ' ')

/-- Fill a text up with blanks in front of it. -/
def padLeft (width : Nat) (text : String) : String :=
  String.ofList (List.replicate (width - text.length) ' ') ++ text

/-- The line for a token of a text that starts at an offset of the source. -/
def Token.line (t : Token) (start : Nat) : String :=
  padRight 10 t.kind.name ++ " " ++ padLeft 3 (toString (t.span.start + start)) ++ ".." ++
    padRight 3 (toString (t.span.stop + start)) ++ " " ++ t.text

/-- The line for a value. -/
def Value.line : Value → String
  | unset => "unset"
  | string s => String.ofList (Text.quote s.toList)
  | number n => n.text

/-- The line for a call. -/
def Call.line (c : Call) : String := c.name ++ "(" ++ Text.join ", " (c.args.map Value.line) ++ ")"

/-- The tokens of a source as lines, without the marker of its grammar. -/
def Dialect.tokenLines (d : Dialect) (source : List Char) : Except SourceError (List String) :=
  let (grammar, body) := (Grammar.stripMarker? source).getD (d.grammar, source)
  let start := Text.byteLength source - Text.byteLength body
  match (Lexicon.ofGrammar grammar).tokenize body with
  | .ok tokens => .ok (tokens.map fun t => t.line start)
  | .error e => .error (.parse (e.shift start))

namespace Script

/-- The answer to a fault of a script, in English. -/
def faulted (s : Script) (fault : Fault) : Answer :=
  .faulted ((StatusBoard.empty Catalog.english).report s.canonical fault).1.statuses

/-- Evaluate a script by its type. -/
def evaluate (s : Script) (h : Host) : Answer :=
  match s.expr.type with
  | .boolean =>
    match s.expr.test h with
    | .ok holds => .condition holds
    | .error fault => s.faulted fault
  | .action =>
    match s.expr.execute h with
    | .ok (h', outcome) =>
      .lines (h'.calls.map Call.line ++ if outcome.deactivate then ["(deactivated)"] else [])
    | .error fault => s.faulted fault
  | _ =>
    match s.expr.value h with
    | .ok v => .lines [v.line]
    | .error fault => s.faulted fault

end Script

namespace Invocation

/-- How the expression is read. -/
def dialect (i : Invocation) : Dialect := ⟨i.grammar, i.strict, i.macros⟩

/-- The answer to a read script. -/
def answer (i : Invocation) (h : Host) (s : Script) : Answer :=
  match i.command with
  | .eval => s.evaluate h
  | .decompile => .lines [s.expr.write (i.target.getD s.grammar)]
  | .describe => .lines [s.expr.describe h Catalog.english]
  | .lex | .check => .lines [s.expr.type.name ++ ": " ++ s.canonical]

/-- Carry out a command on a host. -/
def runOn (i : Invocation) (h : Host) : Answer :=
  let source := i.source.toList
  match i.command with
  | .lex =>
    match i.dialect.tokenLines source with
    | .ok lines => .lines lines
    | .error e => .refused e
  | _ =>
    match i.dialect.read h source with
    | .ok script => i.answer h script
    | .error e => .refused e

/-- Carry out a command; `load` gives the host of a fixture file. -/
def run (i : Invocation) (load : String → Except LoadError Host) : Answer :=
  match i.host with
  | none => i.runOn .empty
  | some path =>
    match load path with
    | .ok h => i.runOn h
    | .error e => .unloaded e

end Invocation

end SignalRules
