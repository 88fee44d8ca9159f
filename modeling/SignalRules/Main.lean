import SignalRules.CommandLine

/-!
# The program

Reads the arguments and the host fixture, carries out the command, and prints the answer.
-/

namespace SignalRules

/-- A summary of the command line. -/
def usageText : String :=
  "Usage: signalrules [--host FILE] [--grammar GRAMMAR] [--strict] [--no-macros] COMMAND EXPR\n" ++
    "Commands: lex, check, eval, decompile [--to GRAMMAR], describe"

/-- The version of the program. -/
def versionText : String := "signalrules 0.1.0"

/-- What is said about a command line that cannot be carried out. -/
def UsageError.message : UsageError → String
  | noArguments | help => usageText
  | version => versionText
  | missingCommand => "error: a command is required"
  | unknownCommand => "error: unknown command"
  | unknownArgument => "error: unexpected argument"
  | missingExpression => "error: an expression is required"
  | missingValue => "error: a flag lacks its value"
  | unknownGrammar => "error: unknown grammar (expected one of: prefix, infix)"
  | unneededValue => "error: a flag was given a value that it does not take"
  | repeatedFlag => "error: a flag cannot be used twice"

/-- The exit code for a command line that is not carried out. -/
def UsageError.exitCode : UsageError → UInt32
  | help | version => 0
  | _ => 2

/-- Why a file cannot be read. -/
def readFailure : IO.Error → String
  | .noFileOrDirectory .. => "No such file or directory (os error 2)"
  | e => toString e

/-- The host of a fixture file. -/
def loadHost (path : String) : IO (Except LoadError Host) := do
  try
    let text ← IO.FS.readFile path
    return (Host.ofFixture text).mapError LoadError.fixture
  catch e => return .error (.unreadable path (readFailure e))

/-- Carry out a command line and print the answer. -/
def runProgram (args : List String) : IO UInt32 := do
  match Invocation.ofArguments args with
  | .error .help =>
    IO.println usageText
    return 0
  | .error .version =>
    IO.println versionText
    return 0
  | .error e =>
    IO.eprintln e.message
    return e.exitCode
  | .ok i =>
    let loaded ←
      match i.host with
      | some path => loadHost path
      | none => pure (.ok .empty)
    let answer := i.run fun _ => loaded
    IO.print answer.output
    if let some text := answer.failure? then IO.eprintln text
    return answer.exitCode.toUInt32

end SignalRules

/-- The entry point. -/
def main (args : List String) : IO UInt32 := SignalRules.runProgram args
