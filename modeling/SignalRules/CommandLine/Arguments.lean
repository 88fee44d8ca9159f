import SignalRules.Grammar
import SignalRules.Text.Blank

/-!
# Command-line arguments

A command line has flags, a command, flags again, and the expression. Most flags can stand on
either side of the command, at most once on each; behind the command they take precedence. A flag
with a value takes it behind an equals sign or from the next argument. Two dashes end the flags.

A value from a separate argument is examined late: when the next known flag or the expression is
reached, or at the end of its side of the command. So an unknown argument is reported before an
unusable value in front of it, and everything behind the command before an unusable value in front
of the command.

## Main definitions

* `Command`, `Flag`, `UsageError`.
* `Side`: what has been read on one side of the command.
* `Invocation`: a complete command line; `Invocation.ofArguments` reads one.
-/

namespace SignalRules

/-- What the program can be asked to do. -/
inductive Command where
  /-- List the tokens of the expression. -/
  | lex
  /-- Tell the type and the canonical text. -/
  | check
  /-- Evaluate, or make the call. -/
  | eval
  /-- Write the canonical text in a grammar. -/
  | decompile
  /-- Describe the expression for people. -/
  | describe
deriving DecidableEq, Inhabited

namespace Command

/-- All commands. -/
def all : List Command := [lex, check, eval, decompile, describe]

/-- The name of a command. -/
def name : Command → String
  | lex => "lex"
  | check => "check"
  | eval => "eval"
  | decompile => "decompile"
  | describe => "describe"

/-- The command of a name. -/
def ofName? (name : String) : Option Command := all.find? fun c => c.name == name

end Command

/-- The flags. -/
inductive Flag where
  /-- The file with the host fixture. -/
  | host
  /-- The grammar of sources without a marker. -/
  | grammar
  /-- Enforce the options of signals. -/
  | strict
  /-- Leave macros alone. -/
  | noMacros
  /-- The grammar to write in. -/
  | target
  /-- Show help. -/
  | help
  /-- Show the version. -/
  | version
deriving DecidableEq, Inhabited

namespace Flag

/-- The name behind the two dashes. -/
def name : Flag → String
  | host => "host"
  | grammar => "grammar"
  | strict => "strict"
  | noMacros => "no-macros"
  | target => "to"
  | help => "help"
  | version => "version"

/-- The letter behind one dash, if there is one. -/
def letter? : Flag → Option Char
  | help => some 'h'
  | version => some 'V'
  | _ => none

/-- Whether a flag takes a value. -/
def takesValue : Flag → Bool
  | host | grammar | target => true
  | _ => false

/-- The flags in front of the command, or behind the given one. -/
def known : Option Command → List Flag
  | none => [host, grammar, strict, noMacros, help, version]
  | some .decompile => [host, grammar, strict, noMacros, target, help]
  | some _ => [host, grammar, strict, noMacros, help]

end Flag

/-- Why a command line is not carried out. -/
inductive UsageError where
  /-- There is nothing to do. -/
  | noArguments
  /-- There are flags and no command. -/
  | missingCommand
  /-- There is no such command. -/
  | unknownCommand
  /-- There is no such flag, or there is an argument too many. -/
  | unknownArgument
  /-- The expression is missing. -/
  | missingExpression
  /-- A flag lacks its value. -/
  | missingValue
  /-- There is no grammar of the given name. -/
  | unknownGrammar
  /-- A flag without a value was given one. -/
  | unneededValue
  /-- A flag is given twice. -/
  | repeatedFlag
  /-- Help was asked for. -/
  | help
  /-- The version was asked for. -/
  | version
deriving DecidableEq, Inhabited

/-- What has been read on one side of the command. -/
structure Side where
  /-- The file with the host fixture. -/
  host : Option String := none
  /-- The grammar of sources without a marker. -/
  grammar : Option Grammar := none
  /-- Whether options are enforced. -/
  strict : Bool := false
  /-- Whether macros are left alone. -/
  noMacros : Bool := false
  /-- The grammar to write in. -/
  target : Option Grammar := none
  /-- The expression. -/
  source : Option String := none
  /-- The last flag with a separate value, and that value once it has been met. -/
  pending : Option (Flag × Option String) := none
  /-- Whether the flags have ended. -/
  ended : Bool := false
deriving Inhabited

namespace Side

/-- Whether the next argument is the value of a flag, unless it is a flag itself. -/
def awaitsValue (s : Side) : Bool :=
  match s.pending with
  | some (_, none) => true
  | _ => false

/-- Whether no flag was given. -/
def isBlank (s : Side) : Bool :=
  s.host.isNone && s.grammar.isNone && !s.strict && !s.noMacros && s.target.isNone

/-- Read a grammar by its name. -/
def readGrammar (name : String) : Except UsageError Grammar :=
  match Grammar.ofName? name with
  | some g => .ok g
  | none => .error .unknownGrammar

/-- Give a flag its value. -/
def assign (s : Side) (flag : Flag) (value : String) : Except UsageError Side :=
  match flag with
  | .host =>
    if s.host.isSome then .error .repeatedFlag
    else if value = "" then .error .missingValue
    else .ok { s with host := some value }
  | .grammar =>
    if s.grammar.isSome then .error .repeatedFlag
    else do
      let g ← readGrammar value
      return { s with grammar := some g }
  | .target =>
    if s.target.isSome then .error .repeatedFlag
    else do
      let g ← readGrammar value
      return { s with target := some g }
  | _ => .error .unneededValue

/-- Raise a flag that has no value. -/
def raise (s : Side) (flag : Flag) : Except UsageError Side :=
  match flag with
  | .strict => if s.strict then .error .repeatedFlag else .ok { s with strict := true }
  | .noMacros => if s.noMacros then .error .repeatedFlag else .ok { s with noMacros := true }
  | .help => .error .help
  | .version => .error .version
  | _ => .error .missingValue

/-- Examine the separate value of the last flag, if that is still to be done. -/
def settle (s : Side) : Except UsageError Side :=
  match s.pending with
  | none => .ok s
  | some (_, none) => .error .missingValue
  | some (flag, some value) => assign { s with pending := none } flag value

/-- Take a flag with the value attached to it, if there is one. -/
def take (s : Side) (flag : Flag) (attached : Option String) : Except UsageError Side :=
  match flag.takesValue, attached with
  | true, some value => do
    let s ← s.settle
    s.assign flag value
  | true, none => do
    let s ← s.settle
    return { s with pending := some (flag, none) }
  | false, some _ => .error .unneededValue
  | false, none => do
    let s ← s.settle
    s.raise flag

/-- The name of a flag in an argument with two dashes, and the value attached to it. -/
def splitAttached (cs : List Char) : String × Option String :=
  match Text.cutAt? ['='] cs with
  | some (name, value) => (String.ofList name, some (String.ofList value))
  | none => (String.ofList cs, none)

/-- Take an argument that has the form of a flag; `none` if it does not. A dash alone and two
dashes alone are no flags. Of several letters behind one dash the first decides, since the flags
with a letter end the reading. -/
def takeFlag? (s : Side) (command : Option Command) (arg : String) :
    Option (Except UsageError Side) :=
  match arg.toList with
  | '-' :: '-' :: c :: rest =>
    let (name, attached) := splitAttached (c :: rest)
    match (Flag.known command).find? fun f => f.name == name with
    | some flag => some (s.take flag attached)
    | none => some (.error .unknownArgument)
  | ['-', '-'] => none
  | '-' :: c :: _ =>
    match (Flag.known command).find? fun f => f.letter? == some c with
    | some flag => some (s.take flag none)
    | none => some (.error .unknownArgument)
  | _ => none

/-- The value that the last flag was waiting for. -/
def supply (s : Side) (value : String) : Side :=
  { s with pending := s.pending.map fun p => (p.1, some value) }

/-- Take the expression, of which there can be only one. -/
def takeSource (s : Side) (arg : String) : Except UsageError Side :=
  if s.source.isSome then .error .unknownArgument
  else do
    let s ← s.settle
    return { s with source := some arg }

/-- Read the side behind a command. -/
def behind (command : Command) (s : Side) : List String → Except UsageError Side
  | [] => do
    let s ← s.settle
    if s.source.isNone then throw .missingExpression
    return s
  | arg :: rest => do
    if s.ended then behind command (← s.takeSource arg) rest
    else if arg = "--" then behind command { s with ended := true } rest
    else
      match s.takeFlag? (some command) arg with
      | some taken => behind command (← taken) rest
      | none =>
        if s.awaitsValue then behind command (s.supply arg) rest
        else behind command (← s.takeSource arg) rest

end Side

/-- A complete command line. -/
structure Invocation where
  /-- What to do. -/
  command : Command
  /-- The expression. -/
  source : String
  /-- The file with the host fixture. -/
  host : Option String
  /-- The grammar of sources without a marker. -/
  grammar : Grammar
  /-- Whether options are enforced. -/
  strict : Bool
  /-- Whether macros are expanded. -/
  macros : Bool
  /-- The grammar to write in. -/
  target : Option Grammar
deriving DecidableEq, Inhabited

namespace Invocation

/-- The word that asks for help on a command. -/
def helpWord : String := "help"

/-- Whether a word is the name of a command, or asks for help. -/
def isCommandWord (word : String) : Bool := (Command.ofName? word).isSome || word == helpWord

/-- The answer to the words behind a request for help: at most one command can be named. -/
def helpOn : List String → UsageError
  | [] => .help
  | [word] => if isCommandWord word then .help else .unknownCommand
  | _ => .unknownCommand

/-- The command line of what was read on both sides of the command. -/
def ofSides (command : Command) (before behind : Side) : Invocation where
  command := command
  source := behind.source.getD ""
  host := behind.host.or before.host
  grammar := (behind.grammar.or before.grammar).getD .algebraic
  strict := behind.strict || before.strict
  macros := !(behind.noMacros || before.noMacros)
  target := behind.target

/-- Read a command line of which some flags have been read. -/
def readFrom (s : Side) : List String → Except UsageError Invocation
  | [] => do
    let s ← s.settle
    throw (if s.isBlank then .noArguments else .missingCommand)
  | arg :: rest => do
    if s.ended then
      throw (if isCommandWord arg then .unknownArgument else .unknownCommand)
    else
      match if s.awaitsValue then none else Command.ofName? arg with
      | some command => do
        let behind ← Side.behind command {} rest
        let before ← s.settle
        return ofSides command before behind
      | none =>
        if arg = helpWord ∧ !s.awaitsValue then throw (helpOn rest)
        else if arg = "--" then readFrom { s with ended := true } rest
        else
          match s.takeFlag? none arg with
          | some taken => readFrom (← taken) rest
          | none => if s.awaitsValue then readFrom (s.supply arg) rest else throw .unknownCommand

/-- Read a command line, without the name of the program. -/
def ofArguments (args : List String) : Except UsageError Invocation := readFrom {} args

end Invocation

end SignalRules
