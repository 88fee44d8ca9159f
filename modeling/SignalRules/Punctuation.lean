/-!
# Punctuation

The marks that are not operators, with their spelling and a description for documentation.
-/

namespace SignalRules

/-- A mark of punctuation. -/
inductive Punctuation where
  | space
  | comma
  | dot
  | openParen
  | closeParen
  | backslash
  | singleQuote
  | doubleQuote
  | macroOpen
  | macroClose
deriving DecidableEq, Inhabited

namespace Punctuation

/-- All marks, in the order in which they are listed. -/
def all : List Punctuation :=
  [space, comma, dot, openParen, closeParen, backslash, singleQuote, doubleQuote, macroOpen,
    macroClose]

/-- The listed name of a mark. -/
def name : Punctuation → String
  | space => "Space"
  | comma => "Comma"
  | dot => "Dot"
  | openParen => "LParen"
  | closeParen => "RParen"
  | backslash => "Backslash"
  | singleQuote => "SingleQuote"
  | doubleQuote => "DoubleQuote"
  | macroOpen => "MacroOpen"
  | macroClose => "MacroClose"

/-- How a mark is written. -/
def spelling : Punctuation → String
  | space => " "
  | comma => ","
  | dot => "."
  | openParen => "("
  | closeParen => ")"
  | backslash => "\\"
  | singleQuote => "'"
  | doubleQuote => "\""
  | macroOpen => "\x7b%"
  | macroClose => "%\x7d"

/-- A one-line description for documentation. -/
def description : Punctuation → String
  | space => "Separates tokens; never emitted."
  | comma => "Separates call arguments (infix grammar)."
  | dot => "Separates the segments of a dotted name."
  | openParen => "Opens a form, call or group."
  | closeParen => "Closes a form, call or group."
  | backslash => "Escapes the next character inside a string literal."
  | singleQuote => "String delimiter."
  | doubleQuote => "String delimiter."
  | macroOpen => "Opens a preprocessing macro."
  | macroClose => "Closes a preprocessing macro."

/-- The spelling as one character, if it is one. -/
def char? (p : Punctuation) : Option Char :=
  match p.spelling.toList with
  | [c] => some c
  | _ => none

end Punctuation

end SignalRules
