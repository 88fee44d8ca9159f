/-!
# Quoted text

A text literal is written between single quotes. A backslash or a single quote in it gets a
backslash in front, and so does a percent sign directly behind an opening brace, so that a literal
never looks like the beginning of a macro.

## Main definitions

* `Text.quote`: the literal of a text.
-/

namespace SignalRules.Text

/-- Whether a character gets a backslash in front, given whether an opening brace precedes it. -/
def isEscaped (afterBrace : Bool) (c : Char) : Bool :=
  c == '\\' || c == '\'' || (c == '%' && afterBrace)

/-- The inside of a literal; `afterBrace` tells whether an opening brace stands directly before. -/
def escape (afterBrace : Bool) : List Char → List Char
  | [] => []
  | c :: cs =>
    if isEscaped afterBrace c then '\\' :: c :: escape (c == '\x7b') cs
    else c :: escape (c == '\x7b') cs

/-- The literal of a text. -/
def quote (cs : List Char) : List Char := '\'' :: (escape false cs ++ ['\''])

end SignalRules.Text
