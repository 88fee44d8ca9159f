import SignalRules.Expr

/-!
# Outlines

An outline shows the structure of a value, a validator or an expression on one line, for
inspection. Records are written with named fields in braces, variants with their contents in
parentheses, lists in brackets and texts in double quotes.

## Main definitions

* `Outline.record`, `Outline.variant`, `Outline.list`, `Outline.string`: the layout.
* `Value.outline`, `Validator.outline`, `Expr.outline`.
-/

namespace SignalRules

namespace Outline

/-- A record with named fields. -/
def record (name : String) (fields : List (String × String)) : String :=
  name ++ " \x7b " ++ Text.join ", " (fields.map fun f => f.1 ++ ": " ++ f.2) ++ " \x7d"

/-- A variant with its contents. -/
def variant (name contents : String) : String := name ++ "(" ++ contents ++ ")"

/-- A list. -/
def list (items : List String) : String := "[" ++ Text.join ", " items ++ "]"

/-- A character inside double quotes. Line breaks, tabs and zero have short escapes, and other
control characters are given by their code point. -/
def escaped (c : Char) : List Char :=
  if c = '"' || c = '\\' then ['\\', c]
  else if c = '\n' then ['\\', 'n']
  else if c = '\r' then ['\\', 'r']
  else if c = '\t' then ['\\', 't']
  else if c.toNat = 0 then ['\\', '0']
  else if c.toNat < 32 || c.toNat = 127 then
    '\\' :: 'u' :: '\x7b' :: (Nat.toDigits 16 c.toNat ++ ['\x7d'])
  else [c]

/-- A text in double quotes. -/
def string (s : String) : String := String.ofList ('"' :: (s.toList.flatMap escaped ++ ['"']))

end Outline

open Outline

/-- The outline of a value. -/
def Value.outline : Value → String
  | unset => "Unset"
  | string s => variant "String" (Outline.string s)
  | number n => variant "Number" (toString n.hundredths)

/-- The outline of a validator. -/
def Validator.outline : Validator → String
  | any => "Any"
  | range least greatest =>
    record "Range" [("min", toString least.hundredths), ("max", toString greatest.hundredths)]
  | nonEmpty => "NonEmpty"
  | oneOf values => variant "OneOf" (list (values.map Value.outline))
  | custom _ => "Custom(..)"

/-- The outline of a value type. -/
def ValueType.outline : ValueType → String
  | string => "String"
  | number => "Number"

/-- The outline of a comparison. -/
def Comparison.outline : Comparison → String
  | eq => "Eq"
  | ne => "Ne"
  | gt => "Gt"
  | ge => "Ge"
  | lt => "Lt"
  | le => "Le"

/-- The outline of a connective. -/
def Connective.outline : Connective → String
  | and => "And"
  | or => "Or"
  | not => "Not"

/-- The outline of an arithmetic operation. -/
def Arithmetic.outline : Arithmetic → String
  | add => "Add"
  | sub => "Sub"
  | mul => "Mul"
  | div => "Div"
  | mod => "Mod"
  | min => "Min"
  | max => "Max"
  | round => "Round"
  | neg => "Neg"

/-- The outline of what is read of a property. -/
def PropertyMode.outline : PropertyMode → String
  | value type => variant "Value" type.outline
  | element type => variant "Element" type.outline
  | length => "Length"

/-- The outline of what a presence check looks for. -/
def Presence.outline : Presence → String
  | signal => "Signal"
  | action => "Action"

/-- The outline of a span. -/
def Span.outline (s : Span) : String :=
  record "Span" [("start", toString s.start), ("end", toString s.stop)]

/-- The outline of an operand: its node and its span. -/
def Span.outlineOf (s : Span) (node : String) : String :=
  record "Spanned" [("node", node), ("span", s.outline)]

/-- The outline of a head over the outlines of its operands. -/
def Head.outline (head : Head) (operands : List String) : String :=
  match head with
  | constant v => variant "Constant" v.outline
  | symbol name => variant "Symbol" (Outline.string name)
  | signal s => variant "Signal" (variant "SignalRef" (Outline.string s.name))
  | action a once =>
    variant "Action" (record "ActionCall"
      [("name", Outline.string a.name), ("args", list operands), ("once", toString once)])
  | comparison op =>
    record "Comparison" (("op", op.outline) :: ["left", "right"].zip operands)
  | connective op => record "Logical" [("op", op.outline), ("args", list operands)]
  | arithmetic op => record "Math" [("op", op.outline), ("args", list operands)]
  | concat => variant "Concat" (list operands)
  | property mode p =>
    let index := match operands with
      | [] => "None"
      | i :: _ => variant "Some" i
    variant "Property" (record "PropertyAccess"
      [("mode", mode.outline), ("reference", Outline.string p.reference), ("index", index)])
  | presence kind names =>
    variant "Exists" (record "ExistenceCheck"
      [("kind", kind.outline), ("names", list (names.map Outline.string))])

namespace Expr

mutual

/-- The outline of an expression. -/
def outline : Expr → String
  | node _ head operands => head.outline (outlineAll operands)

/-- The outlines of operands, with their spans. -/
def outlineAll : List Expr → List String
  | [] => []
  | e :: es => e.span.outlineOf (outline e) :: outlineAll es

end

end Expr

end SignalRules
