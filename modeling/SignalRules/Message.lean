import SignalRules.Message.Template

/-!
# Messages for people

Every text that the language shows to people has a stable name, a stable localization key and an
English template. A catalog gives a template for every message, so a host can word them anew; a
notice is a message with its arguments.

## Main definitions

* `MessageId`: the messages, with `MessageId.key` and `MessageId.english`.
* `Catalog`: templates for all messages; `Catalog.english`, `Catalog.overriding`.
* `Notice`: a message with arguments; `Notice.render`, `Notice.text`.
-/

namespace SignalRules

/-- The messages shown to people. -/
inductive MessageId where
  | unknownSignal
  | unknownAction
  | unknownProperty
  | unavailable
  | conditionNotBoolean
  | conditionWithoutSignal
  | notAnAction
  | preconditionNotSatisfied
  | indexOutOfRange
  | valueOutOfBounds
  | valueNotAllowed
  | valueEmpty
  | notANumber
  | unsetValue
  | divisionByZero
  | numericOverflow
  | notAValue
  | describeEq
  | describeNe
  | describeGt
  | describeGe
  | describeLt
  | describeLe
  | describeAnd
  | describeOr
  | describeNot
  | describeMin
  | describeMax
  | describeRound
  | describeLength
  | describeElement
  | describeHasSignal
  | describeHasAction
  | describeActionOnce
  | describeUnset
  | describeFailure
deriving DecidableEq, Inhabited

namespace MessageId

open Template

/-- All messages, in the order in which they are listed. -/
def all : List MessageId :=
  [unknownSignal, unknownAction, unknownProperty, unavailable, conditionNotBoolean,
    conditionWithoutSignal, notAnAction, preconditionNotSatisfied, indexOutOfRange,
    valueOutOfBounds, valueNotAllowed, valueEmpty, notANumber, unsetValue, divisionByZero,
    numericOverflow, notAValue, describeEq, describeNe, describeGt, describeGe, describeLt,
    describeLe, describeAnd, describeOr, describeNot, describeMin, describeMax, describeRound,
    describeLength, describeElement, describeHasSignal, describeHasAction, describeActionOnce,
    describeUnset, describeFailure]

/-- The stable localization key of a message. -/
def key : MessageId → String
  | unknownSignal => "error.unknown_signal"
  | unknownAction => "error.unknown_action"
  | unknownProperty => "error.unknown_property"
  | unavailable => "error.unavailable"
  | conditionNotBoolean => "error.condition_not_boolean"
  | conditionWithoutSignal => "error.condition_without_signal"
  | notAnAction => "error.not_an_action"
  | preconditionNotSatisfied => "error.precondition_not_satisfied"
  | indexOutOfRange => "error.index_out_of_range"
  | valueOutOfBounds => "error.value_out_of_bounds"
  | valueNotAllowed => "error.value_not_allowed"
  | valueEmpty => "error.value_empty"
  | notANumber => "error.not_a_number"
  | unsetValue => "error.unset_value"
  | divisionByZero => "error.division_by_zero"
  | numericOverflow => "error.numeric_overflow"
  | notAValue => "error.not_a_value"
  | describeEq => "describe.eq"
  | describeNe => "describe.ne"
  | describeGt => "describe.gt"
  | describeGe => "describe.ge"
  | describeLt => "describe.lt"
  | describeLe => "describe.le"
  | describeAnd => "describe.and"
  | describeOr => "describe.or"
  | describeNot => "describe.not"
  | describeMin => "describe.min"
  | describeMax => "describe.max"
  | describeRound => "describe.round"
  | describeLength => "describe.length"
  | describeElement => "describe.element"
  | describeHasSignal => "describe.has_signal"
  | describeHasAction => "describe.has_action"
  | describeActionOnce => "describe.action_once"
  | describeUnset => "describe.unset"
  | describeFailure => "describe.failure"

/-- The English template of a message. -/
def english : MessageId → String
  | unknownSignal => "unknown signal: " ++ slot 0
  | unknownAction => "unknown action: " ++ slot 0
  | unknownProperty => "unknown property: " ++ slot 0
  | unavailable => slot 0 ++ " is not available in this context"
  | conditionNotBoolean => "condition must be boolean"
  | conditionWithoutSignal => "condition must reference a signal"
  | notAnAction => "expression is not an action"
  | preconditionNotSatisfied => "precondition not satisfied: " ++ slot 0
  | indexOutOfRange =>
    "index " ++ slot 0 ++ " is out of range for " ++ slot 1 ++ " (length " ++ slot 2 ++ ")"
  | valueOutOfBounds => slot 0 ++ " is outside [" ++ slot 1 ++ ", " ++ slot 2 ++ "]"
  | valueNotAllowed => "'" ++ slot 0 ++ "' is not an allowed value for " ++ slot 1
  | valueEmpty => slot 0 ++ " must not be empty"
  | notANumber => "'" ++ slot 0 ++ "' is not a number"
  | unsetValue => "value is unset"
  | divisionByZero => "division by zero"
  | numericOverflow => "numeric overflow"
  | notAValue => "expression does not produce a " ++ slot 0
  | describeEq => slot 0 ++ " is " ++ slot 1
  | describeNe => slot 0 ++ " is not " ++ slot 1
  | describeGt => slot 0 ++ " is greater than " ++ slot 1
  | describeGe => slot 0 ++ " is at least " ++ slot 1
  | describeLt => slot 0 ++ " is less than " ++ slot 1
  | describeLe => slot 0 ++ " is at most " ++ slot 1
  | describeAnd => slot 0 ++ " and " ++ slot 1
  | describeOr => slot 0 ++ " or " ++ slot 1
  | describeNot => "not (" ++ slot 0 ++ ")"
  | describeMin => "the smallest of " ++ slot 0
  | describeMax => "the largest of " ++ slot 0
  | describeRound => slot 0 ++ " rounded"
  | describeLength => "the number of " ++ slot 0
  | describeElement => slot 0 ++ " #" ++ slot 1
  | describeHasSignal => slot 0 ++ " is available"
  | describeHasAction => slot 0 ++ " can be performed"
  | describeActionOnce => slot 0 ++ ", once"
  | describeUnset => "(unset)"
  | describeFailure => "<" ++ slot 0 ++ ">"

/-- The message with a given localization key. -/
def ofKey? (k : String) : Option MessageId := all.find? fun id => id.key == k

end MessageId

/-- A template for every message. -/
abbrev Catalog := MessageId → String

namespace Catalog

/-- The built-in English catalog. -/
def english : Catalog := MessageId.english

/-- The English catalog with some templates replaced, given by localization key. -/
def overriding (templates : List (String × String)) : Catalog := fun id =>
  match templates.lookup id.key with
  | some template => template
  | none => id.english

/-- The text of a message under a catalog. -/
def render (catalog : Catalog) (id : MessageId) (args : List String) : String :=
  Template.fill (catalog id) args

end Catalog

/-- A message together with the arguments of its template. -/
structure Notice where
  /-- Which message it is. -/
  id : MessageId
  /-- The arguments for the slots. -/
  args : List String
deriving DecidableEq, Inhabited

namespace Notice

/-- The text of a notice under a catalog. -/
def render (catalog : Catalog) (notice : Notice) : String := catalog.render notice.id notice.args

/-- The English text of a notice. -/
def text (notice : Notice) : String := notice.render Catalog.english

/-- The localization key of a notice. -/
def key (notice : Notice) : String := notice.id.key

end Notice

end SignalRules
