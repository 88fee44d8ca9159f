import SignalRules.Value

/-!
# Types of expressions
-/

namespace SignalRules

/-- The type of an expression, known before it is evaluated. -/
inductive ExprType where
  /-- It has a value of the given type. -/
  | value (type : ValueType)
  /-- It holds or it does not. -/
  | boolean
  /-- It can be executed. -/
  | action
  /-- It is a bare name, which only reference operators accept. -/
  | symbol
deriving DecidableEq, Inhabited

/-- The name of a type in messages. -/
def ExprType.name : ExprType → String
  | value type => type.name
  | boolean => "boolean"
  | action => "action"
  | symbol => "name"

end SignalRules
