import SignalRules.Parser.Expect

/-!
# The algebraic grammar

Operators stand between their operands and group by binding power; operators of equal power group
from the left. A minus sign or a `not` may stand in front of an operand, and a minus sign directly
in front of a number makes a negative literal. A name alone reads a signal, a name with arguments
in parentheses calls an action, and the built-in functions are called by their reserved names.

## Main definitions

* `Algebraic.expression`: read an expression whose operators all have at least a given power.
* `Algebraic.climb`: extend an operand by the operators that follow it.
* `Algebraic.unary`, `Algebraic.primary`, `Algebraic.arguments`, `Algebraic.items`: the parts.
-/

namespace SignalRules.Algebraic

/-- Whether a token can be an operator. -/
def isOperatorToken (t : Token) : Bool := t.kind == .symbol || t.kind == .keyword

/-- The binary operator that a token stands for. -/
def binary? (t : Token) : Option Operator :=
  if isOperatorToken t then Operator.ofBinary? t.text else none

/-- The unary operator that a token stands for. -/
def unary? (t : Token) : Option Operator :=
  if isOperatorToken t then Operator.ofUnary? t.text else none

/-- The number behind a minus sign, if one follows directly. -/
def negatedNumber? (op : Operator) (tokens : List Token) : Option (Taken Token tokens) :=
  match tokens with
  | [] => none
  | t :: rest =>
    if op = .arithmetic .neg ∧ t.kind = .number then some (.first t t rest) else none

/-- Read a bare name. -/
def bareName (finish : Nat) (tokens : List Token) : Except ParseError (Taken Expr tokens) :=
  match tokens with
  | [] => .error (unexpectedEnd .name finish)
  | t :: rest =>
    if t.kind = .identifier then .ok (.first (.symbol t.text t.span) t rest)
    else .error (unexpectedToken .name t)

/-- Whether the arguments of a built-in function are bare names. -/
def takesNames : Operator → Bool
  | .presence _ => true
  | _ => false

mutual

/-- Read an expression whose operators all have at least the power `least`. -/
def expression (ctx : Context) (finish least : Nat) (tokens : List Token) :
    Except ParseError (Taken Expr tokens) := do
  let ⟨left, rest₁, h₁⟩ ← unary ctx finish tokens
  let ⟨e, rest₂, h₂⟩ ← climb ctx finish least left rest₁
  return ⟨e, rest₂, Nat.lt_of_le_of_lt h₂ h₁⟩
termination_by (tokens.length, 3)

/-- Extend the operand `left` by the binary operators of at least the power `least` that follow. -/
def climb (ctx : Context) (finish least : Nat) (left : Expr) (tokens : List Token) :
    Except ParseError (Kept Expr tokens) :=
  match tokens with
  | [] => .ok ⟨left, [], Nat.le_refl _⟩
  | t :: rest =>
    match binary? t with
    | none => .ok ⟨left, t :: rest, Nat.le_refl _⟩
    | some op =>
      if op.precedence < least then .ok ⟨left, t :: rest, Nat.le_refl _⟩
      else do
        let ⟨right, rest₁, h₁⟩ ← expression ctx finish (op.precedence + 1) rest
        let e ← ctx.apply op [left, right] (left.span.merge right.span)
        let ⟨e', rest₂, h₂⟩ ← climb ctx finish least e rest₁
        return ⟨e', rest₂, Nat.le_succ_of_le (Nat.le_trans h₂ (Nat.le_of_lt h₁))⟩
termination_by (tokens.length, 0)

/-- Read an operand with the unary operators in front of it. -/
def unary (ctx : Context) (finish : Nat) (tokens : List Token) :
    Except ParseError (Taken Expr tokens) :=
  match tokens with
  | [] => .error (unexpectedEnd .expression finish)
  | t :: rest =>
    match unary? t with
    | none => primary ctx finish (t :: rest)
    | some op =>
      match negatedNumber? op rest with
      | some ⟨n, rest', h⟩ => do
        let e ← Context.number ("-" ++ n.text) (t.span.merge n.span)
        return ⟨e, rest', Nat.lt_succ_of_lt h⟩
      | none => do
        let ⟨operand, rest', h⟩ ← expression ctx finish op.operandPrecedence rest
        let e ← ctx.apply op [operand] (t.span.merge operand.span)
        return ⟨e, rest', Nat.lt_succ_of_lt h⟩
termination_by (tokens.length, 2)

/-- Read a literal, a group, a call, or a name. -/
def primary (ctx : Context) (finish : Nat) (tokens : List Token) :
    Except ParseError (Taken Expr tokens) :=
  match tokens with
  | [] => .error (unexpectedEnd .expression finish)
  | t :: rest =>
    match t.kind with
    | .number => do
      let e ← Context.number t.text t.span
      return .first e t rest
    | .string => .ok (.first (.constant (.string t.text) t.span) t rest)
    | .symbol =>
      if t.isSymbol '(' then do
        let ⟨inner, rest₁, h₁⟩ ← expression ctx finish 0 rest
        let ⟨closing, rest₂, h₂⟩ ← expectSymbol ')' .closeParen finish rest₁
        return ⟨inner.withSpan (t.span.merge closing), rest₂,
          Nat.lt_succ_of_lt (Nat.lt_trans h₂ h₁)⟩
      else .error (unexpectedToken .expression t)
    | .keyword =>
      match Operator.ofCall? t.text with
      | none => .error (unexpectedToken .expression t)
      | some op => do
        let ⟨(args, closing), rest', h⟩ ← arguments ctx finish (takesNames op) rest
        let e ← ctx.apply op args (t.span.merge closing)
        return ⟨e, rest', Nat.lt_succ_of_lt h⟩
    | .identifier =>
      if startsWith '(' rest then do
        let ⟨(args, closing), rest', h⟩ ← arguments ctx finish false rest
        let e ← ctx.action t.text args (t.span.merge closing)
        return ⟨e, rest', Nat.lt_succ_of_lt h⟩
      else do
        let e ← ctx.signal t.text t.span
        return .first e t rest
termination_by (tokens.length, 1)

/-- Read arguments in parentheses, and the span of the closing parenthesis. -/
def arguments (ctx : Context) (finish : Nat) (names : Bool) (tokens : List Token) :
    Except ParseError (Taken (List Expr × Span) tokens) := do
  let ⟨_, rest₁, h₁⟩ ← expectSymbol '(' .openParen finish tokens
  match expectSymbol ')' .closeParen finish rest₁ with
  | .ok ⟨closing, rest₂, h₂⟩ => return ⟨([], closing), rest₂, Nat.lt_trans h₂ h₁⟩
  | .error _ =>
    let ⟨found, rest₂, h₂⟩ ← items ctx finish names rest₁
    return ⟨found, rest₂, Nat.lt_trans h₂ h₁⟩
termination_by (tokens.length, 0)

/-- Read one or more arguments, separated by commas, and the closing parenthesis. -/
def items (ctx : Context) (finish : Nat) (names : Bool) (tokens : List Token) :
    Except ParseError (Taken (List Expr × Span) tokens) := do
  let ⟨e, rest₁, h₁⟩ ←
    if names then bareName finish tokens else expression ctx finish 0 tokens
  match expectSymbol ',' .commaOrClose finish rest₁ with
  | .ok ⟨_, rest₂, h₂⟩ =>
    let ⟨(es, closing), rest₃, h₃⟩ ← items ctx finish names rest₂
    return ⟨(e :: es, closing), rest₃, Nat.lt_trans h₃ (Nat.lt_trans h₂ h₁)⟩
  | .error _ =>
    let ⟨closing, rest₂, h₂⟩ ← expectSymbol ')' .commaOrClose finish rest₁
    return ⟨([e], closing), rest₂, Nat.lt_trans h₂ h₁⟩
termination_by (tokens.length, 4)

end

end SignalRules.Algebraic
