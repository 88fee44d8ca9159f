import SignalRules.Parser.Expect

/-!
# The Polish grammar

An expression is a number, a text, a bare name, or a form: an opening parenthesis, an operator
keyword, operands and a closing parenthesis.

## Main definitions

* `Polish.expression`, `Polish.form`, `Polish.operands`: the readers.
-/

namespace SignalRules.Polish

mutual

/-- Read one expression. -/
def expression (ctx : Context) (finish : Nat) (tokens : List Token) :
    Except ParseError (Taken Expr tokens) :=
  match tokens with
  | [] => .error (unexpectedEnd .expression finish)
  | t :: rest =>
    match t.kind with
    | .symbol =>
      if t.isSymbol '(' then do
        let ⟨e, rest', h⟩ ← form ctx finish t.span rest
        return ⟨e, rest', Nat.lt_succ_of_lt h⟩
      else .error (unexpectedToken .expression t)
    | .number => do
      let e ← Context.number t.text t.span
      return .first e t rest
    | .string => .ok (.first (.constant (.string t.text) t.span) t rest)
    | .identifier => .ok (.first (.symbol t.text t.span) t rest)
    | .keyword => .error (.located (.misplacedKeyword t.text) t.span)
termination_by (tokens.length, 0)

/-- Read a form behind its opening parenthesis, whose span is given. -/
def form (ctx : Context) (finish : Nat) (opening : Span) (tokens : List Token) :
    Except ParseError (Taken Expr tokens) :=
  match tokens with
  | [] => .error (.located .unclosedForm (opening.merge ⟨finish, finish⟩))
  | t :: rest =>
    if t.kind = .keyword then
      match Operator.ofKeyword? t.text with
      | none => .error (.located (.unknownOperator t.text) t.span)
      | some op => do
        let ⟨(args, closing), rest', h⟩ ← operands ctx finish opening rest
        let e ← ctx.apply op args (opening.merge closing)
        return ⟨e, rest', Nat.lt_succ_of_lt h⟩
    else .error (unexpectedToken .operatorKeyword t)
termination_by (tokens.length, 0)

/-- Read operands up to the closing parenthesis of a form, and the span of that parenthesis. -/
def operands (ctx : Context) (finish : Nat) (opening : Span) (tokens : List Token) :
    Except ParseError (Taken (List Expr × Span) tokens) :=
  match tokens with
  | [] => .error (.located .unclosedForm (opening.merge ⟨finish, finish⟩))
  | t :: rest =>
    if t.isSymbol ')' then .ok (.first ([], t.span) t rest)
    else do
      let ⟨e, rest₁, h₁⟩ ← expression ctx finish (t :: rest)
      let ⟨(es, closing), rest₂, h₂⟩ ← operands ctx finish opening rest₁
      return ⟨(e :: es, closing), rest₂, Nat.lt_trans h₂ h₁⟩
termination_by (tokens.length, 1)

end

end SignalRules.Polish
