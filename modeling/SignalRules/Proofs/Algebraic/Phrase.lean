import SignalRules.Proofs.Algebraic.Reading

/-!
# Syntax trees of the algebraic grammar

A phrase is a syntax tree of the algebraic grammar before names are resolved and types are
checked. It has a yield, the lexemes that spell it, and it can be built bottom-up into an
expression, where the parentheses of a group vanish.

A phrase respects precedence if every operator binds at most as tightly as what stands on its left
and less tightly than what stands on its right, a minus sign stands in front of something that
binds as tightly as it does, and a `not` in front of a comparison, something tighter, or another
`not`. Leaves, calls and groups bind tightest.

## Main definitions

* `Phrase`, `Phrase.yield`, `Phrase.build`.
* `Phrase.power`, `Phrase.RespectsPrecedence`.
-/

namespace SignalRules

namespace Operator

/-- Whether an operator is written between two operands. -/
def isBinary (op : Operator) : Bool :=
  match op.form with
  | .binary _ => true
  | _ => false

/-- Whether an operator is written in front of one operand. -/
def isUnary (op : Operator) : Bool :=
  match op.form with
  | .unary _ => true
  | _ => false

/-- Whether an operator is called by its name, with expressions as arguments. -/
def isCall (op : Operator) : Bool :=
  match op.form with
  | .call _ => !Algebraic.takesNames op
  | _ => false

/-- The lexeme of an operator in the algebraic grammar: a single stop symbol, or a keyword. -/
def lexeme (op : Operator) : Lexeme :=
  ⟨if op.infixed.length = 1 then .symbol else .keyword, op.infixed⟩

theorem form_of_ofBinary? {s : String} {op : Operator} (h : ofBinary? s = some op) :
    op.form = .binary s := by
  simpa using List.find?_some h

theorem form_of_ofUnary? {s : String} {op : Operator} (h : ofUnary? s = some op) :
    op.form = .unary s := by
  simpa using List.find?_some h

theorem form_of_ofCall? {s : String} {op : Operator} (h : ofCall? s = some op) :
    op.form = .call s := by
  simpa using List.find?_some h

/-- A property of every listed operator is a property of every operator. -/
theorem forall_of_all {P : Operator → Prop} (h : ∀ op ∈ all, P op) (op : Operator) : P op :=
  h op (mem_all op)

theorem ofCall?_infixed : ∀ op : Operator, op.isCall → ofCall? op.infixed = some op :=
  forall_of_all (by decide)

theorem ofCall?_presence : ∀ kind : Presence,
    ofCall? (presence kind).infixed = some (presence kind) := by
  intro kind
  cases kind <;> decide

/-- Every binary operator binds less tightly than a minus sign in front of an operand. -/
theorem precedence_lt_of_isBinary : ∀ op : Operator, op.isBinary →
    op.precedence < (arithmetic .neg).precedence :=
  forall_of_all (by decide)

theorem isBinary_of_form {op : Operator} {s : String} (h : op.form = .binary s) :
    op.isBinary ∧ op.infixed = s := by
  simp [isBinary, infixed, h, Form.spelling?]

theorem isUnary_of_form {op : Operator} {s : String} (h : op.form = .unary s) :
    op.isUnary ∧ op.infixed = s := by
  simp [isUnary, infixed, h, Form.spelling?]

/-- What is called by name is called with expressions, or is a check whether names resolve. -/
theorem isCall_of_form {op : Operator} {s : String} (h : op.form = .call s) :
    (op.isCall ∨ ∃ kind, op = presence kind) ∧ op.infixed = s := by
  refine ⟨?_, by simp [infixed, h, Form.spelling?]⟩
  cases op with
  | presence kind => exact .inr ⟨kind, rfl⟩
  | _ => exact .inl (by simp [isCall, h, Algebraic.takesNames])

theorem eq_neg_or_not_of_isUnary : ∀ op : Operator, op.isUnary →
    op = arithmetic .neg ∨ op = connective .not :=
  forall_of_all (by decide)

end Operator

namespace Algebraic

/-- A lexeme of the kind that the source gives it: stop symbols are single characters and operator
words are longer. -/
def IsRegular (x : Lexeme) : Prop :=
  (x.kind = .symbol → x.text.length = 1) ∧ (x.kind = .keyword → x.text.length ≠ 1)

theorem eq_lexeme_of_isRegular {x : Lexeme} (hx : IsRegular x) (hop : isOperatorToken x.token)
    {op : Operator} (htext : op.infixed = x.text) : x = op.lexeme := by
  obtain ⟨kind, text⟩ := x
  subst htext
  cases kind with
  | symbol => simp [Operator.lexeme, hx.1 rfl]
  | keyword => simp [Operator.lexeme, hx.2 rfl]
  | _ => simp [isOperatorToken, Lexeme.token] at hop

theorem binary?_lexeme : ∀ op : Operator, op.isBinary → binary? op.lexeme.token = some op :=
  Operator.forall_of_all (by decide)

theorem unary?_eq_none_of_isCall : ∀ op : Operator, op.isCall →
    unary? (Lexeme.token ⟨.keyword, op.infixed⟩) = none :=
  Operator.forall_of_all (by decide)

/-- A regular lexeme that stands for a binary operator is the lexeme of that operator. -/
theorem binary?_eq_some {x : Lexeme} (hx : IsRegular x) {op : Operator}
    (h : binary? x.token = some op) : op.isBinary ∧ x = op.lexeme := by
  unfold binary? at h
  split_ifs at h with hop
  obtain ⟨hbinary, htext⟩ := Operator.isBinary_of_form (Operator.form_of_ofBinary? h)
  exact ⟨hbinary, eq_lexeme_of_isRegular hx hop htext⟩

/-- A regular lexeme that stands for a unary operator is a minus sign or a `not`. -/
theorem unary?_eq_some {x : Lexeme} (hx : IsRegular x) {op : Operator}
    (h : unary? x.token = some op) :
    (op = .arithmetic .neg ∨ op = .connective .not) ∧ x = op.lexeme := by
  unfold unary? at h
  split_ifs at h with hop
  obtain ⟨hunary, htext⟩ := Operator.isUnary_of_form (Operator.form_of_ofUnary? h)
  exact ⟨Operator.eq_neg_or_not_of_isUnary op hunary, eq_lexeme_of_isRegular hx hop htext⟩

end Algebraic

/-- A syntax tree of the algebraic grammar. -/
inductive Phrase where
  /-- A number literal without a sign. -/
  | number (digits : String)
  /-- A number literal with a minus sign directly in front of it. -/
  | negative (digits : String)
  /-- A text literal. -/
  | text (content : String)
  /-- The name of a signal. -/
  | signal (name : String)
  /-- A check whether names resolve. -/
  | presence (kind : Presence) (names : List String)
  /-- A call of a built-in function. -/
  | call (op : Operator) (args : List Phrase)
  /-- A call of an action. -/
  | invoke (name : String) (args : List Phrase)
  /-- A phrase in parentheses. -/
  | group (inner : Phrase)
  /-- A minus sign in front of an operand. -/
  | minus (operand : Phrase)
  /-- A `not` in front of an operand. -/
  | not (operand : Phrase)
  /-- An operator between two operands. -/
  | binary (op : Operator) (left right : Phrase)

/-- Induction over phrases, with one hypothesis for each argument of a call. -/
@[induction_eliminator]
theorem Phrase.induction {P : Phrase → Prop} (number : ∀ digits, P (.number digits))
    (negative : ∀ digits, P (.negative digits)) (text : ∀ content, P (.text content))
    (signal : ∀ name, P (.signal name)) (presence : ∀ kind names, P (.presence kind names))
    (call : ∀ op args, (∀ p ∈ args, P p) → P (.call op args))
    (invoke : ∀ name args, (∀ p ∈ args, P p) → P (.invoke name args))
    (group : ∀ inner, P inner → P (.group inner))
    (minus : ∀ operand, P operand → P (.minus operand))
    (not : ∀ operand, P operand → P (.not operand))
    (binary : ∀ op left right, P left → P right → P (.binary op left right)) : ∀ p, P p
  | .number digits => number digits
  | .negative digits => negative digits
  | .text content => text content
  | .signal name => signal name
  | .presence kind names => presence kind names
  | .call op args => call op args fun p _ =>
    induction number negative text signal presence call invoke group minus not binary p
  | .invoke name args => invoke name args fun p _ =>
    induction number negative text signal presence call invoke group minus not binary p
  | .group inner => group inner
    (induction number negative text signal presence call invoke group minus not binary inner)
  | .minus operand => minus operand
    (induction number negative text signal presence call invoke group minus not binary operand)
  | .not operand => not operand
    (induction number negative text signal presence call invoke group minus not binary operand)
  | .binary op left right => binary op left right
    (induction number negative text signal presence call invoke group minus not binary left)
    (induction number negative text signal presence call invoke group minus not binary right)

/-- Lists of lexemes with a comma between each two of them. -/
def Lexeme.listed : List (List Lexeme) → List Lexeme
  | [] => []
  | [xs] => xs
  | xs :: ys :: rest => xs ++ .symbol ',' :: listed (ys :: rest)

theorem Lexeme.mem_listed {xs : List Lexeme} {xss : List (List Lexeme)} (hxs : xs ∈ xss)
    {x : Lexeme} (hx : x ∈ xs) : x ∈ Lexeme.listed xss := by
  fun_induction Lexeme.listed xss with
  | case1 => cases hxs
  | case2 ys => rwa [← List.mem_singleton.1 hxs]
  | case3 ys zs rest ih =>
    rcases List.mem_cons.1 hxs with rfl | hxs
    · exact List.mem_append_left _ hx
    · exact List.mem_append_right _ (List.mem_cons_of_mem _ (ih hxs))

/-- Lexemes in parentheses. -/
def Lexeme.enclosed (xs : List Lexeme) : List Lexeme := .symbol '(' :: (xs ++ [.symbol ')'])

namespace Phrase

mutual

/-- The lexemes that spell a phrase. -/
def yield : Phrase → List Lexeme
  | number digits => [⟨.number, digits⟩]
  | negative digits => [.symbol '-', ⟨.number, digits⟩]
  | text content => [⟨.string, content⟩]
  | signal name => [⟨.identifier, name⟩]
  | presence kind names =>
    ⟨.keyword, (Operator.presence kind).infixed⟩ ::
      Lexeme.enclosed (Lexeme.listed (names.map fun name => [⟨.identifier, name⟩]))
  | call op args => ⟨.keyword, op.infixed⟩ :: Lexeme.enclosed (Lexeme.listed (yieldAll args))
  | invoke name args => ⟨.identifier, name⟩ :: Lexeme.enclosed (Lexeme.listed (yieldAll args))
  | group inner => Lexeme.enclosed (yield inner)
  | minus operand => .symbol '-' :: yield operand
  | not operand => ⟨.keyword, "not"⟩ :: yield operand
  | binary op left right => yield left ++ op.lexeme :: yield right

/-- The lexemes of each of several phrases. -/
def yieldAll : List Phrase → List (List Lexeme)
  | [] => []
  | p :: ps => yield p :: yieldAll ps

end

theorem yieldAll_eq_map (ps : List Phrase) : yieldAll ps = ps.map yield := by
  induction ps with
  | nil => rfl
  | cons p ps ih => rw [yieldAll, ih, List.map_cons]

/-- The lexemes of an argument stand between the parentheses of a call. -/
theorem mem_enclosed_yieldAll {p : Phrase} {ps : List Phrase} (hp : p ∈ ps) {x : Lexeme}
    (hx : x ∈ p.yield) : x ∈ Lexeme.enclosed (Lexeme.listed (yieldAll ps)) := by
  have hmem : p.yield ∈ yieldAll ps := yieldAll_eq_map ps ▸ List.mem_map_of_mem hp
  simp [Lexeme.enclosed, Lexeme.mem_listed hmem hx]

/-- The names that are checked stand between the parentheses of the check. -/
theorem mem_enclosed_names {name : String} {names : List String} (hname : name ∈ names) :
    ⟨.identifier, name⟩ ∈
      Lexeme.enclosed (Lexeme.listed (names.map fun n => [⟨.identifier, n⟩])) := by
  have hmem : [⟨.identifier, name⟩] ∈ names.map fun n => [(⟨.identifier, n⟩ : Lexeme)] :=
    List.mem_map_of_mem hname
  simp [Lexeme.enclosed, Lexeme.mem_listed hmem]

mutual

/-- The expression that a phrase stands for, built from its leaves upwards; groups vanish. -/
def build (ctx : Context) : Phrase → Except Cause Expr
  | number digits => unplaced (Context.number digits default)
  | negative digits => unplaced (Context.number ("-" ++ digits) default)
  | text content => .ok (.constant (.string content) default)
  | signal name => unplaced (ctx.signal name default)
  | presence kind names =>
    unplaced (ctx.apply (.presence kind) (names.map fun name => .symbol name default) default)
  | call op args => do
    let operands ← buildAll ctx args
    unplaced (ctx.apply op operands default)
  | invoke name args => do
    let operands ← buildAll ctx args
    unplaced (ctx.action name operands default)
  | group inner => build ctx inner
  | minus operand => do
    let e ← build ctx operand
    unplaced (ctx.apply (.arithmetic .neg) [e] default)
  | not operand => do
    let e ← build ctx operand
    unplaced (ctx.apply (.connective .not) [e] default)
  | binary op left right => do
    let a ← build ctx left
    let b ← build ctx right
    unplaced (ctx.apply op [a, b] default)

/-- The expressions that several phrases stand for, built from the left. -/
def buildAll (ctx : Context) : List Phrase → Except Cause (List Expr)
  | [] => .ok []
  | p :: ps => do
    let e ← build ctx p
    let es ← buildAll ctx ps
    return e :: es

end

/-- How tightly the topmost part of a phrase binds. -/
def power : Phrase → Nat
  | minus _ => (Operator.arithmetic .neg).precedence
  | not _ => (Operator.connective .not).precedence
  | binary op _ _ => op.precedence
  | _ => Operator.atomPrecedence

/-- Whether the topmost part of a phrase is a binary operator. -/
def isBinary : Phrase → Bool
  | binary .. => true
  | _ => false

/-- Every operator of a phrase stands between or in front of operands that bind tightly enough to be
read as its operands. -/
inductive RespectsPrecedence : Phrase → Prop
  | number (digits : String) : RespectsPrecedence (number digits)
  | negative (digits : String) : RespectsPrecedence (negative digits)
  | text (content : String) : RespectsPrecedence (text content)
  | signal (name : String) : RespectsPrecedence (signal name)
  | presence (kind : Presence) (names : List String) : RespectsPrecedence (presence kind names)
  | call {op : Operator} {args : List Phrase} (hop : op.isCall)
      (hargs : ∀ p ∈ args, RespectsPrecedence p) : RespectsPrecedence (call op args)
  | invoke (name : String) {args : List Phrase} (hargs : ∀ p ∈ args, RespectsPrecedence p) :
      RespectsPrecedence (invoke name args)
  | group {inner : Phrase} (hinner : RespectsPrecedence inner) : RespectsPrecedence (group inner)
  | minus {operand : Phrase} (hoperand : RespectsPrecedence operand)
      (hpower : (Operator.arithmetic .neg).operandPrecedence ≤ operand.power)
      (hnumber : ∀ digits, operand ≠ .number digits) : RespectsPrecedence (minus operand)
  | not {operand : Phrase} (hoperand : RespectsPrecedence operand)
      (hpower : (Operator.connective .not).operandPrecedence ≤ operand.power ∨
        ∃ inner, operand = .not inner) : RespectsPrecedence (not operand)
  | binary {op : Operator} {left right : Phrase} (hop : op.isBinary)
      (hleft : RespectsPrecedence left) (hright : RespectsPrecedence right)
      (hl : op.precedence ≤ left.power) (hr : op.precedence < right.power) :
      RespectsPrecedence (binary op left right)

/-- A binary operator at the top binds less tightly than a minus sign. -/
theorem RespectsPrecedence.power_lt_of_isBinary {p : Phrase} (h : p.RespectsPrecedence)
    (hbinary : p.isBinary) : p.power < (Operator.arithmetic .neg).precedence := by
  cases h with
  | @binary op _ _ hop => exact Operator.precedence_lt_of_isBinary op hop
  | _ => exact absurd hbinary (by simp [isBinary])

/-- What stands behind a `not` is no looser than a `not`, and no looser than a comparison if it has
a binary operator at the top. -/
theorem power_of_not {operand : Phrase}
    (h : (Operator.connective .not).operandPrecedence ≤ operand.power ∨
      ∃ inner, operand = .not inner) :
    (operand.isBinary → (Operator.connective .not).operandPrecedence ≤ operand.power) ∧
      (Operator.connective .not).precedence ≤ operand.power := by
  rcases h with h | ⟨inner, rfl⟩
  · exact ⟨fun _ => h, Nat.le_of_succ_le h⟩
  · exact ⟨by simp [isBinary], Nat.le_refl _⟩

end Phrase

end SignalRules
