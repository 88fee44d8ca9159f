import SignalRules.Parser.Algebraic
import SignalRules.Proofs.Lexeme

/-!
# Reading algebraic sources by their lexemes

Up to places, what the readers of the algebraic grammar answer depends on the lexemes of the tokens
only. The readers call each other on shorter and shorter lists of tokens, so this is proved for all
of them at once, by induction on the number of tokens. They can then be followed on lists of
lexemes, each by one equation: an operand with the unary operators in front of it is extended by the
binary operators behind it that bind tightly enough, and operands are literals, names, calls and
groups.

## Main definitions

* `Algebraic.PlaceFree`: the readers do not depend on the spans of tokens.
* `Algebraic.readExpression`, `Algebraic.readClimb`, `Algebraic.readUnary`, `Algebraic.readPrimary`,
  `Algebraic.readArguments`, `Algebraic.readItems`: the readers on lexemes.

## Main results

* `Algebraic.placeFree`: the spans of tokens do not matter, up to places.
* `Algebraic.seen_expression`: a reader answers what it answers on the lexemes of the tokens.
* `Algebraic.readExpression_eq`, `Algebraic.readClimb_cons`, `Algebraic.readPrimary_cons`,
  `Algebraic.readArguments_eq`, `Algebraic.readItems_eq`: the equations of the readers.
-/

namespace SignalRules.Algebraic

theorem binary?_congr {t u : Token} (h : t.lexeme = u.lexeme) : binary? t = binary? u := by
  rw [binary?, binary?, isOperatorToken, isOperatorToken, Token.kind_eq h, Token.text_eq h]

theorem unary?_congr {t u : Token} (h : t.lexeme = u.lexeme) : unary? t = unary? u := by
  rw [unary?, unary?, isOperatorToken, isOperatorToken, Token.kind_eq h, Token.text_eq h]

private theorem bareName_congr {us vs : List Token}
    (h : us.map Token.lexeme = vs.map Token.lexeme) (f g : Nat) :
    seen (bareName f us) = seen (bareName g vs) := by
  rcases lexemes_cases h with ⟨rfl, rfl⟩ | ⟨u, us, v, vs, rfl, rfl, hu, h⟩
  · rfl
  rw [bareName, bareName, ← Token.kind_eq hu]
  split_ifs
  · simp [unplacedBy, h, Token.text_eq hu]
  · exact congrArg Except.error (unplaced_unexpectedToken hu _)

variable (ctx : Context)

/-- Up to places, the readers answer alike on lists of `n` tokens with the same lexemes. -/
structure PlaceFree (n : Nat) : Prop where
  climb : ∀ (f g least : Nat) {a b : Expr} {us vs : List Token}, us.length = n →
    us.map Token.lexeme = vs.map Token.lexeme → a.erase = b.erase →
    seenKept (climb ctx f least a us) = seenKept (climb ctx g least b vs)
  arguments : ∀ (f g : Nat) (names : Bool) {us vs : List Token}, us.length = n →
    us.map Token.lexeme = vs.map Token.lexeme →
    seenAll (arguments ctx f names us) = seenAll (arguments ctx g names vs)
  primary : ∀ (f g : Nat) {us vs : List Token}, us.length = n →
    us.map Token.lexeme = vs.map Token.lexeme →
    seen (primary ctx f us) = seen (primary ctx g vs)
  unary : ∀ (f g : Nat) {us vs : List Token}, us.length = n →
    us.map Token.lexeme = vs.map Token.lexeme → seen (unary ctx f us) = seen (unary ctx g vs)
  expression : ∀ (f g least : Nat) {us vs : List Token}, us.length = n →
    us.map Token.lexeme = vs.map Token.lexeme →
    seen (expression ctx f least us) = seen (expression ctx g least vs)
  items : ∀ (f g : Nat) (names : Bool) {us vs : List Token}, us.length = n →
    us.map Token.lexeme = vs.map Token.lexeme →
    seenAll (items ctx f names us) = seenAll (items ctx g names vs)

section Step

variable {ctx} {n : Nat} (ih : ∀ m < n, PlaceFree ctx m) {us vs : List Token}
  (hn : us.length = n) (h : us.map Token.lexeme = vs.map Token.lexeme)
include ih hn h

private theorem climb_congr (f g least : Nat) {a b : Expr} (hab : a.erase = b.erase) :
    seenKept (climb ctx f least a us) = seenKept (climb ctx g least b vs) := by
  rcases lexemes_cases h with ⟨rfl, rfl⟩ | ⟨u, us, v, vs, rfl, rfl, hu, h⟩
  · simp [climb, unplacedBy, hab]
  rw [climb, climb, binary?_congr hu]
  cases binary? v with
  | none => simp [unplacedBy, hab, hu, h]
  | some op =>
    dsimp only
    split_ifs
    · simp [unplacedBy, hab, hu, h]
    have hlt : us.length < n := by simp at hn; omega
    refine unplacedBy_bind_congr ((ih _ hlt).expression f g (op.precedence + 1) rfl h) ?_
    rintro ⟨r, us', hu'⟩ ⟨r', vs', hv'⟩ hview
    obtain ⟨hr, h'⟩ := Prod.mk.inj hview
    refine unplacedBy_bind_congr (ctx.unplaced_apply_congr op (by simp [hab, hr]) _ _) ?_
    intro e e' he
    refine unplacedBy_bind_congr ((ih us'.length (by omega)).climb f g least rfl h' he) ?_
    exact fun _ _ hview => congrArg Except.ok hview

private theorem arguments_congr (f g : Nat) (names : Bool) :
    seenAll (arguments ctx f names us) = seenAll (arguments ctx g names vs) := by
  rw [arguments, arguments]
  refine unplacedBy_bind_congr (expectSymbol_congr '(' .openParen f g h) ?_
  rintro ⟨_, us', hu'⟩ ⟨_, vs', hv'⟩ h'
  have hclose := expectSymbol_congr ')' .closeParen f g h'
  dsimp only
  revert hclose
  rcases expectSymbol ')' .closeParen f us' with e | ⟨_, us'', hu''⟩ <;>
    rcases expectSymbol ')' .closeParen g vs' with e' | ⟨_, vs'', hv''⟩ <;>
    simp only [unplacedBy, Except.error.injEq, Except.ok.injEq, reduceCtorEq, false_implies]
  · intro _
    refine unplacedBy_bind_congr ((ih _ (by omega)).items f g names rfl h') ?_
    exact fun _ _ hview => congrArg Except.ok hview
  · intro h''
    simp [pure, Except.pure, h'']

private theorem primary_congr (f g : Nat) :
    seen (primary ctx f us) = seen (primary ctx g vs) := by
  rcases lexemes_cases h with ⟨rfl, rfl⟩ | ⟨u, us, v, vs, rfl, rfl, hu, h⟩
  · rw [primary, primary]
    rfl
  have hlt : us.length < n := by simp at hn; omega
  rw [primary, primary, ← Token.kind_eq hu, ← Token.text_eq hu, ← startsWith_congr h,
    ← Token.isSymbol_congr hu]
  cases u.kind with
  | number =>
    refine unplacedBy_bind_congr (Context.unplaced_number u.text u.span v.span) fun e e' he => ?_
    simp [pure, Except.pure, unplacedBy, he, h]
  | string => simp [unplacedBy, h]
  | symbol =>
    dsimp only
    split_ifs
    · refine unplacedBy_bind_congr ((ih _ hlt).expression f g 0 rfl h) ?_
      rintro ⟨e, us', hu'⟩ ⟨e', vs', hv'⟩ hview
      obtain ⟨he, h'⟩ := Prod.mk.inj hview
      refine unplacedBy_bind_congr (expectSymbol_congr ')' .closeParen f g h') ?_
      rintro ⟨_, us'', hu''⟩ ⟨_, vs'', hv''⟩ hview
      simpa [pure, Except.pure, unplacedBy, he] using hview
    · exact congrArg Except.error (unplaced_unexpectedToken hu _)
  | keyword =>
    dsimp only
    cases Operator.ofCall? u.text with
    | none => exact congrArg Except.error (unplaced_unexpectedToken hu _)
    | some op =>
      refine unplacedBy_bind_congr ((ih _ hlt).arguments f g (takesNames op) rfl h) ?_
      rintro ⟨⟨as, s⟩, us', hu'⟩ ⟨⟨bs, t⟩, vs', hv'⟩ hview
      obtain ⟨has, h'⟩ := Prod.mk.inj hview
      refine unplacedBy_bind_congr (ctx.unplaced_apply_congr op has _ _) fun e e' he => ?_
      simp [pure, Except.pure, unplacedBy, he, h']
  | identifier =>
    dsimp only
    split_ifs
    · refine unplacedBy_bind_congr ((ih _ hlt).arguments f g false rfl h) ?_
      rintro ⟨⟨as, s⟩, us', hu'⟩ ⟨⟨bs, t⟩, vs', hv'⟩ hview
      obtain ⟨has, h'⟩ := Prod.mk.inj hview
      refine unplacedBy_bind_congr (ctx.unplaced_action_congr u.text has _ _) fun e e' he => ?_
      simp [pure, Except.pure, unplacedBy, he, h']
    · refine unplacedBy_bind_congr (ctx.unplaced_signal u.text u.span v.span) fun e e' he => ?_
      simp [pure, Except.pure, unplacedBy, he, h]

omit hn in
/-- The readers answer alike on the operand of an operator. -/
private theorem operator_congr (op : Operator) {u v : Token} (hlt : us.length < n)
    (f g : Nat) :
    seen (do
      let ⟨operand, rest, h⟩ ← expression ctx f op.operandPrecedence us
      let e ← ctx.apply op [operand] (u.span.merge operand.span)
      return ⟨e, rest, Nat.lt_succ_of_lt h⟩ : Except ParseError (Taken Expr (u :: us))) =
    seen (do
      let ⟨operand, rest, h⟩ ← expression ctx g op.operandPrecedence vs
      let e ← ctx.apply op [operand] (v.span.merge operand.span)
      return ⟨e, rest, Nat.lt_succ_of_lt h⟩ : Except ParseError (Taken Expr (v :: vs))) := by
  refine unplacedBy_bind_congr ((ih _ hlt).expression f g op.operandPrecedence rfl h) ?_
  rintro ⟨a, us', hu'⟩ ⟨b, vs', hv'⟩ hview
  obtain ⟨hab, h'⟩ := Prod.mk.inj hview
  refine unplacedBy_bind_congr (ctx.unplaced_apply_congr op (by simp [hab]) _ _) ?_
  intro e e' he
  simp [pure, Except.pure, unplacedBy, he, h']

private theorem unary_congr
    (hprimary : ∀ f g : Nat, seen (primary ctx f us) = seen (primary ctx g vs)) (f g : Nat) :
    seen (unary ctx f us) = seen (unary ctx g vs) := by
  rcases lexemes_cases h with ⟨rfl, rfl⟩ | ⟨u, us, v, vs, rfl, rfl, hu, h⟩
  · rw [unary, unary]
    rfl
  have hlt : us.length < n := by simp at hn; omega
  rw [unary, unary, unary?_congr hu]
  cases unary? v with
  | none => exact hprimary f g
  | some op =>
    dsimp only
    rcases lexemes_cases h with ⟨rfl, rfl⟩ | ⟨u', us', v', vs', rfl, rfl, hu', h'⟩
    · exact operator_congr ih h op hlt f g
    · simp only [negatedNumber?, ← Token.kind_eq hu']
      split_ifs
      · simp only [Taken.first]
        rw [← Token.text_eq hu']
        refine unplacedBy_bind_congr (Context.unplaced_number _ _ _) fun e e' he => ?_
        simp [pure, Except.pure, unplacedBy, he, h']
      · exact operator_congr ih h op hlt f g

omit h in
private theorem expression_congr
    (hunary : ∀ f g : Nat, seen (unary ctx f us) = seen (unary ctx g vs)) (f g least : Nat) :
    seen (expression ctx f least us) = seen (expression ctx g least vs) := by
  rw [expression, expression]
  refine unplacedBy_bind_congr (hunary f g) ?_
  rintro ⟨a, us', hu'⟩ ⟨b, vs', hv'⟩ hview
  obtain ⟨hab, h'⟩ := Prod.mk.inj hview
  refine unplacedBy_bind_congr ((ih us'.length (by omega)).climb f g least rfl h' hab) ?_
  exact fun _ _ hview => congrArg Except.ok hview

private theorem items_congr
    (hexpression : ∀ f g least : Nat,
      seen (expression ctx f least us) = seen (expression ctx g least vs))
    (f g : Nat) (names : Bool) :
    seenAll (items ctx f names us) = seenAll (items ctx g names vs) := by
  have hname := bareName_congr h f g
  have hexpr := hexpression f g 0
  rw [items, items]
  split_ifs
  all_goals
    refine unplacedBy_bind_congr (by assumption) ?_
    rintro ⟨a, us', hu'⟩ ⟨b, vs', hv'⟩ hview
    obtain ⟨hab, h'⟩ := Prod.mk.inj hview
    have hcomma := expectSymbol_congr ',' .commaOrClose f g h'
    dsimp only
    revert hcomma
    rcases expectSymbol ',' .commaOrClose f us' with e | ⟨_, us'', hu''⟩ <;>
      rcases expectSymbol ',' .commaOrClose g vs' with e' | ⟨_, vs'', hv''⟩ <;>
      simp only [unplacedBy, Except.error.injEq, Except.ok.injEq, reduceCtorEq, false_implies]
    · intro _
      refine unplacedBy_bind_congr (expectSymbol_congr ')' .commaOrClose f g h') ?_
      rintro ⟨_, us'', hu''⟩ ⟨_, vs'', hv''⟩ hview
      simpa [pure, Except.pure, unplacedBy, hab] using hview
    · intro h''
      refine unplacedBy_bind_congr ((ih us''.length (by omega)).items f g _ rfl h'') ?_
      rintro ⟨⟨as, s⟩, us₃, hu₃⟩ ⟨⟨bs, t⟩, vs₃, hv₃⟩ hview
      simpa [pure, Except.pure, unplacedBy, hab] using hview

end Step

/-- The spans of tokens do not matter to the readers, up to places. -/
theorem placeFree (n : Nat) : PlaceFree ctx n := by
  induction n using Nat.strongRecOn with
  | ind n ih =>
    have hprimary (f g : Nat) {us vs : List Token} (hn : us.length = n)
        (h : us.map Token.lexeme = vs.map Token.lexeme) :
        seen (primary ctx f us) = seen (primary ctx g vs) := primary_congr ih hn h f g
    have hunary (f g : Nat) {us vs : List Token} (hn : us.length = n)
        (h : us.map Token.lexeme = vs.map Token.lexeme) :
        seen (unary ctx f us) = seen (unary ctx g vs) :=
      unary_congr ih hn h (hprimary · · hn h) f g
    have hexpression (f g least : Nat) {us vs : List Token} (hn : us.length = n)
        (h : us.map Token.lexeme = vs.map Token.lexeme) :
        seen (expression ctx f least us) = seen (expression ctx g least vs) :=
      expression_congr ih hn (hunary · · hn h) f g least
    exact {
      climb := fun f g least _ _ _ _ hn h hab => climb_congr ih hn h f g least hab
      arguments := fun f g names _ _ hn h => arguments_congr ih hn h f g names
      primary := hprimary
      unary := hunary
      expression := hexpression
      items := fun f g names _ _ hn h =>
        items_congr ih hn h (hexpression · · · hn h) f g names }

/-! ### The readers on lexemes -/

/-- What is read from lexemes as an expression whose operators have at least the power `least`. -/
def readExpression (least : Nat) (xs : List Lexeme) : Except Cause (Expr × List Lexeme) :=
  seen (expression ctx 0 least (xs.map Lexeme.token))

/-- How an operand is extended by the operators among the lexemes behind it. -/
def readClimb (least : Nat) (left : Expr) (xs : List Lexeme) : Except Cause (Expr × List Lexeme) :=
  seenKept (climb ctx 0 least left (xs.map Lexeme.token))

/-- What is read from lexemes as an operand with unary operators. -/
def readUnary (xs : List Lexeme) : Except Cause (Expr × List Lexeme) :=
  seen (unary ctx 0 (xs.map Lexeme.token))

/-- What is read from lexemes as an operand. -/
def readPrimary (xs : List Lexeme) : Except Cause (Expr × List Lexeme) :=
  seen (primary ctx 0 (xs.map Lexeme.token))

/-- What is read from lexemes as arguments in parentheses. -/
def readArguments (names : Bool) (xs : List Lexeme) : Except Cause (List Expr × List Lexeme) :=
  seenAll (arguments ctx 0 names (xs.map Lexeme.token))

/-- What is read from lexemes as arguments behind an opening parenthesis. -/
def readItems (names : Bool) (xs : List Lexeme) : Except Cause (List Expr × List Lexeme) :=
  seenAll (items ctx 0 names (xs.map Lexeme.token))

theorem seen_expression (finish least : Nat) (us : List Token) :
    seen (expression ctx finish least us) = readExpression ctx least (us.map Token.lexeme) :=
  (placeFree ctx us.length).expression finish 0 least rfl (by simp)

private theorem seenKept_climb (finish least : Nat) (left : Expr) (us : List Token) :
    seenKept (climb ctx finish least left us) =
      readClimb ctx least left.erase (us.map Token.lexeme) :=
  (placeFree ctx us.length).climb finish 0 least rfl (by simp) (by simp)

private theorem seenAll_items (finish : Nat) (names : Bool) (us : List Token) :
    seenAll (items ctx finish names us) = readItems ctx names (us.map Token.lexeme) :=
  (placeFree ctx us.length).items finish 0 names rfl (by simp)

theorem readExpression_eq (least : Nat) (xs : List Lexeme) :
    readExpression ctx least xs =
      readUnary ctx xs >>= fun r => readClimb ctx least r.1 r.2 := by
  rw [readExpression, expression]
  refine unplacedBy_bind ?_
  rintro ⟨left, rest, h⟩
  rw [Taken.view_mk, ← seenKept_climb ctx 0]
  exact unplacedBy_bind_pure fun _ => rfl

@[simp] theorem readClimb_nil (least : Nat) (left : Expr) :
    readClimb ctx least left [] = .ok (left.erase, []) := by
  rw [readClimb, List.map_nil, climb]
  rfl

theorem readClimb_cons (least : Nat) (left : Expr) (x : Lexeme) (xs : List Lexeme) :
    readClimb ctx least left (x :: xs) =
      match binary? x.token with
      | none => .ok (left.erase, x :: xs)
      | some op =>
        if op.precedence < least then .ok (left.erase, x :: xs)
        else readExpression ctx (op.precedence + 1) xs >>= fun r =>
          unplaced (ctx.apply op [left, r.1] default) >>= fun e =>
            readClimb ctx least e r.2 := by
  rw [readClimb, List.map_cons, climb]
  cases binary? x.token with
  | none => simp [unplacedBy]
  | some op =>
    dsimp only
    split_ifs
    · simp [unplacedBy]
    refine unplacedBy_bind ?_
    rintro ⟨right, rest, h⟩
    have happly := ctx.unplaced_apply_congr op (show [left, right].map Expr.erase =
      [left, right.erase].map Expr.erase by simp) (left.span.merge right.span) default
    rw [Taken.view_mk, ← happly]
    refine unplacedBy_bind fun e => ?_
    rw [← seenKept_climb ctx 0]
    exact unplacedBy_bind_pure fun _ => rfl

/-! ### Operands -/

@[simp] theorem readUnary_nil : readUnary ctx [] = .error (.unexpectedEnd .expression) := by
  rw [readUnary, List.map_nil, unary]
  rfl

theorem readUnary_primary {x : Lexeme} (h : unary? x.token = none) (xs : List Lexeme) :
    readUnary ctx (x :: xs) = readPrimary ctx (x :: xs) := by
  rw [readUnary, List.map_cons, unary, h]
  rfl

theorem readUnary_negative {x y : Lexeme} (h : unary? x.token = some (.arithmetic .neg))
    (hy : y.kind = .number) (ys : List Lexeme) :
    readUnary ctx (x :: y :: ys) =
      unplaced (Context.number ("-" ++ y.text) default) >>= fun e => .ok (e, ys) := by
  rw [readUnary, List.map_cons, List.map_cons, unary, h]
  have hkind : y.token.kind = .number := hy
  simp only [negatedNumber?, hkind, and_self, if_true, Taken.first]
  rw [Context.unplaced_number _ default (x.token.span.merge y.token.span)]
  refine unplacedBy_bind fun e => ?_
  simp [pure, Except.pure, unplacedBy]

/-- A unary operator takes an operand, unless it is a minus sign directly in front of a number. -/
theorem readUnary_operator {x : Lexeme} {op : Operator} (h : unary? x.token = some op)
    {xs : List Lexeme} (hxs : op = .arithmetic .neg → ∀ y ∈ xs.head?, y.kind ≠ .number) :
    readUnary ctx (x :: xs) =
      readExpression ctx op.operandPrecedence xs >>= fun r =>
        unplaced (ctx.apply op [r.1] default) >>= fun e => .ok (e, r.2) := by
  have hnone : negatedNumber? op (xs.map Lexeme.token) = none := by
    cases xs with
    | nil => rfl
    | cons y ys =>
      rw [List.map_cons, negatedNumber?, if_neg]
      rintro ⟨hop, hy⟩
      exact hxs hop y rfl hy
  rw [readUnary, List.map_cons, unary, h]
  dsimp only
  rw [hnone]
  refine unplacedBy_bind ?_
  rintro ⟨operand, rest, hlt⟩
  have happly := ctx.unplaced_apply_congr op (show [operand].map Expr.erase =
    [operand.erase].map Expr.erase by simp) (x.token.span.merge operand.span) default
  rw [Taken.view_mk, ← happly]
  refine unplacedBy_bind fun e => ?_
  simp [pure, Except.pure, unplacedBy]

@[simp] theorem readPrimary_nil : readPrimary ctx [] = .error (.unexpectedEnd .expression) := by
  rw [readPrimary, List.map_nil, primary]
  rfl

theorem readPrimary_cons (x : Lexeme) (xs : List Lexeme) :
    readPrimary ctx (x :: xs) =
      match x.kind with
      | .number => unplaced (Context.number x.text default) >>= fun e => .ok (e, xs)
      | .string => .ok (.constant (.string x.text) default, xs)
      | .symbol =>
        if x = .symbol '(' then
          readExpression ctx 0 xs >>= fun r =>
            readSymbol ')' .closeParen r.2 >>= fun rest => .ok (r.1, rest)
        else .error (.unexpectedToken .expression x.kind x.text)
      | .keyword =>
        match Operator.ofCall? x.text with
        | none => .error (.unexpectedToken .expression x.kind x.text)
        | some op =>
          readArguments ctx (takesNames op) xs >>= fun r =>
            unplaced (ctx.apply op r.1 default) >>= fun e => .ok (e, r.2)
      | .identifier =>
        if xs.head? = some (.symbol '(') then
          readArguments ctx false xs >>= fun r =>
            unplaced (ctx.action x.text r.1 default) >>= fun e => .ok (e, r.2)
        else unplaced (ctx.signal x.text default) >>= fun e => .ok (e, xs) := by
  have hstart : startsWith '(' (xs.map Lexeme.token) = true ↔ xs.head? = some (.symbol '(') := by
    cases xs <;> simp [startsWith, Token.isSymbol_iff]
  obtain ⟨kind, text⟩ := x
  rw [readPrimary, List.map_cons, primary]
  dsimp only [Lexeme.token]
  cases kind with
  | number =>
    refine unplacedBy_bind fun e => ?_
    simp [pure, Except.pure, unplacedBy]
  | string => simp [unplacedBy]
  | symbol =>
    simp only [Token.isSymbol_iff]
    split_ifs with hopen hopen' hopen'
    · refine unplacedBy_bind ?_
      rintro ⟨inner, rest, h⟩
      rw [Taken.view_mk, ← unplacedBy_expectSymbol _ _ 0]
      refine unplacedBy_bind ?_
      rintro ⟨closing, rest', h'⟩
      simp [pure, Except.pure, unplacedBy]
    · exact absurd hopen hopen'
    · exact absurd hopen' hopen
    · rfl
  | keyword =>
    dsimp only
    cases Operator.ofCall? text with
    | none => rfl
    | some op =>
      refine unplacedBy_bind ?_
      rintro ⟨⟨args, closing⟩, rest, h⟩
      rw [Taken.view_mk, ← ctx.unplaced_apply op args (Span.merge default closing) default]
      refine unplacedBy_bind fun e => ?_
      simp [pure, Except.pure, unplacedBy]
  | identifier =>
    simp only [hstart]
    split_ifs
    · refine unplacedBy_bind ?_
      rintro ⟨⟨args, closing⟩, rest, h⟩
      rw [Taken.view_mk, ← ctx.unplaced_action text args (Span.merge default closing) default]
      refine unplacedBy_bind fun e => ?_
      simp [pure, Except.pure, unplacedBy]
    · refine unplacedBy_bind fun e => ?_
      simp [pure, Except.pure, unplacedBy]

/-! ### Arguments -/

theorem readArguments_eq (names : Bool) (xs : List Lexeme) :
    readArguments ctx names xs =
      readSymbol '(' .openParen xs >>= fun ys =>
        match readSymbol ')' .closeParen ys with
        | .ok rest => .ok ([], rest)
        | .error _ => readItems ctx names ys := by
  have hopen := unplacedBy_expectSymbol '(' .openParen 0 (xs.map Lexeme.token)
  rw [List.map_map, lexeme_comp_token, List.map_id] at hopen
  rw [readArguments, arguments, ← hopen]
  refine unplacedBy_bind ?_
  rintro ⟨_, us, h⟩
  dsimp only
  rw [← unplacedBy_expectSymbol _ _ 0 us]
  rcases expectSymbol ')' .closeParen 0 us with e | ⟨_, us', h'⟩
  · dsimp only [unplacedBy]
    rw [← seenAll_items ctx 0]
    exact unplacedBy_bind_pure fun _ => rfl
  · simp [unplacedBy, pure, Except.pure]

/-- What is read from lexemes as a bare name. -/
def readName : List Lexeme → Except Cause (Expr × List Lexeme)
  | [] => .error (.unexpectedEnd .name)
  | x :: xs =>
    if x.kind = .identifier then .ok (.symbol x.text default, xs)
    else .error (.unexpectedToken .name x.kind x.text)

private theorem seen_bareName (xs : List Lexeme) :
    seen (bareName 0 (xs.map Lexeme.token)) = readName xs := by
  rcases xs with _ | ⟨⟨kind, text⟩, xs⟩
  · rfl
  · rw [List.map_cons, bareName, readName]
    by_cases hkind : kind = .identifier
    · simp [hkind, Lexeme.token, unplacedBy]
    · have hkind' : (Lexeme.token ⟨kind, text⟩).kind ≠ .identifier := hkind
      rw [if_neg hkind, if_neg hkind']
      rfl

theorem readItems_eq (names : Bool) (xs : List Lexeme) :
    readItems ctx names xs =
      (if names then readName xs else readExpression ctx 0 xs) >>= fun r =>
        match readSymbol ',' .commaOrClose r.2 with
        | .ok rest => readItems ctx names rest >>= fun q => .ok (r.1 :: q.1, q.2)
        | .error _ => readSymbol ')' .commaOrClose r.2 >>= fun rest => .ok ([r.1], rest) := by
  rw [readItems, items, ← seen_bareName]
  split_ifs
  all_goals
    refine unplacedBy_bind ?_
    rintro ⟨e, us, h⟩
    dsimp only [Taken.view_mk]
    rw [← unplacedBy_expectSymbol _ _ 0 us]
    rcases expectSymbol ',' .commaOrClose 0 us with err | ⟨_, us', h'⟩
    · dsimp only [unplacedBy]
      rw [← unplacedBy_expectSymbol _ _ 0 us]
      refine unplacedBy_bind ?_
      rintro ⟨_, us', h'⟩
      simp [pure, Except.pure, unplacedBy]
    · dsimp only [unplacedBy]
      rw [← seenAll_items ctx 0]
      refine unplacedBy_bind ?_
      rintro ⟨⟨es, closing⟩, us'', h''⟩
      simp [pure, Except.pure, unplacedBy]

end SignalRules.Algebraic
