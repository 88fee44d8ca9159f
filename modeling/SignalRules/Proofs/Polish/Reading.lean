import SignalRules.Parser.Polish
import SignalRules.Proofs.Lexeme

/-!
# Reading Polish sources by their lexemes

Up to places, what the readers of the Polish grammar answer depends on the lexemes of the tokens
only. So the readers can be followed on lists of lexemes, where their equations speak of
expressions without spans and of causes without places.

## Main definitions

* `Polish.readExpression`, `Polish.readForm`, `Polish.readOperands`: the readers on lexemes.

## Main results

* `Polish.seen_expression`: a reader answers what it answers on the lexemes of the tokens.
-/

namespace SignalRules.Polish

variable (ctx : Context)

/-- Up to places, the readers answer alike on lists of `n` tokens with the same lexemes. -/
structure PlaceFree (n : Nat) : Prop where
  form : ∀ (f g : Nat) (s t : Span) {us vs : List Token}, us.length = n →
    us.map Token.lexeme = vs.map Token.lexeme →
    seen (form ctx f s us) = seen (form ctx g t vs)
  expression : ∀ (f g : Nat) {us vs : List Token}, us.length = n →
    us.map Token.lexeme = vs.map Token.lexeme →
    seen (expression ctx f us) = seen (expression ctx g vs)
  operands : ∀ (f g : Nat) (s t : Span) {us vs : List Token}, us.length = n →
    us.map Token.lexeme = vs.map Token.lexeme →
    seenAll (operands ctx f s us) = seenAll (operands ctx g t vs)

section Step

variable {ctx} {n : Nat} (ih : ∀ m < n, PlaceFree ctx m) {us vs : List Token}
  (hn : us.length = n) (h : us.map Token.lexeme = vs.map Token.lexeme)
include ih hn h

private theorem form_congr (f g : Nat) (s t : Span) :
    seen (form ctx f s us) = seen (form ctx g t vs) := by
  rcases lexemes_cases h with ⟨rfl, rfl⟩ | ⟨u, us, v, vs, rfl, rfl, hu, h⟩
  · rw [form, form]
    rfl
  have hlt : us.length < n := by simp at hn; omega
  rw [form, form, ← Token.kind_eq hu, ← Token.text_eq hu]
  split_ifs
  · cases Operator.ofKeyword? u.text with
    | none => rfl
    | some op =>
      refine unplacedBy_bind_congr ((ih _ hlt).operands f g s t rfl h) ?_
      rintro ⟨⟨as, s'⟩, us', hu'⟩ ⟨⟨bs, t'⟩, vs', hv'⟩ hview
      obtain ⟨has, h'⟩ := Prod.mk.inj hview
      refine unplacedBy_bind_congr (ctx.unplaced_apply_congr op has _ _) fun e e' he => ?_
      simp [pure, Except.pure, unplacedBy, he, h']
  · exact congrArg Except.error (unplaced_unexpectedToken hu _)

private theorem expression_congr (f g : Nat) :
    seen (expression ctx f us) = seen (expression ctx g vs) := by
  rcases lexemes_cases h with ⟨rfl, rfl⟩ | ⟨u, us, v, vs, rfl, rfl, hu, h⟩
  · rw [expression, expression]
    rfl
  have hlt : us.length < n := by simp at hn; omega
  rw [expression, expression, ← Token.kind_eq hu, ← Token.text_eq hu, ← Token.isSymbol_congr hu]
  cases u.kind with
  | symbol =>
    dsimp only
    split_ifs
    · refine unplacedBy_bind_congr ((ih _ hlt).form f g u.span v.span rfl h) ?_
      exact fun _ _ hview => congrArg Except.ok hview
    · exact congrArg Except.error (unplaced_unexpectedToken hu _)
  | number =>
    refine unplacedBy_bind_congr (Context.unplaced_number u.text u.span v.span) fun e e' he => ?_
    simp [pure, Except.pure, unplacedBy, he, h]
  | string => simp [unplacedBy, h]
  | identifier => simp [unplacedBy, h]
  | keyword => rfl

private theorem operands_congr
    (hexpression : ∀ f g : Nat, seen (expression ctx f us) = seen (expression ctx g vs))
    (f g : Nat) (s t : Span) :
    seenAll (operands ctx f s us) = seenAll (operands ctx g t vs) := by
  rcases lexemes_cases h with ⟨rfl, rfl⟩ | ⟨u, us, v, vs, rfl, rfl, hu, h⟩
  · rw [operands, operands]
    rfl
  rw [operands, operands, ← Token.isSymbol_congr hu]
  split_ifs
  · simp [unplacedBy, h]
  · refine unplacedBy_bind_congr (hexpression f g) ?_
    rintro ⟨a, us', hu'⟩ ⟨b, vs', hv'⟩ hview
    obtain ⟨hab, h'⟩ := Prod.mk.inj hview
    refine unplacedBy_bind_congr ((ih us'.length (by omega)).operands f g s t rfl h') ?_
    rintro ⟨⟨as, s'⟩, us'', hu''⟩ ⟨⟨bs, t'⟩, vs'', hv''⟩ hview
    simpa [pure, Except.pure, unplacedBy, hab] using hview

end Step

/-- The spans of tokens do not matter to the readers, up to places. -/
theorem placeFree (n : Nat) : PlaceFree ctx n := by
  induction n using Nat.strongRecOn with
  | ind n ih =>
    have hexpression (f g : Nat) {us vs : List Token} (hn : us.length = n)
        (h : us.map Token.lexeme = vs.map Token.lexeme) :
        seen (expression ctx f us) = seen (expression ctx g vs) := expression_congr ih hn h f g
    exact {
      form := fun f g s t _ _ hn h => form_congr ih hn h f g s t
      expression := hexpression
      operands := fun f g s t _ _ hn h =>
        operands_congr ih hn h (hexpression · · hn h) f g s t }

/-! ### The readers on lexemes -/

/-- What is read from lexemes as an expression. -/
def readExpression (xs : List Lexeme) : Except Cause (Expr × List Lexeme) :=
  seen (expression ctx 0 (xs.map Lexeme.token))

/-- What is read from lexemes as a form behind its opening parenthesis. -/
def readForm (xs : List Lexeme) : Except Cause (Expr × List Lexeme) :=
  seen (form ctx 0 default (xs.map Lexeme.token))

/-- What is read from lexemes as operands up to a closing parenthesis. -/
def readOperands (xs : List Lexeme) : Except Cause (List Expr × List Lexeme) :=
  seenAll (operands ctx 0 default (xs.map Lexeme.token))

theorem seen_expression (finish : Nat) (us : List Token) :
    seen (expression ctx finish us) = readExpression ctx (us.map Token.lexeme) :=
  (placeFree ctx us.length).expression finish 0 rfl (by simp)

@[simp] theorem readExpression_nil :
    readExpression ctx [] = .error (.unexpectedEnd .expression) := by
  rw [readExpression, List.map_nil, expression]
  rfl

theorem readExpression_cons (x : Lexeme) (xs : List Lexeme) :
    readExpression ctx (x :: xs) =
      match x.kind with
      | .symbol =>
        if x = .symbol '(' then readForm ctx xs
        else .error (.unexpectedToken .expression x.kind x.text)
      | .number => unplaced (Context.number x.text default) >>= fun e => .ok (e, xs)
      | .string => .ok (.constant (.string x.text) default, xs)
      | .identifier => .ok (.symbol x.text default, xs)
      | .keyword => .error (.misplacedKeyword x.text) := by
  obtain ⟨kind, text⟩ := x
  rw [readExpression, List.map_cons, expression]
  dsimp only [Lexeme.token]
  cases kind with
  | symbol =>
    simp only [Token.isSymbol_iff]
    split_ifs with hopen hopen' hopen'
    · exact unplacedBy_bind_pure fun _ => rfl
    · exact absurd hopen hopen'
    · exact absurd hopen' hopen
    · rfl
  | number =>
    refine unplacedBy_bind fun e => ?_
    simp [pure, Except.pure, unplacedBy]
  | string => simp [unplacedBy]
  | identifier => simp [unplacedBy]
  | keyword => rfl

@[simp] theorem readForm_nil : readForm ctx [] = .error .unclosedForm := by
  rw [readForm, List.map_nil, form]
  rfl

theorem readForm_cons (x : Lexeme) (xs : List Lexeme) :
    readForm ctx (x :: xs) =
      if x.kind = .keyword then
        match Operator.ofKeyword? x.text with
        | none => .error (.unknownOperator x.text)
        | some op =>
          readOperands ctx xs >>= fun r =>
            unplaced (ctx.apply op r.1 default) >>= fun e => .ok (e, r.2)
      else .error (.unexpectedToken .operatorKeyword x.kind x.text) := by
  obtain ⟨kind, text⟩ := x
  rw [readForm, List.map_cons, form]
  by_cases hkind : kind = .keyword
  · have hkind' : (Lexeme.token ⟨kind, text⟩).kind = .keyword := hkind
    rw [if_pos hkind, if_pos hkind']
    dsimp only [Lexeme.token]
    cases Operator.ofKeyword? text with
    | none => rfl
    | some op =>
      refine unplacedBy_bind ?_
      rintro ⟨⟨args, closing⟩, rest, h⟩
      rw [Taken.view_mk, ← ctx.unplaced_apply op args (Span.merge default closing) default]
      refine unplacedBy_bind fun e => ?_
      simp [pure, Except.pure, unplacedBy]
  · have hkind' : (Lexeme.token ⟨kind, text⟩).kind ≠ .keyword := hkind
    rw [if_neg hkind, if_neg hkind']
    rfl

@[simp] theorem readOperands_nil : readOperands ctx [] = .error .unclosedForm := by
  rw [readOperands, List.map_nil, operands]
  rfl

theorem readOperands_cons (x : Lexeme) (xs : List Lexeme) :
    readOperands ctx (x :: xs) =
      if x = .symbol ')' then .ok ([], xs)
      else readExpression ctx (x :: xs) >>= fun r =>
        readOperands ctx r.2 >>= fun q => .ok (r.1 :: q.1, q.2) := by
  rw [readOperands, List.map_cons, operands]
  simp only [Token.isSymbol_iff, lexeme_token]
  split_ifs
  · simp [unplacedBy]
  · refine unplacedBy_bind ?_
    rintro ⟨e, us, h⟩
    rw [Taken.view_mk]
    have hrest : readOperands ctx (us.map Token.lexeme) = seenAll (operands ctx 0 default us) :=
      ((placeFree ctx us.length).operands 0 0 default default rfl (by simp)).symm
    dsimp only
    rw [hrest]
    refine unplacedBy_bind ?_
    rintro ⟨⟨es, closing⟩, us', h'⟩
    simp [pure, Except.pure, unplacedBy]

end SignalRules.Polish
