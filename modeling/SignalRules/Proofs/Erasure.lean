import Mathlib.Data.List.Basic
import Mathlib.Tactic.SplitIfs
import SignalRules.Expr.Build

/-!
# Expressions without their spans

Two expressions are the same up to spans if they agree once every span is forgotten. The checked
constructors look at the heads of their operands and never at their spans, so forgetting spans
before or after building makes no difference, neither to the expression that is built nor to the
cause of a refusal.

## Main definitions

* `Expr.erase`: the expression with every span forgotten.
* `unplaced`: an answer without the places in it.

## Main results

* `Context.unplaced_apply_congr`, `Context.unplaced_action_congr`: building does not look at spans.
-/

namespace SignalRules

namespace Expr

/-- To prove something of every expression, prove it of a node from the same of its operands. -/
theorem node_induction {P : Expr → Prop}
    (step : ∀ span head operands, (∀ e ∈ operands, P e) → P (node span head operands)) :
    ∀ e, P e
  | node span head operands => step span head operands fun e _ => node_induction step e

@[simp] theorem head_constant (v : Value) (span : Span) :
    (constant v span).head = .constant v := rfl

@[simp] theorem head_symbol (name : String) (span : Span) :
    (symbol name span).head = .symbol name := rfl

mutual

/-- The expression with every span forgotten. -/
def erase : Expr → Expr
  | node _ head operands => node default head (eraseAll operands)

/-- Several expressions with every span forgotten. -/
def eraseAll : List Expr → List Expr
  | [] => []
  | e :: es => erase e :: eraseAll es

end

theorem eraseAll_eq_map (es : List Expr) : eraseAll es = es.map erase := by
  induction es with
  | nil => rfl
  | cons e es ih => rw [eraseAll, ih, List.map_cons]

@[simp] theorem erase_node (span : Span) (head : Head) (operands : List Expr) :
    (node span head operands).erase = node default head (operands.map erase) := by
  rw [erase, eraseAll_eq_map]

@[simp] theorem head_erase (e : Expr) : e.erase.head = e.head := by
  cases e
  simp [head]

@[simp] theorem operands_erase (e : Expr) : e.erase.operands = e.operands.map erase := by
  cases e
  simp [operands]

@[simp] theorem type_erase (e : Expr) : e.erase.type = e.type := by
  rw [type, head_erase, type]

@[simp] theorem erase_withSpan (span : Span) (e : Expr) : (e.withSpan span).erase = e.erase := by
  cases e
  simp [withSpan]

@[simp] theorem erase_constant (v : Value) (span : Span) :
    (constant v span).erase = constant v default := by
  simp [constant]

@[simp] theorem erase_symbol (name : String) (span : Span) :
    (symbol name span).erase = symbol name default := by
  simp [symbol]

@[simp] theorem erase_erase (e : Expr) : e.erase.erase = e.erase := by
  induction e using node_induction with
  | step span head operands ih =>
    simp only [erase_node, List.map_map, node.injEq, true_and]
    exact List.map_congr_left ih

theorem head_eq_of_erase_eq {a b : Expr} (h : a.erase = b.erase) : a.head = b.head := by
  rw [← head_erase a, h, head_erase]

end Expr

/-- An answer without the places in it: `f` forgets those of a result, and a refusal keeps only its
cause. -/
def unplacedBy {α β : Type} (f : α → β) : Except ParseError α → Except Cause β
  | .ok a => .ok (f a)
  | .error e => .error e.cause

section Sequence

variable {α α' β β' γ δ : Type} {f : α → γ} {f' : α' → γ} {g : β → δ} {g' : β' → δ}

/-- Computations that answer alike, up to places, and go on alike answer alike in the end. -/
theorem unplacedBy_bind_congr {p : Except ParseError α} {q : Except ParseError α'}
    {k : α → Except ParseError β} {k' : α' → Except ParseError β'}
    (h : unplacedBy f p = unplacedBy f' q)
    (hk : ∀ a a', f a = f' a' → unplacedBy g (k a) = unplacedBy g' (k' a')) :
    unplacedBy g (p >>= k) = unplacedBy g' (q >>= k') := by
  cases p <;> cases q <;> simp only [unplacedBy, Except.error.injEq, Except.ok.injEq,
    reduceCtorEq] at h
  · simp [bind, Except.bind, unplacedBy, h]
  · exact hk _ _ h

/-- If what follows depends on a result up to places only, places can be forgotten in between. -/
theorem unplacedBy_bind {p : Except ParseError α} {k : α → Except ParseError β}
    {next : γ → Except Cause δ} (hk : ∀ a, unplacedBy g (k a) = next (f a)) :
    unplacedBy g (p >>= k) = unplacedBy f p >>= next := by
  cases p with
  | error e => rfl
  | ok a => exact hk a

/-- A last step that changes nothing up to places can be left out. -/
theorem unplacedBy_bind_pure {p : Except ParseError α} {k : α → β} {f : α → δ}
    (hk : ∀ a, g (k a) = f a) : unplacedBy g (p >>= fun a => pure (k a)) = unplacedBy f p := by
  cases p with
  | error e => rfl
  | ok a => exact congrArg Except.ok (hk a)

end Sequence

/-- A sequence of two steps succeeds if both do. -/
theorem bind_eq_ok_iff {ε α β : Type} {x : Except ε α} {k : α → Except ε β} {b : β} :
    x >>= k = .ok b ↔ ∃ a, x = .ok a ∧ k a = .ok b := by
  cases x <;> simp [bind, Except.bind]

theorem map_eq_ok_iff {ε α β : Type} {x : Except ε α} {f : α → β} {b : β} :
    x.map f = .ok b ↔ ∃ a, x = .ok a ∧ f a = b := by
  cases x <;> simp [Except.map]

@[simp] theorem ok_bind {ε α β : Type} (a : α) (k : α → Except ε β) :
    (Except.ok a >>= k) = k a := rfl

@[simp] theorem error_bind {ε α β : Type} (e : ε) (k : α → Except ε β) :
    ((Except.error e : Except ε α) >>= k) = .error e := rfl

/-- The answer of a builder without places. -/
abbrev unplaced : Except ParseError Expr → Except Cause Expr := unplacedBy Expr.erase

@[simp] theorem unplaced_ok (e : Expr) : unplaced (.ok e) = .ok e.erase := rfl

@[simp] theorem unplaced_located (cause : Cause) (span : Span) :
    unplaced (.error (.located cause span)) = .error cause := rfl

theorem unplaced_eq_ok_iff {answer : Except ParseError Expr} {e : Expr} :
    unplaced answer = .ok e ↔ ∃ e', answer = .ok e' ∧ e'.erase = e := by
  cases answer with
  | error err => simp [unplacedBy]
  | ok e' => simp

/-- An answer without places has no spans. -/
theorem erase_of_unplaced {answer : Except ParseError Expr} {e : Expr}
    (h : unplaced answer = .ok e) : e.erase = e := by
  obtain ⟨e', -, rfl⟩ := unplaced_eq_ok_iff.1 h
  exact e'.erase_erase

/-- Splicing commutes with forgetting spans. -/
theorem map_erase_flatten (same : Head → Bool) (es : List Expr) :
    (flatten same es).map Expr.erase = flatten same (es.map Expr.erase) := by
  induction es with
  | nil => rfl
  | cons e es ih =>
    simp only [flatten, List.flatMap_cons, List.map_append, List.map_cons,
      Expr.head_erase] at ih ⊢
    rw [ih]
    split <;> simp

namespace Context

variable (ctx : Context)

theorem unplaced_signal (name : String) (s t : Span) :
    unplaced (ctx.signal name s) = unplaced (ctx.signal name t) := by
  unfold signal resolve
  cases ctx.host.signal? name with
  | error notice => rfl
  | ok found => simp [Except.mapError, bind, Except.bind, pure, Except.pure]

theorem unplaced_number (text : String) (s t : Span) :
    unplaced (number text s) = unplaced (number text t) := by
  unfold number
  cases Fixed.parse? text.toList with
  | none => rfl
  | some n => simp

/-! ### Operators -/

private theorem find?_map_erase (p : Expr → Bool) (hp : ∀ e, p e.erase = p e) (es : List Expr) :
    (es.map Expr.erase).find? p = (es.find? p).map Expr.erase := by
  rw [List.find?_map]
  congr 2
  funext e
  exact hp e

theorem unplaced_connective (op : Connective) (es : List Expr) (s t : Span) :
    unplaced (ctx.connective op es s) =
      unplaced (ctx.connective op (es.map Expr.erase) t) := by
  unfold connective
  rw [find?_map_erase _ (by simp)]
  cases es.find? fun e => e.type ≠ .boolean with
  | some e => simp
  | none =>
    simp only [Option.map_none, unplaced_ok, Expr.erase_node]
    split <;> simp [map_erase_flatten, Function.comp_def]

theorem unplaced_arithmetic (op : Arithmetic) (es : List Expr) (s t : Span) :
    unplaced (ctx.arithmetic op es s) =
      unplaced (ctx.arithmetic op (es.map Expr.erase) t) := by
  unfold arithmetic
  rw [find?_map_erase _ (by simp)]
  cases es.find? fun e => e.type ≠ .value .number with
  | some e => simp
  | none =>
    simp only [Option.map_none, unplaced_ok, Expr.erase_node]
    split <;> simp [map_erase_flatten, Function.comp_def]

theorem unplaced_concat (es : List Expr) (s t : Span) :
    unplaced (ctx.concat es s) = unplaced (ctx.concat (es.map Expr.erase) t) := by
  unfold concat
  rw [find?_map_erase _ (by simp [isValue])]
  cases es.find? fun e => !isValue e with
  | some e => simp
  | none => simp [Function.comp_def]

/-- A settled literal, or the cause of its refusal, is the same without spans. -/
theorem unplaced_settleLiteral (signal other : Expr) :
    unplaced (ctx.settleLiteral signal other) =
      unplaced (ctx.settleLiteral signal.erase other.erase) := by
  unfold settleLiteral
  simp only [Expr.head_erase]
  cases signal.head <;> cases other.head <;> simp
  split <;> simp

/-- The part of a comparison behind its checks: the literal beside a signal is settled. -/
def settledPair (op : Comparison) (a b : Expr) (s : Span) : Except ParseError Expr :=
  match a.head with
  | .signal _ => (ctx.settleLiteral a b).map fun b => .node s (.comparison op) [a, b]
  | _ => (ctx.settleLiteral b a).map fun a => .node s (.comparison op) [a, b]

private theorem unplaced_settledPair (op : Comparison) (a b : Expr) (s t : Span) :
    unplaced (ctx.settledPair op a b s) = unplaced (ctx.settledPair op a.erase b.erase t) := by
  have hab := ctx.unplaced_settleLiteral a b
  have hba := ctx.unplaced_settleLiteral b a
  unfold settledPair
  rw [Expr.head_erase]
  split
  · revert hab
    cases ctx.settleLiteral a b <;> cases ctx.settleLiteral a.erase b.erase <;>
      simp [unplacedBy, Except.map]
  · revert hba
    cases ctx.settleLiteral b a <;> cases ctx.settleLiteral b.erase a.erase <;>
      simp [unplacedBy, Except.map]

theorem comparison_eq (op : Comparison) (a b : Expr) (s : Span) :
    ctx.comparison op a b s =
      match a.type, b.type with
      | .value l, .value r =>
        if l ≠ r then .error (.located (.incomparable l r) s)
        else if op.isRelational && l == .string then
          .error (.located (.unorderedString (ctx.spelling (.comparison op))) s)
        else ctx.settledPair op a b s
      | .value _, found =>
        .error (.located (.valueExpected (ctx.spelling (.comparison op)) found) b.span)
      | found, _ =>
        .error (.located (.valueExpected (ctx.spelling (.comparison op)) found) a.span) := by
  unfold comparison valueType settledPair
  cases a.type <;> cases b.type <;>
    simp [bind, Except.bind, throw, throwThe, MonadExceptOf.throw, pure, Except.pure]
  rfl

theorem unplaced_comparison (op : Comparison) (a b : Expr) (s t : Span) :
    unplaced (ctx.comparison op a b s) =
      unplaced (ctx.comparison op a.erase b.erase t) := by
  rw [comparison_eq, comparison_eq, Expr.type_erase, Expr.type_erase]
  cases a.type with
  | value l =>
    cases b.type with
    | value r =>
      dsimp only
      split_ifs
      · rfl
      · rfl
      · exact ctx.unplaced_settledPair op a b s t
    | _ => rfl
  | _ => rfl

theorem unplaced_property (op : Operator) (es : List Expr) (s t : Span) :
    unplaced (ctx.property op es s) = unplaced (ctx.property op (es.map Expr.erase) t) := by
  unfold property resolve
  cases es with
  | nil => rfl
  | cons e rest =>
    obtain ⟨span, head, operands⟩ := e
    cases head with
    | constant v =>
      cases v with
      | string reference =>
        simp only [List.map_cons, Expr.erase_node, List.head?_map, Option.isSome_map]
        cases ctx.host.property? reference with
        | error notice => rfl
        | ok p =>
          simp only [Except.mapError, bind, Except.bind]
          cases modeError? (ctx.spelling op) (propertyMode op rest.head?.isSome) p with
          | some cause => rfl
          | none =>
            cases rest.head? with
            | none => rfl
            | some i =>
              by_cases hi : i.type = .value .number
              · simp [hi, pure, Except.pure]
              · simp [hi, throw, throwThe, MonadExceptOf.throw]
      | _ => rfl
    | _ => rfl

theorem unplaced_presence (kind : Presence) (es : List Expr) (s t : Span) :
    unplaced (ctx.presence kind es s) = unplaced (ctx.presence kind (es.map Expr.erase) t) := by
  have hnames : bareNames (es.map Expr.erase) = (bareNames es).mapError Expr.erase := by
    induction es with
    | nil => rfl
    | cons e es ih =>
      obtain ⟨span, head, operands⟩ := e
      cases head with
      | symbol name =>
        simp only [List.map_cons, Expr.erase_node, bareNames, ih]
        cases bareNames es <;> rfl
      | _ => simp [bareNames, Except.mapError]
  unfold presence
  rw [hnames]
  cases bareNames es with
  | error e => simp [Except.mapError]
  | ok names => simp [Except.mapError]

private theorem cause_argumentError? (a : Action) (name : String) (args : List Expr) :
    (argumentError? a name (args.map Expr.erase)).map ParseError.cause =
      (argumentError? a name args).map ParseError.cause := by
  unfold argumentError?
  rw [List.zipIdx_map, List.findSome?_map, List.map_findSome?, List.map_findSome?]
  congr 1
  funext ⟨arg, i⟩
  simp only [Function.comp_apply, Prod.map, id_eq, Expr.type_erase]
  cases a.parameter? i with
  | none => rfl
  | some p =>
    dsimp only
    split_ifs
    · rfl
    · rfl

theorem action_eq (written : String) (args : List Expr) (s : Span) :
    ctx.action written args s =
      match ctx.host.action? (splitOnce written).1 with
      | .error notice => .error (.located (.unresolved notice) s)
      | .ok a =>
        if a.arity.accepts args.length then
          match argumentError? a (splitOnce written).1 args with
          | some e => .error e
          | none => .ok (.node s (.action a (splitOnce written).2) args)
        else .error (.located (.argumentCount (splitOnce written).1 a.arity args.length) s) := by
  unfold action resolve
  obtain ⟨name, once⟩ := splitOnce written
  dsimp only
  cases ctx.host.action? name with
  | error notice => rfl
  | ok a =>
    by_cases hcount : a.arity.accepts args.length
    · simp only [Except.mapError, bind, Except.bind, hcount]
      rfl
    · simp [Except.mapError, bind, Except.bind, hcount, throw, throwThe, MonadExceptOf.throw]

theorem unplaced_action (written : String) (args : List Expr) (s t : Span) :
    unplaced (ctx.action written args s) =
      unplaced (ctx.action written (args.map Expr.erase) t) := by
  rw [action_eq, action_eq]
  cases ctx.host.action? (splitOnce written).1 with
  | error notice => rfl
  | ok a =>
    have harg := cause_argumentError? a (splitOnce written).1 args
    dsimp only
    rw [List.length_map]
    split_ifs
    · revert harg
      cases argumentError? a (splitOnce written).1 args <;>
        cases argumentError? a (splitOnce written).1 (args.map Expr.erase) <;>
        simp [unplacedBy]
      exact Eq.symm
    · rfl

theorem unplaced_apply (op : Operator) (es : List Expr) (s t : Span) :
    unplaced (ctx.apply op es s) = unplaced (ctx.apply op (es.map Expr.erase) t) := by
  unfold apply
  rw [List.length_map]
  by_cases hcount : op.arity.accepts es.length
  swap
  · simp [hcount]
  simp only [hcount]
  cases op with
  | comparison c =>
    rcases es with _ | ⟨a, _ | ⟨b, _ | ⟨d, es⟩⟩⟩
    · rfl
    · rfl
    · exact ctx.unplaced_comparison c a b s t
    · simp
  | connective c => exact ctx.unplaced_connective c es s t
  | arithmetic c => exact ctx.unplaced_arithmetic c es s t
  | concat => exact ctx.unplaced_concat es s t
  | getNumber => exact ctx.unplaced_property _ es s t
  | getString => exact ctx.unplaced_property _ es s t
  | getLength => exact ctx.unplaced_property _ es s t
  | presence kind => exact ctx.unplaced_presence kind es s t
  | signal =>
    rcases es with _ | ⟨⟨span, head, operands⟩, es⟩
    · rfl
    · cases head with
      | symbol name => simpa using ctx.unplaced_signal name s t
      | _ => rfl
  | action =>
    rcases es with _ | ⟨⟨span, head, operands⟩, es⟩
    · rfl
    · cases head with
      | symbol name => simpa using ctx.unplaced_action name es s t
      | _ => rfl

/-- What an operator makes of operands depends on their spans, and on the span of the node, for
spans only. -/
theorem unplaced_apply_congr (op : Operator) {as bs : List Expr}
    (h : as.map Expr.erase = bs.map Expr.erase) (s t : Span) :
    unplaced (ctx.apply op as s) = unplaced (ctx.apply op bs t) := by
  rw [ctx.unplaced_apply op as s default, h, ← ctx.unplaced_apply op bs t default]

/-- What a call becomes depends on the spans of its arguments for spans only. -/
theorem unplaced_action_congr (written : String) {as bs : List Expr}
    (h : as.map Expr.erase = bs.map Expr.erase) (s t : Span) :
    unplaced (ctx.action written as s) = unplaced (ctx.action written bs t) := by
  rw [ctx.unplaced_action written as s default, h, ← ctx.unplaced_action written bs t default]

end Context

end SignalRules
