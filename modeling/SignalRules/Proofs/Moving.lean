import SignalRules.Proofs.Built
import SignalRules.Proofs.Lexeme

/-!
# Moving spans

The checked constructors hand on the spans of operands and give a node the span that they are told.
So an expression can be moved: if all the spans that go into building it are moved, what is built is
moved as well. The readers put spans together by taking the smallest span around two others, and a
relocation is a map of spans that keeps those.

## Main definitions

* `Relocation`, with `Relocation.ahead` and `Relocation.back`.
* `Token.move`, `Expr.move`: a token and an expression whose spans are moved.
* `Expr.Contains`: the nodes of an expression.

## Main results

* `Context.apply_move`, `Context.action_move`: moved operands build the moved node.
* `Expr.move_back_move_ahead`: moving back what was moved ahead.
-/

namespace SignalRules

/-- A map of spans that keeps the smallest span around two others. -/
structure Relocation where
  /-- Where a span is moved to. -/
  place : Span → Span
  place_merge : ∀ a b, place (a.merge b) = (place a).merge (place b)

namespace Relocation

/-- Nothing is moved. -/
def stay : Relocation := ⟨id, fun _ _ => rfl⟩

/-- Everything is moved to the right. -/
def ahead (delta : Nat) : Relocation :=
  ⟨fun s => s.shift delta, fun a b => Span.shift_merge a b delta⟩

theorem sub_merge (a b : Span) (delta : Nat) :
    (⟨(a.merge b).start - delta, (a.merge b).stop - delta⟩ : Span) =
      Span.merge ⟨a.start - delta, a.stop - delta⟩ ⟨b.start - delta, b.stop - delta⟩ := by
  simp only [Span.merge, Span.mk.injEq]
  omega

/-- Everything is moved to the left. -/
def back (delta : Nat) : Relocation :=
  ⟨fun s => ⟨s.start - delta, s.stop - delta⟩, fun a b => sub_merge a b delta⟩

theorem ahead_back {delta : Nat} {s : Span} (hstart : delta ≤ s.start) (hstop : delta ≤ s.stop) :
    (ahead delta).place ((back delta).place s) = s := by
  simp [ahead, back, Span.shift, Nat.sub_add_cancel hstart, Nat.sub_add_cancel hstop]

end Relocation

/-- The token at another place. -/
def Token.move (m : Relocation) (t : Token) : Token := ⟨t.kind, t.text, m.place t.span⟩

@[simp] theorem Token.lexeme_move (m : Relocation) (t : Token) : (t.move m).lexeme = t.lexeme := rfl

@[simp] theorem Token.span_move (m : Relocation) (t : Token) :
    (t.move m).span = m.place t.span := rfl

@[simp] theorem Token.move_stay (t : Token) : t.move .stay = t := rfl

namespace Expr

mutual

/-- The expression with all spans moved. -/
def move (m : Relocation) : Expr → Expr
  | node span head operands => node (m.place span) head (moveAll m operands)

/-- Several expressions with all spans moved. -/
def moveAll (m : Relocation) : List Expr → List Expr
  | [] => []
  | e :: es => move m e :: moveAll m es

end

/-- The nodes of an expression. -/
inductive Contains : Expr → Expr → Prop
  | root (e : Expr) : Contains e e
  | operand {e c n : Expr} (hc : c ∈ e.operands) (h : Contains c n) : Contains e n

variable {m : Relocation}

theorem moveAll_eq_map (m : Relocation) (es : List Expr) : moveAll m es = es.map (move m) := by
  induction es with
  | nil => rfl
  | cons e es ih => rw [moveAll, ih, List.map_cons]

@[simp] theorem move_node (span : Span) (head : Head) (operands : List Expr) :
    (node span head operands).move m = node (m.place span) head (operands.map (move m)) := by
  rw [move, moveAll_eq_map]

@[simp] theorem head_move (e : Expr) : (e.move m).head = e.head := by
  cases e
  simp [head]

@[simp] theorem span_move (e : Expr) : (e.move m).span = m.place e.span := by
  cases e
  simp [span]

@[simp] theorem operands_move (e : Expr) : (e.move m).operands = e.operands.map (move m) := by
  cases e
  simp [operands]

@[simp] theorem span_constant (v : Value) (s : Span) : (constant v s).span = s := rfl

@[simp] theorem type_move (e : Expr) : (e.move m).type = e.type := by
  rw [type, head_move, type]

@[simp] theorem span_withSpan (s : Span) (e : Expr) : (e.withSpan s).span = s := by
  cases e
  rfl

@[simp] theorem move_withSpan (s : Span) (e : Expr) :
    (e.withSpan s).move m = (e.move m).withSpan (m.place s) := by
  cases e
  simp [withSpan]

@[simp] theorem move_constant (v : Value) (s : Span) :
    (constant v s).move m = constant v (m.place s) := by
  simp [constant]

@[simp] theorem move_symbol (name : String) (s : Span) :
    (symbol name s).move m = symbol name (m.place s) := by
  simp [symbol]

theorem map_head_move (es : List Expr) : (es.map (move m)).map head = es.map head := by
  simp [Function.comp_def]

@[simp] theorem move_stay (e : Expr) : e.move .stay = e := by
  induction e using node_induction with
  | step span head operands ih =>
    simp only [move_node, node.injEq, true_and]
    exact ⟨rfl, (List.map_congr_left ih).trans (List.map_id operands)⟩

/-- Moving back what was moved ahead changes nothing, if there was room. -/
theorem move_back_move_ahead {delta : Nat} {e : Expr}
    (h : ∀ n, e.Contains n → delta ≤ n.span.start ∧ delta ≤ n.span.stop) :
    (e.move (.back delta)).move (.ahead delta) = e := by
  induction e using node_induction with
  | step span head operands ih =>
    obtain ⟨hstart, hstop⟩ := h _ (.root _)
    simp only [move_node, List.map_map, node.injEq, true_and]
    refine ⟨Relocation.ahead_back hstart hstop, ?_⟩
    refine (List.map_congr_left fun e he => ?_).trans (List.map_id operands)
    exact ih e he fun n hn => h n (.operand he hn)

end Expr

/-! ### Building -/

variable {ctx : Context} (m : Relocation)

theorem map_move_flatten (same : Head → Bool) (es : List Expr) :
    (flatten same es).map (Expr.move m) = flatten same (es.map (Expr.move m)) := by
  simp only [flatten, List.map_flatMap, List.flatMap_map]
  refine List.flatMap_congr fun e _ => ?_
  split <;> simp_all

/-- An operator becomes the same node for moved operands. -/
theorem Built.move {op : Operator} {es es' : List Expr} {head : Head}
    (h : Built ctx op es head es') :
    Built ctx op (es.map (Expr.move m)) head (es'.map (Expr.move m)) := by
  cases h with
  | comparison h hab hba =>
    exact .comparison (by simpa using h) (by simpa using hab) (by simpa using hba)
  | signalLiteral h ha hb hallowed =>
    simp only [List.map_cons, List.map_nil, Expr.move_constant, ← Expr.span_move]
    exact .signalLiteral (by simpa using h) (by simpa using ha) (by simpa using hb) hallowed
  | literalSignal h ha hb hallowed =>
    simp only [List.map_cons, List.map_nil, Expr.move_constant, ← Expr.span_move]
    exact .literalSignal (by simpa using h) (by simpa using ha) (by simpa using hb) hallowed
  | @connective op _ hcount h =>
    have hmerge : (op.merge es).map (Expr.move m) = op.merge (es.map (Expr.move m)) := by
      unfold Connective.merge
      split_ifs
      · exact map_move_flatten m _ es
      · rfl
    rw [hmerge]
    exact .connective (by simpa using hcount) (by simpa using h)
  | @arithmetic op _ hcount h =>
    have hmerge : (op.merge es).map (Expr.move m) = op.merge (es.map (Expr.move m)) := by
      unfold Arithmetic.merge
      split_ifs
      · exact map_move_flatten m _ es
      · rfl
    rw [hmerge]
    exact .arithmetic (by simpa using hcount) (by simpa using h)
  | concat hcount h => exact .concat (by simpa using hcount) (by simpa using h)
  | property hop he hp hfits => exact .property hop (by simpa using he) hp hfits
  | element hop hcount he hp hfits hi =>
    exact .element hop hcount (by simpa using he) hp hfits (by simpa using hi)
  | presence hne h => exact .presence hne ((Expr.map_head_move es).trans h)
  | signal he hs => exact .signal (by simpa using he) hs
  | action he ha => exact .action (by simpa using he) (by rwa [Expr.map_head_move])

namespace Context

variable {e : Expr} {es : List Expr} {s : Span}

theorem number_move {text : String} (h : number text s = .ok e) :
    number text (m.place s) = .ok (e.move m) := by
  obtain ⟨n, hn, rfl⟩ := number_eq_ok_iff.1 h
  exact number_eq_ok_iff.2 ⟨n, hn, Expr.move_constant _ _⟩

theorem signal_move {name : String} (h : ctx.signal name s = .ok e) :
    ctx.signal name (m.place s) = .ok (e.move m) := by
  obtain ⟨declaration, hs, rfl⟩ := signal_eq_ok_iff.1 h
  exact signal_eq_ok_iff.2 ⟨declaration, hs, by simp⟩

/-- Moved arguments make the moved call. -/
theorem action_move {written : String} (h : ctx.action written es s = .ok e) :
    ctx.action written (es.map (Expr.move m)) (m.place s) = .ok (e.move m) := by
  obtain ⟨declaration, ha, rfl⟩ := action_eq_ok_iff.1 h
  exact action_eq_ok_iff.2 ⟨declaration, by rwa [Expr.map_head_move], by simp⟩

/-- Moved operands make the moved node. -/
theorem apply_move {op : Operator} (h : ctx.apply op es s = .ok e) :
    ctx.apply op (es.map (Expr.move m)) (m.place s) = .ok (e.move m) := by
  obtain ⟨head, es', hbuilt, rfl⟩ := apply_eq_ok_iff.1 h
  exact apply_eq_ok_iff.2 ⟨head, es'.map (Expr.move m), hbuilt.move m, by simp⟩

end Context

end SignalRules
