import SignalRules.Proofs.Rebuilding

/-!
# Enforcing options

A strict context refuses a literal beside a signal that is not among the signal's options. Reading
the same source in a strict and in a lenient context therefore goes the same way until the first
such literal, and a literal that was refused would still stand in the expression that the lenient
context reads: merging splices conditions and sums, but it never drops a comparison. So the strict
context reads exactly the expressions of the lenient one whose literals are all among the options.

## Main definitions

* `Expr.Compares`: an expression compares a signal with a literal somewhere.
* `Comparand`, `Expr.comparands`: the literals beside signals, listed.
* `Filters`: how a strict reading and a lenient one go together.

## Main results

* `Filters.bind`: readings that go together step by step go together.
* `Context.filters_apply`: building goes together.
* `Context.parse_strict_filters`: strict reading is lenient reading, less what has a literal that is
  not among the options.
-/

namespace SignalRules

/-- Somewhere in an expression, the signal `s` is compared with the literal `v` at `place`. -/
inductive Expr.Compares (s : Signal) (v : Value) (place : Span) : Expr → Prop
  | right {span : Span} {op : Comparison} {a b : Expr} (ha : a.head = .signal s)
      (hb : b.head = .constant v) (hplace : b.span = place) :
      Compares s v place (.node span (.comparison op) [a, b])
  | left {span : Span} {op : Comparison} {a b : Expr} (ha : a.head = .constant v)
      (hb : b.head = .signal s) (hplace : a.span = place) :
      Compares s v place (.node span (.comparison op) [a, b])
  | operand {span : Span} {head : Head} {es : List Expr} {e : Expr} (he : e ∈ es)
      (h : Compares s v place e) : Compares s v place (.node span head es)

/-- A literal beside a signal. -/
structure Comparand where
  /-- The signal. -/
  signal : Signal
  /-- The literal. -/
  literal : Value
  /-- The place of the literal. -/
  span : Span

namespace Comparand

/-- The literal is among the options of the signal, if they are limited. -/
def Allowed (c : Comparand) : Prop := ∀ options ∈ c.signal.options, c.literal ∈ options

/-- The error about a literal that is not among the options. -/
def refusal (c : Comparand) : ParseError :=
  .located (.optionRefused c.literal.text c.signal.name) c.span

theorem allows_iff {c : Comparand} : c.signal.allows c.literal ↔ c.Allowed := by
  unfold Signal.allows Allowed
  cases c.signal.options <;> simp

end Comparand

/-! ### The literals beside signals -/

/-- The second operand, if it is a literal and the first one is a signal. -/
def Expr.beside (a b : Expr) : List Comparand :=
  match a.head, b.head with
  | .signal s, .constant v => [⟨s, v, b.span⟩]
  | _, _ => []

/-- The literals that a node puts beside a signal. -/
def Head.comparands : Head → List Expr → List Comparand
  | comparison _, [a, b] => a.beside b ++ b.beside a
  | _, _ => []

theorem Head.comparands_signalLiteral {a : Expr} {s : Signal} (ha : a.head = .signal s)
    (op : Comparison) (v : Value) (place : Span) :
    (comparison op).comparands [a, .constant v place] = [⟨s, v, place⟩] := by
  simp only [comparands, Expr.beside, ha]
  rfl

theorem Head.comparands_literalSignal {b : Expr} {s : Signal} (hb : b.head = .signal s)
    (op : Comparison) (v : Value) (place : Span) :
    (comparison op).comparands [.constant v place, b] = [⟨s, v, place⟩] := by
  simp only [comparands, Expr.beside, hb]
  rfl

namespace Expr

mutual

/-- The literals beside signals in an expression. -/
def comparands : Expr → List Comparand
  | node _ head es => head.comparands es ++ if head.isLeaf then [] else comparandsAll es

/-- The literals beside signals in several expressions. -/
def comparandsAll : List Expr → List Comparand
  | [] => []
  | e :: es => comparands e ++ comparandsAll es

end

theorem comparands_node (span : Span) (head : Head) (es : List Expr) :
    (node span head es).comparands =
      head.comparands es ++ if head.isLeaf then [] else es.flatMap comparands := by
  have hall (es : List Expr) : comparandsAll es = es.flatMap comparands := by
    induction es with
    | nil => rfl
    | cons e es ih => rw [comparandsAll, ih, List.flatMap_cons]
  rw [comparands, hall]

theorem comparands_of_isLeaf {e : Expr} (h : e.head.isLeaf) : e.comparands = [] := by
  obtain ⟨span, head, es⟩ := e
  replace h : head.isLeaf := h
  rw [comparands_node, if_pos h, List.append_nil]
  cases head with
  | comparison => cases h
  | _ => rfl

@[simp] theorem comparands_constant (v : Value) (span : Span) :
    (constant v span).comparands = [] :=
  comparands_of_isLeaf rfl

@[simp] theorem comparands_withSpan (span : Span) (e : Expr) :
    (e.withSpan span).comparands = e.comparands := by
  obtain ⟨_, head, es⟩ := e
  rw [withSpan, comparands_node, comparands_node]

theorem mem_beside {a b : Expr} {c : Comparand} :
    c ∈ a.beside b ↔
      a.head = .signal c.signal ∧ b.head = .constant c.literal ∧ b.span = c.span := by
  obtain ⟨s, v, place⟩ := c
  unfold beside
  split
  · rename_i s' v' ha hb
    simp [ha, hb, eq_comm]
  · rename_i hne
    simp only [List.not_mem_nil, false_iff]
    rintro ⟨ha, hb, -⟩
    exact hne s v ha hb

/-- The listed literals are those that the expression compares with signals, if its leaves have no
operands. -/
theorem mem_comparands {ctx : Context} {e : Expr} (h : e.Everywhere (Sound ctx)) {c : Comparand} :
    c ∈ e.comparands ↔ e.Compares c.signal c.literal c.span := by
  induction e using node_induction with
  | step span head es ih =>
    have hes := h.operands
    -- the list leaves out what stands below a leaf, and there is nothing
    have hleaf : (if head.isLeaf then [] else es.flatMap comparands) = es.flatMap comparands := by
      split_ifs with hleaf
      · obtain rfl : es = [] := h.head.eq_nil hleaf
        rfl
      · rfl
    rw [comparands_node, hleaf, List.mem_append, List.mem_flatMap]
    constructor
    · rintro (hc | ⟨e, he, hc⟩)
      · unfold Head.comparands at hc
        split at hc
        · rw [List.mem_append, mem_beside, mem_beside] at hc
          rcases hc with ⟨ha, hb, hplace⟩ | ⟨hb, ha, hplace⟩
          · exact .right ha hb hplace
          · exact .left ha hb hplace
        · cases hc
      · exact .operand he ((ih e he (hes e he)).1 hc)
    · intro hc
      cases hc with
      | right ha hb hplace => exact .inl (List.mem_append_left _ (mem_beside.2 ⟨ha, hb, hplace⟩))
      | left ha hb hplace => exact .inl (List.mem_append_right _ (mem_beside.2 ⟨hb, ha, hplace⟩))
      | operand he hc => exact .inr ⟨_, he, (ih _ he (hes _ he)).2 hc⟩

/-- Splicing operands keeps the literals beside signals, if what is spliced is no comparison. -/
theorem flatMap_comparands_flatten {same : Head → Bool} {spliced : Head}
    (hsame : ∀ head, same head → head = spliced) (hleaf : spliced.isLeaf = false)
    (hnone : ∀ es, spliced.comparands es = []) (es : List Expr) :
    (flatten same es).flatMap comparands = es.flatMap comparands := by
  rw [flatten, List.flatMap_assoc]
  congr 1
  funext e
  obtain ⟨span, head, operands⟩ := e
  split_ifs with hhead
  · obtain rfl : head = spliced := hsame head hhead
    rw [comparands_node, hnone, hleaf, List.nil_append, if_neg Bool.false_ne_true, Expr.operands]
  · simp

end Expr

theorem Connective.flatMap_comparands_merge (op : Connective) (es : List Expr) :
    (op.merge es).flatMap Expr.comparands = es.flatMap Expr.comparands := by
  unfold merge
  split_ifs
  · exact Expr.flatMap_comparands_flatten (fun _ => Head.isConnective_iff.1) rfl (fun _ => rfl) es
  · rfl

theorem Arithmetic.flatMap_comparands_merge (op : Arithmetic) (es : List Expr) :
    (op.merge es).flatMap Expr.comparands = es.flatMap Expr.comparands := by
  unfold merge
  split_ifs
  · exact Expr.flatMap_comparands_flatten (fun _ => Head.isArithmetic_iff.1) rfl (fun _ => rfl) es
  · rfl

/-- Building adds the literal of the node that is built and drops none. -/
theorem Built.comparands {ctx : Context} {op : Operator} {es es' : List Expr} {head : Head}
    (h : Built ctx op es head es') (span : Span) :
    (Expr.node span head es').comparands =
      head.comparands es' ++ es.flatMap Expr.comparands := by
  have hleaf {e : Expr} {head : Head} (he : e.head = head) (hhead : head.isLeaf) :
      e.comparands = [] := Expr.comparands_of_isLeaf (he ▸ hhead)
  rw [Expr.comparands_node]
  congr 1
  cases h with
  | comparison => rfl
  | signalLiteral _ _ hb => simp [Head.isLeaf, hleaf hb rfl]
  | literalSignal _ ha _ => simp [Head.isLeaf, hleaf ha rfl]
  | connective => exact Connective.flatMap_comparands_merge _ _
  | arithmetic => exact Arithmetic.flatMap_comparands_merge _ _
  | concat => rfl
  | property _ he => simp [Head.isLeaf, hleaf he rfl]
  | element _ _ he => simp [Head.isLeaf, hleaf he rfl]
  | presence _ hheads =>
    have hnone : ∀ e ∈ es, e.comparands = [] := by
      intro e he
      have hmem := List.mem_map_of_mem (f := Expr.head) he
      rw [hheads] at hmem
      obtain ⟨name, -, hname⟩ := List.mem_map.1 hmem
      exact hleaf hname.symm rfl
    simpa [Head.isLeaf] using hnone
  | signal he => simp [Head.isLeaf, hleaf he rfl]
  | action he => simp [Head.isLeaf, hleaf he rfl]

/-! ### Two readings -/

/-- A strict reading and a lenient one, given that the literals `before` were already seen. Both
fail; or both have the same result, in which all further literals are among the options; or the
strict one alone fails, at a literal in the result of the other that is not. -/
inductive Filters {α : Type} (before : List Comparand) (seen : α → List Comparand) :
    Except ParseError α → Except ParseError α → Prop
  | failed {err err' : ParseError} : Filters before seen (.error err) (.error err')
  | kept {a : α} (hbefore : before ⊆ seen a)
      (hallowed : ∀ c ∈ seen a, c ∈ before ∨ c.Allowed) : Filters before seen (.ok a) (.ok a)
  | refused {a : α} {c : Comparand} (hbefore : before ⊆ seen a) (hc : c ∈ seen a)
      (hrefused : ¬ c.Allowed) : Filters before seen (.error c.refusal) (.ok a)

namespace Filters

variable {α β : Type} {before : List Comparand} {seen : α → List Comparand}
  {seen' : β → List Comparand}

theorem ok {a : α} (h : seen a = before) : Filters before seen (.ok a) (.ok a) :=
  .kept (h ▸ List.Subset.refl _) fun _ hc => .inl (h ▸ hc)

/-- A reading that does not depend on the context. -/
theorem same {x : Except ParseError α} (h : ∀ a, x = .ok a → seen a = before) :
    Filters before seen x x := by
  cases x with
  | error err => exact .failed
  | ok a => exact .ok (h a rfl)

variable {middle : List Comparand} {x y : Except ParseError α}

/-- Readings behind a result whose further literals are among the options. -/
theorem after_kept (hx : Filters middle seen x y) (hbefore : before ⊆ middle)
    (hallowed : ∀ c ∈ middle, c ∈ before ∨ c.Allowed) : Filters before seen x y := by
  cases hx with
  | failed => exact .failed
  | kept hmiddle hallowed' =>
    refine .kept (List.Subset.trans hbefore hmiddle) fun c hc => ?_
    exact (hallowed' c hc).elim (hallowed c) .inr
  | refused hmiddle hc hrefused => exact .refused (List.Subset.trans hbefore hmiddle) hc hrefused

/-- If the strict reading has stopped at a literal, the literal stays in whatever the other one
reads behind it. -/
theorem after_refused (hx : Filters middle seen x y) (hbefore : before ⊆ middle) {c : Comparand}
    (hc : c ∈ middle) (hrefused : ¬ c.Allowed) : Filters before seen (.error c.refusal) y := by
  cases hx with
  | failed => exact .failed
  | kept hmiddle _ | refused hmiddle _ _ =>
    exact .refused (List.Subset.trans hbefore hmiddle) (hmiddle hc) hrefused

theorem bind {k l : α → Except ParseError β} (hx : Filters before seen x y)
    (hk : ∀ a, Filters (seen a) seen' (k a) (l a)) :
    Filters before seen' (x >>= k) (y >>= l) := by
  cases hx with
  | failed => exact .failed
  | @kept a hbefore hallowed => exact (hk a).after_kept hbefore hallowed
  | @refused a c hbefore hc hrefused => exact (hk a).after_refused hbefore hc hrefused

/-- What was seen before two readings stays seen. -/
theorem frame (hx : Filters before seen x y) (more : List Comparand) :
    Filters (more ++ before) (fun a => more ++ seen a) x y := by
  have happend {a : α} (hbefore : before ⊆ seen a) : more ++ before ⊆ more ++ seen a :=
    List.append_subset.2 ⟨List.subset_append_left _ _, List.subset_append_of_subset_right _ hbefore⟩
  cases hx with
  | failed => exact .failed
  | kept hbefore hallowed =>
    refine .kept (happend hbefore) fun c hc => ?_
    rcases List.mem_append.1 hc with hc | hc
    · exact .inl (List.mem_append_left _ hc)
    · exact (hallowed c hc).imp_left (List.mem_append_right _)
  | refused hbefore hc hrefused =>
    exact .refused (happend hbefore) (List.mem_append_right _ hc) hrefused

end Filters

/-! ### Building -/

/-- A node is also built in another context with the same host, unless that is strict and a literal
is not among the options. -/
theorem Built.transfer {ctx ctx' : Context} {op : Operator} {es es' : List Expr} {head : Head}
    (h : Built ctx op es head es') (hhost : ctx'.host = ctx.host)
    (hallowed : ctx'.strict → ∀ c ∈ head.comparands es', c.Allowed) :
    Built ctx' op es head es' := by
  cases h with
  | comparison h hab hba => exact .comparison h hab hba
  | @signalLiteral _ a b s v h ha hb _ =>
    rw [Head.comparands_signalLiteral ha] at hallowed
    exact .signalLiteral h ha hb fun hstrict =>
      Comparand.allows_iff.2 (hallowed hstrict _ List.mem_cons_self)
  | @literalSignal _ a b s v h ha hb _ =>
    rw [Head.comparands_literalSignal hb] at hallowed
    exact .literalSignal h ha hb fun hstrict =>
      Comparand.allows_iff.2 (hallowed hstrict _ List.mem_cons_self)
  | connective hcount h => exact .connective hcount h
  | arithmetic hcount h => exact .arithmetic hcount h
  | concat hcount h => exact .concat hcount h
  | property hop he hp hfits => exact .property hop he (hhost ▸ hp) hfits
  | element hop hcount he hp hfits hi => exact .element hop hcount he (hhost ▸ hp) hfits hi
  | presence hne h => exact .presence hne h
  | signal he hs => exact .signal he (hhost ▸ hs)
  | action he ha => exact .action he ⟨hhost ▸ ha.resolves, ha.count, ha.types⟩

namespace Context

variable {h : Host} {g : Grammar}

/-- A strict context refuses a literal that is not among the options. -/
theorem apply_of_refused {op : Operator} {es es' : List Expr} {head : Head} {c : Comparand}
    (hbuilt : Built ⟨h, false, g⟩ op es head es') (hc : c ∈ head.comparands es')
    (hrefused : ¬ c.Allowed) (span : Span) :
    apply ⟨h, true, g⟩ op es span = .error c.refusal := by
  have hsettle {signal other : Expr} {s : Signal} {v : Value} (hs : signal.head = .signal s)
      (hv : other.head = .constant v) (hc : c = ⟨s, s.settled v, other.span⟩) :
      settleLiteral ⟨h, true, g⟩ signal other = .error c.refusal := by
    rw [settleLiteral_of_literal hs hv]
    subst hc
    rw [if_pos (by simpa using mt Comparand.allows_iff.1 hrefused)]
    rfl
  cases hbuilt with
  | comparison _ hab hba =>
    rcases List.mem_append.1 hc with hc | hc
    · obtain ⟨ha, hb, -⟩ := Expr.mem_beside.1 hc
      exact absurd hb (hab _ _ ha)
    · obtain ⟨hb, ha, -⟩ := Expr.mem_beside.1 hc
      exact absurd ha (hba _ _ hb)
  | @signalLiteral op a b s v hcomparable ha hb _ =>
    rw [Head.comparands_signalLiteral ha, List.mem_singleton] at hc
    change comparison ⟨h, true, g⟩ op a b span = _
    rw [comparison_of_comparable hcomparable, settledPair, ha]
    dsimp only
    rw [hsettle ha hb hc]
    rfl
  | @literalSignal op a b s v hcomparable ha hb _ =>
    rw [Head.comparands_literalSignal hb, List.mem_singleton] at hc
    change comparison ⟨h, true, g⟩ op a b span = _
    rw [comparison_of_comparable hcomparable, settledPair, ha]
    dsimp only
    rw [hsettle hb ha hc]
    rfl
  | _ => cases hc

variable {es : List Expr} {before : List Comparand}

/-- Applying an operator goes together in both contexts. -/
theorem filters_apply (op : Operator) (hes : es.flatMap Expr.comparands = before) (span : Span) :
    Filters before Expr.comparands (apply ⟨h, true, g⟩ op es span)
      (apply ⟨h, false, g⟩ op es span) := by
  subst hes
  cases hlenient : apply ⟨h, false, g⟩ op es span with
  | error err =>
    cases hstrict : apply ⟨h, true, g⟩ op es span with
    | error err' => exact .failed
    | ok e =>
      obtain ⟨head, es', hbuilt, rfl⟩ := apply_eq_ok_iff.1 hstrict
      have hlenient' : Built ⟨h, false, g⟩ op es head es' :=
        hbuilt.transfer rfl fun hstrict => absurd hstrict Bool.false_ne_true
      cases hlenient.symm.trans (apply_eq_ok_iff.2 ⟨head, es', hlenient', rfl⟩)
  | ok e =>
    obtain ⟨head, es', hbuilt, rfl⟩ := apply_eq_ok_iff.1 hlenient
    have hseen := hbuilt.comparands span
    have hbefore : es.flatMap Expr.comparands ⊆ (Expr.node span head es').comparands := by
      rw [hseen]
      exact List.subset_append_right _ _
    by_cases hallowed : ∀ c ∈ head.comparands es', c.Allowed
    · have hstrict : Built ⟨h, true, g⟩ op es head es' := hbuilt.transfer rfl fun _ => hallowed
      rw [apply_eq_ok_iff.2 ⟨head, es', hstrict, rfl⟩]
      refine .kept hbefore fun c hc => ?_
      rw [hseen, List.mem_append] at hc
      exact hc.symm.imp_right (hallowed c)
    · push Not at hallowed
      obtain ⟨c, hc, hrefused⟩ := hallowed
      rw [apply_of_refused hbuilt hc hrefused]
      refine .refused hbefore ?_ hrefused
      rw [hseen]
      exact List.mem_append_left _ hc

theorem filters_number (text : String) (span : Span) :
    Filters [] Expr.comparands (number text span) (number text span) := by
  refine .same fun e he => ?_
  obtain ⟨n, -, rfl⟩ := number_eq_ok_iff.1 he
  exact Expr.comparands_constant _ _

theorem filters_signal (name : String) (span : Span) :
    Filters [] Expr.comparands (signal ⟨h, true, g⟩ name span)
      (signal ⟨h, false, g⟩ name span) := by
  refine .same fun e he => ?_
  obtain ⟨s, -, rfl⟩ := signal_eq_ok_iff.1 he
  exact Expr.comparands_of_isLeaf rfl

theorem filters_action (written : String) (span : Span) :
    Filters (es.flatMap Expr.comparands) Expr.comparands
      (action ⟨h, true, g⟩ written es span) (action ⟨h, false, g⟩ written es span) := by
  refine .same fun e he => ?_
  obtain ⟨a, -, rfl⟩ := action_eq_ok_iff.1 he
  exact Expr.comparands_node _ _ _

end Context

/-! ### Reading -/

section Readers

variable {h : Host} {g : Grammar} {finish : Nat}

/-- A token is read in the same way in every context. -/
theorem filters_expectSymbol (before : List Comparand) (c : Char) (x : Expectation)
    (us : List Token) :
    Filters before (fun _ => before) (expectSymbol c x finish us) (expectSymbol c x finish us) :=
  .same fun _ _ => rfl

namespace Polish

mutual

theorem filters_expression : (us : List Token) →
    Filters [] (fun t => t.result.comparands) (expression ⟨h, true, g⟩ finish us)
      (expression ⟨h, false, g⟩ finish us)
  | [] => by
    rw [expression, expression]
    exact .failed
  | u :: us => by
    rw [expression, expression]
    cases u.kind with
    | symbol =>
      dsimp only
      split_ifs
      · exact (filters_form u.span us).bind fun _ => .ok rfl
      · exact .failed
    | number => exact (Context.filters_number u.text u.span).bind fun _ => .ok rfl
    | string => exact .ok (Expr.comparands_of_isLeaf rfl)
    | identifier => exact .ok (Expr.comparands_of_isLeaf rfl)
    | keyword => exact .failed
termination_by us => (us.length, 0)

theorem filters_form (opening : Span) : (us : List Token) →
    Filters [] (fun t => t.result.comparands) (form ⟨h, true, g⟩ finish opening us)
      (form ⟨h, false, g⟩ finish opening us)
  | [] => by
    rw [form, form]
    exact .failed
  | u :: us => by
    rw [form, form]
    split_ifs
    · cases Operator.ofKeyword? u.text with
      | none => exact .failed
      | some op =>
        refine (filters_operands opening us).bind ?_
        rintro ⟨⟨args, closing⟩, rest, hshort⟩
        exact (Context.filters_apply op rfl _).bind fun _ => .ok rfl
    · exact .failed
termination_by us => (us.length, 0)

theorem filters_operands (opening : Span) : (us : List Token) →
    Filters [] (fun t => t.result.1.flatMap Expr.comparands)
      (operands ⟨h, true, g⟩ finish opening us) (operands ⟨h, false, g⟩ finish opening us)
  | [] => by
    rw [operands, operands]
    exact .failed
  | u :: us => by
    rw [operands, operands]
    split_ifs
    · exact .ok rfl
    · refine (filters_expression (u :: us)).bind ?_
      rintro ⟨e, rest, hshort⟩
      -- the literals of the first operand have been seen and stay with it
      have hrest := (filters_operands opening rest).frame e.comparands
      rw [List.append_nil] at hrest
      exact hrest.bind fun _ => .ok rfl
termination_by us => (us.length, 1)

end

end Polish

namespace Algebraic

theorem filters_bareName (us : List Token) :
    Filters [] (fun t => t.result.comparands) (bareName finish us) (bareName finish us) := by
  refine .same fun t ht => ?_
  cases us with
  | nil => cases ht
  | cons u us =>
    rw [bareName] at ht
    split_ifs at ht
    cases ht
    exact Expr.comparands_of_isLeaf rfl

mutual

theorem filters_expression (least : Nat) (us : List Token) :
    Filters [] (fun t => t.result.comparands) (expression ⟨h, true, g⟩ finish least us)
      (expression ⟨h, false, g⟩ finish least us) := by
  rw [expression, expression]
  refine (filters_unary us).bind ?_
  rintro ⟨left, rest, hshort⟩
  exact (filters_climb least left rest).bind fun _ => .ok rfl
termination_by (us.length, 3)

theorem filters_climb (least : Nat) (left : Expr) : (us : List Token) →
    Filters left.comparands (fun t => t.result.comparands)
      (climb ⟨h, true, g⟩ finish least left us) (climb ⟨h, false, g⟩ finish least left us)
  | [] => by
    rw [climb, climb]
    exact .ok rfl
  | u :: us => by
    rw [climb, climb]
    cases binary? u with
    | none => exact .ok rfl
    | some op =>
      dsimp only
      split_ifs
      · exact .ok rfl
      · have hright := (filters_expression (op.precedence + 1) us).frame left.comparands
        rw [List.append_nil] at hright
        refine hright.bind ?_
        rintro ⟨right, rest, hshort⟩
        refine (Context.filters_apply op (by simp) _).bind fun e => ?_
        exact (filters_climb least e rest).bind fun _ => .ok rfl
termination_by us => (us.length, 0)

theorem filters_unary : (us : List Token) →
    Filters [] (fun t => t.result.comparands) (unary ⟨h, true, g⟩ finish us)
      (unary ⟨h, false, g⟩ finish us)
  | [] => by
    rw [unary, unary]
    exact .failed
  | u :: us => by
    rw [unary, unary]
    cases unary? u with
    | none => exact filters_primary (u :: us)
    | some op =>
      dsimp only
      split
      · exact (Context.filters_number _ _).bind fun _ => .ok rfl
      · refine (filters_expression op.operandPrecedence us).bind ?_
        rintro ⟨operand, rest, hshort⟩
        exact (Context.filters_apply op (by simp) _).bind fun _ => .ok rfl
termination_by us => (us.length, 2)

theorem filters_primary : (us : List Token) →
    Filters [] (fun t => t.result.comparands) (primary ⟨h, true, g⟩ finish us)
      (primary ⟨h, false, g⟩ finish us)
  | [] => by
    rw [primary, primary]
    exact .failed
  | u :: us => by
    rw [primary, primary]
    cases u.kind with
    | number => exact (Context.filters_number u.text u.span).bind fun _ => .ok rfl
    | string => exact .ok (Expr.comparands_of_isLeaf rfl)
    | symbol =>
      dsimp only
      split_ifs
      · refine (filters_expression 0 us).bind ?_
        rintro ⟨inner, rest, hshort⟩
        refine (filters_expectSymbol _ ')' .closeParen rest).bind ?_
        exact fun _ => .ok (Expr.comparands_withSpan _ inner)
      · exact .failed
    | keyword =>
      dsimp only
      cases Operator.ofCall? u.text with
      | none => exact .failed
      | some op =>
        refine (filters_arguments (takesNames op) us).bind ?_
        rintro ⟨⟨args, closing⟩, rest, hshort⟩
        exact (Context.filters_apply op rfl _).bind fun _ => .ok rfl
    | identifier =>
      dsimp only
      split_ifs
      · refine (filters_arguments false us).bind ?_
        rintro ⟨⟨args, closing⟩, rest, hshort⟩
        exact (Context.filters_action u.text _).bind fun _ => .ok rfl
      · exact (Context.filters_signal u.text u.span).bind fun _ => .ok rfl
termination_by us => (us.length, 1)

theorem filters_arguments (names : Bool) (us : List Token) :
    Filters [] (fun t => t.result.1.flatMap Expr.comparands)
      (arguments ⟨h, true, g⟩ finish names us) (arguments ⟨h, false, g⟩ finish names us) := by
  rw [arguments, arguments]
  refine (filters_expectSymbol [] '(' .openParen us).bind ?_
  rintro ⟨_, rest, hshort⟩
  dsimp only
  cases expectSymbol ')' .closeParen finish rest with
  | ok closed => exact .ok rfl
  | error _ => exact (filters_items names rest).bind fun _ => .ok rfl
termination_by (us.length, 0)

theorem filters_items (names : Bool) (us : List Token) :
    Filters [] (fun t => t.result.1.flatMap Expr.comparands)
      (items ⟨h, true, g⟩ finish names us) (items ⟨h, false, g⟩ finish names us) := by
  have hname : Filters [] (fun t => t.result.comparands) (bareName finish us)
      (bareName finish us) := filters_bareName us
  have hexpression := filters_expression 0 us
  rw [items, items]
  split_ifs
  all_goals
    refine Filters.bind (by assumption) ?_
    rintro ⟨e, rest, hshort⟩
    dsimp only
    cases expectSymbol ',' .commaOrClose finish rest with
    | ok taken =>
      obtain ⟨_, rest', hshort'⟩ := taken
      have hitems := (filters_items names rest').frame e.comparands
      rw [List.append_nil] at hitems
      exact hitems.bind fun _ => .ok rfl
    | error _ =>
      refine (filters_expectSymbol _ ')' .commaOrClose rest).bind ?_
      exact fun _ => .ok (by simp)
termination_by (us.length, 4)

end

end Algebraic

end Readers

namespace Context

variable {h : Host} {g : Grammar}

/-- Reading a source goes together in both contexts. -/
theorem filters_parse (source : List Char) :
    Filters [] Expr.comparands (parse ⟨h, true, g⟩ source) (parse ⟨h, false, g⟩ source) := by
  have hexpression (finish : Nat) (us : List Token) :
      Filters [] (fun t => t.result.comparands) (expression ⟨h, true, g⟩ finish us)
        (expression ⟨h, false, g⟩ finish us) := by
    cases g with
    | polish => exact Polish.filters_expression us
    | algebraic => exact Algebraic.filters_expression 0 us
  unfold parse
  dsimp only
  have htokens : Filters [] (fun _ => []) ((Lexicon.ofGrammar g).tokenize source)
      ((Lexicon.ofGrammar g).tokenize source) := .same fun _ _ => rfl
  refine htokens.bind fun us => ?_
  unfold parseTokens
  split_ifs
  · exact .failed
  · refine (hexpression _ us).bind ?_
    rintro ⟨e, rest, hshort⟩
    cases rest with
    | cons u rest => exact .failed
    | nil =>
      dsimp only [notBare]
      split
      · exact .failed
      · exact .ok rfl

/-- Strict reading only filters. A source is read in a strict context exactly if it is read in a
lenient one, as the same expression, and every literal of the expression that is compared with a
signal is among the signal's options. If only the strict context refuses the source, it does so at a
literal that is not. -/
theorem parse_strict_filters (h : Host) (g : Grammar) (source : List Char) :
    (∀ t, parse ⟨h, true, g⟩ source = .ok t ↔ parse ⟨h, false, g⟩ source = .ok t ∧
      ∀ s v place, t.Compares s v place → ∀ options ∈ s.options, v ∈ options) ∧
    ∀ t err, parse ⟨h, false, g⟩ source = .ok t → parse ⟨h, true, g⟩ source = .error err →
      err.cause.kind = .value ∧ ∃ s v place, t.Compares s v place ∧
        (∃ options ∈ s.options, v ∉ options) ∧ err.span = some place := by
  have hfilters := filters_parse (h := h) (g := g) source
  generalize hstrict : parse ⟨h, true, g⟩ source = x at hfilters ⊢
  generalize hlenient : parse ⟨h, false, g⟩ source = y at hfilters ⊢
  cases hfilters with
  | failed => simp
  | @kept a _ hallowed =>
    have hsound := (checked_of_parse hlenient).sound
    refine ⟨fun t => ⟨?_, fun ht => ht.1⟩, ?_⟩
    · rintro ⟨⟩
      refine ⟨rfl, fun s v place hcompares => ?_⟩
      have hc := (Expr.mem_comparands (c := ⟨s, v, place⟩) hsound).2 hcompares
      exact (hallowed _ hc).resolve_left List.not_mem_nil
    · intro t err _ herr
      cases herr
  | @refused a c _ hc hrefused =>
    have hcompares := (Expr.mem_comparands (checked_of_parse hlenient).sound).1 hc
    refine ⟨fun t => ⟨nofun, ?_⟩, ?_⟩
    · rintro ⟨⟨⟩, hallowed⟩
      exact absurd (hallowed _ _ _ hcompares) hrefused
    · rintro t err ⟨⟩ ⟨⟩
      refine ⟨rfl, c.signal, c.literal, c.span, hcompares, ?_, rfl⟩
      simpa [Comparand.Allowed] using hrefused

/-- A host with one signal, whose values are limited. -/
def gateHost : Host :=
  Host.empty.addSignal ⟨"Gate", "Gate", .string, .any, some [.string "open", .string "shut"],
    [(.string "ajar", .string "open")]⟩ (.string "open")

theorem parse_strict_filters_gateHost :
    ∃ t err, parse ⟨gateHost, false, .algebraic⟩ "'wide' == Gate".toList = .ok t ∧
      parse ⟨gateHost, true, .algebraic⟩ "'wide' == Gate".toList = .error err ∧
      err.cause.kind = .value ∧ ∃ s v place, t.Compares s v place ∧
        (∃ options ∈ s.options, v ∉ options) ∧ err.span = some place := by
  have hlenient : (parse ⟨gateHost, false, .algebraic⟩ "'wide' == Gate".toList).isOk = true := by
    cbv
  have hstrict : (parse ⟨gateHost, true, .algebraic⟩ "'wide' == Gate".toList).isOk = false := by
    cbv
  obtain ⟨t, ht⟩ := exists_eq_ok hlenient
  cases herr : parse ⟨gateHost, true, .algebraic⟩ "'wide' == Gate".toList with
  | ok e =>
    rw [herr] at hstrict
    cases hstrict
  | error err =>
    exact ⟨t, err, ht, rfl, (parse_strict_filters gateHost .algebraic _).2 t err ht herr⟩

end Context

end SignalRules
