import SignalRules.Proofs.Moving
import SignalRules.Proofs.Parsing
import SignalRules.Proofs.Rereading

/-!
# Nodes that stand at their tokens

An expression stands at tokens if it spans them from the first to the last and if it is what they
are read as by themselves, wherever they are moved to. It is anchored at them if moreover the
operands of each of its nodes lie inside the node, one after the other, and each stands at some of
the tokens. The one exception is a literal beside a signal, which stands in the place of the
outdated literal that was written there.

The checked constructors keep expressions anchored: an operator keeps its operands, drops some,
splices those of an operand, or settles a literal.

## Main definitions

* `Gives`: what a reader reads, and what it leaves.
* `InOrder`, `Hull`: tokens that follow one another, and the span from the first to the last.
* `Stands`, `StandsBelow`: tokens are read as an expression, and as an operand of a node.
* `Anchored`: all nodes of an expression stand at its tokens.

## Main results

* `Anchored.apply`: an operator keeps its operands anchored.
-/

namespace SignalRules

/-- A reader reads `a` and leaves `rest`. -/
def Gives {α : Type} {before : List Token} (answer : Except ParseError (Taken α before)) (a : α)
    (rest : List Token) : Prop :=
  ∃ h, answer = .ok ⟨a, rest, h⟩

/-- A reader extends an operand to `a` and leaves `rest`. -/
def GivesKept {α : Type} {before : List Token} (answer : Except ParseError (Kept α before)) (a : α)
    (rest : List Token) : Prop :=
  ∃ h, answer = .ok ⟨a, rest, h⟩

/-- Tokens that are not empty and follow one another. -/
structure InOrder (us : List Token) : Prop where
  nonempty : ∀ t ∈ us, t.span.start < t.span.stop
  pairwise : us.Pairwise fun t u => t.span.stop ≤ u.span.start

namespace InOrder

variable {us vs : List Token} {t u : Token}

theorem mono (h : InOrder us) (hvs : vs <:+: us) : InOrder vs :=
  ⟨fun t ht => h.nonempty t (hvs.subset ht), h.pairwise.sublist hvs.sublist⟩

theorem first_le (h : InOrder us) (ht : t ∈ us.head?) (hu : u ∈ us) :
    t.span.start ≤ u.span.start := by
  cases us with
  | nil => cases hu
  | cons v us =>
    obtain rfl : v = t := by simpa using ht
    rcases List.mem_cons.1 hu with rfl | hu
    · exact Nat.le_refl _
    · exact Nat.le_trans (Nat.le_of_lt (h.nonempty v (by simp)))
        (List.rel_of_pairwise_cons h.pairwise hu)

theorem le_last (h : InOrder us) (ht : t ∈ us.getLast?) (hu : u ∈ us) :
    u.span.stop ≤ t.span.stop := by
  obtain ⟨vs, rfl⟩ := List.getLast?_eq_some_iff.1 ht
  rcases List.mem_append.1 hu with hu | hu
  · have hbefore := (List.pairwise_append.1 h.pairwise).2.2 u hu t (by simp)
    exact Nat.le_trans hbefore (Nat.le_of_lt (h.nonempty t (by simp)))
  · rw [List.mem_singleton.1 hu]

end InOrder

/-- The span from the first to the last of several tokens. -/
def Hull (us : List Token) (s : Span) : Prop :=
  ∃ first ∈ us.head?, ∃ last ∈ us.getLast?, s = ⟨first.span.start, last.span.stop⟩

namespace Hull

variable {us vs ws : List Token} {a b s : Span}

theorem singleton (t : Token) : Hull [t] t.span := ⟨t, rfl, t, rfl, rfl⟩

/-- What stands behind other tokens lies behind them. -/
theorem stop_le (h : InOrder (us ++ ws ++ vs)) (ha : Hull us a) (hb : Hull vs b) :
    a.stop ≤ b.start := by
  obtain ⟨-, -, last, hlast, rfl⟩ := ha
  obtain ⟨first, hfirst, -, -, rfl⟩ := hb
  exact (List.pairwise_append.1 h.pairwise).2.2 last
    (List.mem_append_left _ (List.mem_of_getLast? hlast)) first (List.mem_of_head? hfirst)

/-- Around the first and the last part of a list of tokens lies the whole list. -/
theorem merge (h : InOrder (us ++ ws ++ vs)) (ha : Hull us a) (hb : Hull vs b) :
    Hull (us ++ ws ++ vs) (a.merge b) := by
  obtain ⟨first, hfirst, last, hlast, rfl⟩ := ha
  obtain ⟨first', hfirst', last', hlast', rfl⟩ := hb
  have hhead : first ∈ (us ++ ws ++ vs).head? := by
    rw [List.append_assoc, List.head?_append, Option.mem_def.1 hfirst]
    rfl
  have hend : last' ∈ (us ++ ws ++ vs).getLast? := by
    rw [List.getLast?_append, Option.mem_def.1 hlast']
    rfl
  have hstart := h.first_le hhead (List.mem_append_right _ (List.mem_of_head? hfirst'))
  have hstop := h.le_last hend
    (List.mem_append_left vs (List.mem_append_left ws (List.mem_of_getLast? hlast)))
  refine ⟨first, hhead, last', hend, ?_⟩
  simp [Span.merge, Nat.min_eq_left hstart, Nat.max_eq_right hstop]

/-- Part of a list of tokens lies inside of the list. -/
theorem inside (h : InOrder us) (hvs : vs <:+: us) (ha : Hull us a) (hb : Hull vs b) :
    a.start ≤ b.start ∧ b.stop ≤ a.stop := by
  obtain ⟨first, hfirst, last, hlast, rfl⟩ := ha
  obtain ⟨first', hfirst', last', hlast', rfl⟩ := hb
  exact ⟨h.first_le hfirst (hvs.subset (List.mem_of_head? hfirst')),
    h.le_last hlast (hvs.subset (List.mem_of_getLast? hlast'))⟩

end Hull

/-- The tokens, wherever they are moved to, are read as the expression, which spans them. -/
structure Stands (ctx : Context) (us : List Token) (e : Expr) : Prop where
  hull : Hull us e.span
  reads : ∀ (m : Relocation) (finish : Nat),
    Gives (ctx.expression finish (us.map (Token.move m))) (e.move m) []

/-- The tokens are read as the operand `c` of the node `n`. If `c` is a literal that was put in the
place of an outdated one, because it is compared with a signal, they are read as that one. -/
def StandsBelow (ctx : Context) (us : List Token) (n c : Expr) : Prop :=
  Stands ctx us c ∨ ∃ s v w, Beside s w n.head (n.operands.map Expr.head) ∧
    c.head = .constant w ∧ s.modern? v = some w ∧ Stands ctx us (.constant v c.span)

/-- The operands of a node lie inside it, one after the other, and each stands at some of the
tokens. -/
structure AnchoredNode (ctx : Context) (us : List Token) (n : Expr) : Prop where
  inside : ∀ c ∈ n.operands, n.span.start ≤ c.span.start ∧ c.span.stop ≤ n.span.stop
  ordered : n.operands.Pairwise fun a b => a.span.stop ≤ b.span.start
  stands : ∀ c ∈ n.operands, ∃ vs, vs <:+: us ∧ StandsBelow ctx vs n c

/-- The operand `c` of the node `n` stands at some of the tokens, as do all of its nodes. -/
structure AnchoredBelow (ctx : Context) (us : List Token) (n c : Expr) : Prop where
  stands : ∃ vs, vs <:+: us ∧ StandsBelow ctx vs n c
  nodes : ∀ x, c.Contains x → AnchoredNode ctx us x

/-- An expression that stands at the tokens, as do all of its nodes. -/
structure Anchored (ctx : Context) (us : List Token) (e : Expr) : Prop where
  stands : Stands ctx us e
  literal : ∀ v, e.head = .constant v → e.operands = []
  nodes : ∀ n, e.Contains n → AnchoredNode ctx us n

/-- Expressions that stand at some of the tokens, one after the other. -/
structure AnchoredList (ctx : Context) (us : List Token) (es : List Expr) : Prop where
  anchored : ∀ e ∈ es, ∃ vs, vs <:+: us ∧ Anchored ctx vs e
  ordered : es.Pairwise fun a b => a.span.stop ≤ b.span.start

variable {ctx : Context} {us vs : List Token} {e n c : Expr}

theorem StandsBelow.hull (h : StandsBelow ctx us n c) : Hull us c.span := by
  rcases h with h | ⟨s, v, w, -, -, -, h⟩
  · exact h.hull
  · exact h.hull

/-- Only a comparison settles a literal. -/
theorem StandsBelow.stands (h : StandsBelow ctx us n c) (hn : ∀ op, n.head ≠ .comparison op) :
    Stands ctx us c := by
  rcases h with h | ⟨s, v, w, hbeside, -⟩
  · exact h
  · exact absurd hbeside (not_beside_of_ne hn)

theorem AnchoredNode.mono (h : AnchoredNode ctx vs n) (hvs : vs <:+: us) :
    AnchoredNode ctx us n where
  inside := h.inside
  ordered := h.ordered
  stands c hc := by
    obtain ⟨ws, hws, hstands⟩ := h.stands c hc
    exact ⟨ws, hws.trans hvs, hstands⟩

namespace Anchored

theorem leaf (h : Stands ctx us e) (he : e.operands = []) : Anchored ctx us e where
  stands := h
  literal _ _ := he
  nodes n hn := by
    cases hn with
    | root => exact ⟨by simp [he], by simp [he], by simp [he]⟩
    | operand hc => simp [he] at hc

/-- A node is anchored if its operands and what is below them are. -/
theorem node (hus : InOrder us) {s : Span} {head : Head} {es : List Expr}
    (hstands : Stands ctx us (.node s head es)) (hhead : ∀ v, head ≠ .constant v)
    (hordered : es.Pairwise fun a b => a.span.stop ≤ b.span.start)
    (hes : ∀ c ∈ es, AnchoredBelow ctx us (.node s head es) c) :
    Anchored ctx us (.node s head es) where
  stands := hstands
  literal v hv := absurd hv (hhead v)
  nodes n hn := by
    cases hn with
    | root =>
      refine ⟨fun c hc => ?_, hordered, fun c hc => (hes c hc).stands⟩
      obtain ⟨vs, hvs, hbelow⟩ := (hes c hc).stands
      exact hstands.hull.inside hus hvs hbelow.hull
    | operand hc hn => exact (hes _ hc).nodes n hn

/-- Around an expression in parentheses lie the parentheses. -/
theorem withSpan (hus : InOrder us) (hvs : vs <:+: us) (h : Anchored ctx vs e) {s : Span}
    (hstands : Stands ctx us (e.withSpan s)) : Anchored ctx us (e.withSpan s) := by
  obtain ⟨s', head, es⟩ := e
  have hnode := (h.nodes _ (.root _)).mono hvs
  refine ⟨hstands, h.literal, fun n hn => ?_⟩
  cases hn with
  | root =>
    refine ⟨fun c hc => ?_, hnode.ordered, hnode.stands⟩
    obtain ⟨ws, hws, hbelow⟩ := hnode.stands c hc
    exact hstands.hull.inside hus hws hbelow.hull
  | operand hc hn => exact (h.nodes n (.operand hc hn)).mono hvs

/-- An operand of a node, seen from the tokens of the node. -/
theorem below (h : Anchored ctx vs c) (hvs : vs <:+: us) (n : Expr) : AnchoredBelow ctx us n c :=
  ⟨⟨vs, hvs, .inl h.stands⟩, fun x hx => (h.nodes x hx).mono hvs⟩

/-- An operand of a spliced operand, seen from the tokens of the node. -/
theorem below_spliced (h : Anchored ctx vs e) (hvs : vs <:+: us)
    (he : ∀ op, e.head ≠ .comparison op) (hc : c ∈ e.operands) (n : Expr) :
    AnchoredBelow ctx us n c := by
  obtain ⟨ws, hws, hbelow⟩ := (h.nodes e (.root e)).stands c hc
  exact ⟨⟨ws, hws.trans hvs, .inl (hbelow.stands he)⟩,
    fun x hx => (h.nodes x (.operand hc hx)).mono hvs⟩

/-- A literal that is put in the place of one beside a signal. -/
theorem below_settled (h : Anchored ctx vs e) (hvs : vs <:+: us) {s : Signal} {v : Value}
    (he : e.head = .constant v) (n : Expr)
    (hbeside : Beside s (s.settled v) n.head (n.operands.map Expr.head)) :
    AnchoredBelow ctx us n (.constant (s.settled v) e.span) := by
  have heq : Expr.constant v e.span = e := by
    have hoperands := h.literal v he
    obtain ⟨span, head, operands⟩ := e
    obtain rfl : head = .constant v := he
    obtain rfl : operands = [] := hoperands
    rfl
  refine ⟨⟨vs, hvs, ?_⟩, fun x hx => ?_⟩
  · cases hmodern : s.modern? v with
    | none =>
      rw [Signal.settled, hmodern, Option.getD_none, heq]
      exact .inl h.stands
    | some w =>
      have hsettled : s.settled v = w := by rw [Signal.settled, hmodern, Option.getD_some]
      rw [hsettled] at hbeside ⊢
      exact .inr ⟨s, v, w, hbeside, rfl, hmodern, heq.symm ▸ h.stands⟩
  · cases hx with
    | root => exact ⟨nofun, .nil, nofun⟩
    | operand hc => cases hc

end Anchored

namespace AnchoredList

variable {es : List Expr}

theorem nil : AnchoredList ctx us [] := ⟨nofun, .nil⟩

/-- An expression in front of others, with some tokens between them. -/
theorem cons {ws : List Token} (h : InOrder (us ++ ws ++ vs)) (he : Anchored ctx us e)
    (hes : AnchoredList ctx vs es) : AnchoredList ctx (us ++ ws ++ vs) (e :: es) where
  anchored := by
    refine List.forall_mem_cons.2 ⟨⟨us, ⟨[], ws ++ vs, by simp⟩, he⟩, fun x hx => ?_⟩
    obtain ⟨vs', hvs', hx⟩ := hes.anchored x hx
    exact ⟨vs', hvs'.trans (List.suffix_append _ _).isInfix, hx⟩
  ordered := by
    refine .cons (fun x hx => ?_) hes.ordered
    obtain ⟨vs', ⟨pre, post, rfl⟩, hx⟩ := hes.anchored x hx
    have hpart : us ++ (ws ++ pre) ++ vs' <:+: us ++ ws ++ (pre ++ vs' ++ post) :=
      ⟨[], post, by simp⟩
    exact he.stands.hull.stop_le (h.mono hpart) hx.stands.hull

theorem singleton (he : Anchored ctx us e) : AnchoredList ctx us [e] :=
  ⟨by simpa using ⟨us, List.infix_refl us, he⟩, List.pairwise_singleton _ _⟩

theorem tail (h : AnchoredList ctx us (e :: es)) : AnchoredList ctx us es :=
  ⟨fun x hx => h.anchored x (List.mem_cons_of_mem _ hx), h.ordered.of_cons⟩

theorem below (h : AnchoredList ctx vs es) (hvs : vs <:+: us) (n : Expr) (hc : c ∈ es) :
    AnchoredBelow ctx us n c := by
  obtain ⟨ws, hws, hanchored⟩ := h.anchored c hc
  exact hanchored.below (hws.trans hvs) n

/-- Spliced operands stand below the node that they are spliced into. -/
theorem below_flatten (h : AnchoredList ctx vs es) (hvs : vs <:+: us) {same : Head → Bool}
    (hsame : ∀ op, same (.comparison op) = false) (n : Expr) (hc : c ∈ flatten same es) :
    AnchoredBelow ctx us n c := by
  obtain ⟨e, he, hc⟩ := List.mem_flatMap.1 hc
  obtain ⟨ws, hws, hanchored⟩ := h.anchored e he
  split_ifs at hc with hhead
  · refine hanchored.below_spliced (hws.trans hvs) (fun op hop => ?_) hc n
    rw [hop, hsame op] at hhead
    cases hhead
  · exact List.mem_singleton.1 hc ▸ hanchored.below (hws.trans hvs) n

/-- Splicing keeps operands in order. -/
theorem pairwise_flatten (h : AnchoredList ctx us es) (same : Head → Bool) :
    (flatten same es).Pairwise fun a b => a.span.stop ≤ b.span.start := by
  have hinside : ∀ e ∈ es, ∀ x ∈ (if same e.head then e.operands else [e]),
      e.span.start ≤ x.span.start ∧ x.span.stop ≤ e.span.stop := by
    intro e he x hx
    split_ifs at hx
    · obtain ⟨vs, -, hanchored⟩ := h.anchored e he
      exact (hanchored.nodes e (.root e)).inside x hx
    · rw [List.mem_singleton.1 hx]
      exact ⟨Nat.le_refl _, Nat.le_refl _⟩
  refine List.pairwise_flatMap.2 ⟨fun e he => ?_, ?_⟩
  · obtain ⟨vs, -, hanchored⟩ := h.anchored e he
    split_ifs
    · exact (hanchored.nodes e (.root e)).ordered
    · exact List.pairwise_singleton _ _
  · refine h.ordered.imp_of_mem fun ha hb hab x hx y hy => ?_
    have hleft := (hinside _ ha x hx).2
    have hright := (hinside _ hb y hy).1
    omega

end AnchoredList

/-- An operator keeps its operands anchored, whatever it does with them. -/
theorem Anchored.apply (hus : InOrder us) (hvs : vs <:+: us) {op : Operator} {es : List Expr}
    (hes : AnchoredList ctx vs es) {s : Span} (happly : ctx.apply op es s = .ok e)
    (hstands : Stands ctx us e) : Anchored ctx us e := by
  obtain ⟨head, es', hbuilt, rfl⟩ := Context.apply_eq_ok_iff.1 happly
  cases hbuilt with
  | comparison => exact .node hus hstands (by simp) hes.ordered fun c hc => hes.below hvs _ hc
  | @signalLiteral op a b s v _ ha hb _ =>
    have hordered : a.span.stop ≤ b.span.start := by simpa using hes.ordered
    refine .node hus hstands (by simp) (by simpa using hordered) ?_
    -- The literal may be replaced by another one, which keeps its place.
    have hbeside : Beside s (s.settled v) (.comparison op) [a.head, .constant (s.settled v)] :=
      ha ▸ .right op
    obtain ⟨ws, hws, hanchored⟩ := hes.anchored b (by simp)
    rw [List.forall_mem_cons, List.forall_mem_singleton]
    exact ⟨hes.below hvs _ (by simp), hanchored.below_settled (hws.trans hvs) hb _ hbeside⟩
  | @literalSignal op a b s v _ ha hb _ =>
    have hordered : a.span.stop ≤ b.span.start := by simpa using hes.ordered
    refine .node hus hstands (by simp) (by simpa using hordered) ?_
    have hbeside : Beside s (s.settled v) (.comparison op) [.constant (s.settled v), b.head] :=
      hb ▸ .left op
    obtain ⟨ws, hws, hanchored⟩ := hes.anchored a (by simp)
    rw [List.forall_mem_cons, List.forall_mem_singleton]
    exact ⟨hanchored.below_settled (hws.trans hvs) ha _ hbeside, hes.below hvs _ (by simp)⟩
  | @connective op _ hcount h =>
    unfold Connective.merge at hstands ⊢
    split_ifs at hstands ⊢
    · exact .node hus hstands (by simp) (hes.pairwise_flatten _) fun c hc =>
        hes.below_flatten hvs (fun _ => rfl) _ hc
    · exact .node hus hstands (by simp) hes.ordered fun c hc => hes.below hvs _ hc
  | @arithmetic op _ hcount h =>
    unfold Arithmetic.merge at hstands ⊢
    split_ifs at hstands ⊢
    · exact .node hus hstands (by simp) (hes.pairwise_flatten _) fun c hc =>
        hes.below_flatten hvs (fun _ => rfl) _ hc
    · exact .node hus hstands (by simp) hes.ordered fun c hc => hes.below hvs _ hc
  | concat => exact .node hus hstands (by simp) hes.ordered fun c hc => hes.below hvs _ hc
  | element =>
    exact .node hus hstands (by simp) hes.tail.ordered fun c hc => hes.tail.below hvs _ hc
  | action =>
    exact .node hus hstands (by simp) hes.tail.ordered fun c hc => hes.tail.below hvs _ hc
  | property | presence | signal => exact .leaf hstands rfl

/-! ### The places of built nodes -/

theorem Context.span_of_action {written : String} {es : List Expr} {s : Span}
    (h : ctx.action written es s = .ok e) : e.span = s := by
  obtain ⟨declaration, -, rfl⟩ := action_eq_ok_iff.1 h
  rfl

theorem Context.span_of_apply {op : Operator} {es : List Expr} {s : Span}
    (h : ctx.apply op es s = .ok e) : e.span = s := by
  obtain ⟨head, es', -, rfl⟩ := apply_eq_ok_iff.1 h
  rfl

/-- A call keeps its arguments anchored. -/
theorem Anchored.action (hus : InOrder us) (hvs : vs <:+: us) {written : String} {es : List Expr}
    (hes : AnchoredList ctx vs es) {s : Span} (haction : ctx.action written es s = .ok e)
    (hstands : Stands ctx us e) : Anchored ctx us e := by
  obtain ⟨a, -, rfl⟩ := Context.action_eq_ok_iff.1 haction
  exact .node hus hstands (by simp) hes.ordered fun c hc => hes.below hvs _ hc

end SignalRules
