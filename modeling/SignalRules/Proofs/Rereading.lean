import SignalRules.Proofs.Names
import SignalRules.Proofs.WellFormed

/-!
# Reading an expression back

An expression that is written and read again comes back as it was, apart from the literals beside
signals. Such a literal may have come out of a table of outdated literals, so it need not be one
that a source can hold: an unset value is written as an empty text, the least number is out of
range, and any value may be outdated itself. When it is read back it is checked and settled once
more.

## Main definitions

* `SucceedsIff`: a computation succeeds exactly under a condition, with a known result.
* `Value.reread`, `Expr.reread`: what a literal and an expression are read back as.
* `Rereads`: the condition on a node under which it is read back.

## Main results

* `Sound.apply_reread`: building the operator of a node anew gives the node that is read back.
-/

namespace SignalRules

/-! ### Computations with a known result -/

/-- A computation succeeds exactly under a condition, and then with the given result. -/
def SucceedsIff {ε α : Type} (r : Except ε α) (C : Prop) (a : α) : Prop :=
  ∀ x, r = .ok x ↔ C ∧ x = a

namespace SucceedsIff

variable {ε α β : Type} {r : Except ε α} {C D : Prop} {a : α}

theorem congr (h : SucceedsIff r C a) (hCD : C ↔ D) : SucceedsIff r D a := by
  intro x
  rw [h x, hCD]

theorem of_ok (a : α) : SucceedsIff (.ok a : Except ε α) True a := by
  intro x
  rw [Except.ok.injEq, eq_comm, true_and]

/-- One computation after another succeeds if both do. -/
theorem bind {k : α → Except ε β} {b : β} (h : SucceedsIff r C a) (hk : SucceedsIff (k a) D b) :
    SucceedsIff (r >>= k) (C ∧ D) b := by
  intro y
  rw [bind_eq_ok_iff, and_assoc, ← hk y]
  constructor
  · rintro ⟨x, hx, hy⟩
    obtain ⟨hC, rfl⟩ := (h x).1 hx
    exact ⟨hC, hy⟩
  · rintro ⟨hC, hy⟩
    exact ⟨a, (h a).2 ⟨hC, rfl⟩, hy⟩

/-- A known result in front of the results of other computations. -/
theorem cons {rs : Except ε (List α)} {as : List α} (hr : r = .ok a) (h : SucceedsIff rs C as) :
    SucceedsIff (do let x ← r; let xs ← rs; return x :: xs) C (a :: as) := by
  subst hr
  exact (h.bind (of_ok (a :: as))).congr (and_iff_left trivial)

/-- Computations over a list succeed together if each of them does. -/
theorem mapM {f : α → Except ε β} {P : α → Prop} {g : α → β} {xs : List α}
    (h : ∀ x ∈ xs, SucceedsIff (f x) (P x) (g x)) :
    SucceedsIff (xs.mapM f) (∀ x ∈ xs, P x) (xs.map g) := by
  induction xs with
  | nil => exact (of_ok []).congr (by simp)
  | cons x xs ih =>
    rw [List.forall_mem_cons] at h
    rw [List.mapM_cons]
    exact (h.1.bind ((ih h.2).bind (of_ok (g x :: xs.map g)))).congr (by simp)

end SucceedsIff

/-! ### What is read back -/

/-- What a literal is read back as, if it can be. An unset one is written as an empty text. -/
def Value.reread : Value → Value
  | unset => string ""
  | v => v

/-- Whether the text of a literal can be read. The text of the least number cannot. -/
def Value.Legible : Value → Prop
  | number n => n.hundredths ≠ leastCount
  | _ => True

/-- The head that a node is read back with. -/
def Head.reread : Head → Head
  | constant v => constant v.reread
  | head => head

/-- The operands of a node after the literals beside signals were settled. -/
def Head.settle : Head → List Expr → List Expr
  | comparison _, [a, b] =>
    match a.head, b.head with
    | signal s, constant v => [a, .constant (s.settled v) default]
    | constant v, signal s => [.constant (s.settled v) default, b]
    | _, _ => [a, b]
  | _, es => es

namespace Expr

mutual

/-- The expression that an expression is read back as, if it can be. -/
def reread : Expr → Expr
  | node _ head es => node default head.reread (head.settle (rereadAll es))

/-- What several expressions are read back as. -/
def rereadAll : List Expr → List Expr
  | [] => []
  | e :: es => reread e :: rereadAll es

end

theorem rereadAll_eq_map (es : List Expr) : rereadAll es = es.map reread := by
  induction es with
  | nil => rfl
  | cons e es ih => rw [rereadAll, ih, List.map_cons]

theorem reread_node (span : Span) (head : Head) (es : List Expr) :
    (node span head es).reread = node default head.reread (head.settle (es.map reread)) := by
  rw [reread, rereadAll_eq_map]

@[simp] theorem head_reread (e : Expr) : e.reread.head = e.head.reread := by
  obtain ⟨span, head, es⟩ := e
  rw [reread_node]
  rfl

end Expr

/-- A literal beside a signal can be settled: it has the type of the signal, and what it settles to
is an option where options are enforced. -/
def Signal.Rereads (s : Signal) (strict : Bool) (v : Value) : Prop :=
  v.reread.type? = some s.type ∧ (strict → s.allows (s.settled v.reread))

/-- A node with the given head, whose operands have the given heads, compares the signal `s` with
the literal `v`. -/
inductive Beside (s : Signal) (v : Value) : Head → List Head → Prop
  | right (op : Comparison) : Beside s v (.comparison op) [.signal s, .constant v]
  | left (op : Comparison) : Beside s v (.comparison op) [.constant v, .signal s]

/-- A node with the given head, whose operands have the given heads, can be read back. -/
def Rereads (strict : Bool) (head : Head) (operands : List Head) : Prop :=
  (∀ v, head = .constant v → v.Legible) ∧ ∀ s v, Beside s v head operands → s.Rereads strict v

/-! ### Small facts -/

theorem Value.Readable.reread_eq {v : Value} (h : v.Readable) : v.reread = v := by
  cases v with
  | unset => exact h.elim
  | string | number => rfl

theorem Value.Readable.legible {v : Value} (h : v.Readable) : v.Legible := by
  cases v with
  | unset => exact h.elim
  | string => trivial
  | number n => exact h

theorem Head.Readable.reread_eq {x : Head} (h : x.Readable) : x.reread = x := by
  cases x with
  | constant v => rw [reread, Value.Readable.reread_eq h]
  | _ => rfl

/-- What is read back never counts as unset. -/
theorem Value.type_reread (v : Value) (t : ValueType) :
    (Head.constant v.reread).type = .value t ↔ v.reread.type? = some t := by
  cases v <;> simp [reread, Head.type, type?]

/-- Literals aside, a comparison keeps its operands. -/
theorem Head.settle_comparison {op : Comparison} {a b : Expr}
    (hab : ∀ s v, a.head = signal s → b.head ≠ constant v)
    (hba : ∀ s v, b.head = signal s → a.head ≠ constant v) :
    (comparison op).settle [a, b] = [a, b] := by
  simp only [settle]
  split
  · rename_i s v ha hb
    exact absurd hb (hab s v ha)
  · rename_i v s ha hb
    exact absurd ha (hba s v hb)
  · rfl

/-! ### Literals beside signals -/

section Beside

variable {op : Comparison} {s : Signal} {v : Value} {a b head : Head} {hs : List Head}
  {P : Signal → Value → Prop} {strict : Bool}

@[simp] theorem forall_beside_signalLiteral :
    (∀ s' v', Beside s' v' (.comparison op) [.signal s, .constant v] → P s' v') ↔ P s v := by
  constructor
  · intro h
    exact h s v (.right op)
  · rintro h _ _ ⟨⟩
    exact h

@[simp] theorem forall_beside_literalSignal :
    (∀ s' v', Beside s' v' (.comparison op) [.constant v, .signal s] → P s' v') ↔ P s v := by
  constructor
  · intro h
    exact h s v (.left op)
  · rintro h _ _ ⟨⟩
    exact h

/-- A comparison of other operands compares no signal with a literal. -/
theorem not_beside_comparison (hab : ∀ s v, a = .signal s → b ≠ .constant v)
    (hba : ∀ s v, b = .signal s → a ≠ .constant v) : ¬ Beside s v (.comparison op) [a, b] := by
  rintro ⟨⟩
  · exact hab s v rfl rfl
  · exact hba s v rfl rfl

theorem not_beside_of_ne (h : ∀ c, head ≠ .comparison c) : ¬ Beside s v head hs := by
  rintro ⟨⟩
  · exact h _ rfl
  · exact h _ rfl

@[simp] theorem rereads_constant : Rereads strict (.constant v) hs ↔ v.Legible := by
  constructor
  · intro h
    exact h.1 v rfl
  · rintro h
    exact ⟨fun _ hw => Head.constant.inj hw ▸ h, fun _ _ hbeside => nomatch hbeside⟩

@[simp] theorem rereads_signalLiteral :
    Rereads strict (.comparison op) [.signal s, .constant v] ↔ s.Rereads strict v := by
  simp [Rereads]

@[simp] theorem rereads_literalSignal :
    Rereads strict (.comparison op) [.constant v, .signal s] ↔ s.Rereads strict v := by
  simp [Rereads]

/-- A node that is neither a literal nor compares one with a signal is read back. -/
theorem rereads_of_not_beside (hconstant : ∀ v, head ≠ .constant v)
    (h : ∀ s v, ¬ Beside s v head hs) : Rereads strict head hs :=
  ⟨fun v hv => absurd hv (hconstant v), fun s v hbeside => absurd hbeside (h s v)⟩

end Beside

theorem Head.ne_constant {head : Head} {op : Operator} (h : head.operator? = some op) (v : Value) :
    head ≠ constant v := by
  rintro rfl
  cases h

theorem Head.reread_of_ne {head : Head} (h : ∀ v, head ≠ constant v) : head.reread = head := by
  cases head with
  | constant v => exact absurd rfl (h v)
  | _ => rfl

/-- Only comparisons have literals to settle. -/
theorem Head.settle_of_ne {head : Head} (h : ∀ op, head ≠ comparison op) (es : List Expr) :
    head.settle es = es := by
  cases head with
  | comparison op => exact absurd rfl (h op)
  | _ => rfl

/-- A settled operand is an operand or a literal. -/
theorem Head.mem_settle {head : Head} {es : List Expr} {x : Expr} (hx : x ∈ head.settle es) :
    x ∈ es ∨ ∃ v, x = .constant v default := by
  unfold settle at hx
  split at hx
  · split at hx
    · rcases List.mem_pair.1 hx with rfl | rfl
      · exact .inl (by simp)
      · exact .inr ⟨_, rfl⟩
    · rcases List.mem_pair.1 hx with rfl | rfl
      · exact .inr ⟨_, rfl⟩
      · exact .inl (by simp)
    · exact .inl hx
  · exact .inl hx

/-- What is read back has no spans. -/
@[simp] theorem Expr.erase_reread (e : Expr) : e.reread.erase = e.reread := by
  induction e using node_induction with
  | step span head es ih =>
    have hall : ∀ x ∈ head.settle (es.map reread), x.erase = x := by
      intro x hx
      rcases Head.mem_settle hx with hx | ⟨v, rfl⟩
      · obtain ⟨e, he, rfl⟩ := List.mem_map.1 hx
        exact ih e he
      · simp
    rw [reread_node, erase_node, List.map_congr_left hall, List.map_id']

/-! ### Building a node anew -/

/-- What the operator of a node is applied to, besides the operands of the node: names and
references that the head keeps. -/
def Head.arguments : Head → List Expr → List Expr
  | signal s, _ => [.symbol s.name default]
  | action a once, es => .symbol (a.written once) default :: es
  | property _ p, es => .constant (.string p.reference) default :: es
  | presence _ names, _ => names.map fun n => .symbol n default
  | _, es => es

theorem Comparable.symm {op : Comparison} {a b : Head} (h : Comparable op a b) :
    Comparable op b a := by
  obtain ⟨t, ha, hb, hrelational⟩ := h
  exact ⟨t, hb, ha, hrelational⟩

namespace Sound

variable {ctx : Context} {es : List Expr}

theorem heads_reread (h : ∀ x ∈ es.map Expr.head, x.Readable) :
    (es.map Expr.reread).map Expr.head = es.map Expr.head := by
  rw [List.map_map]
  refine List.map_congr_left fun e he => ?_
  exact (e.head_reread).trans (h e.head (List.mem_map_of_mem he)).reread_eq

/-- Operands that are read back have no spans. -/
theorem map_erase_reread (es : List Expr) :
    (es.map Expr.reread).map Expr.erase = es.map Expr.reread := by
  simp [List.map_map, Function.comp_def]

/-- If an operator becomes a node, applying it succeeds with that node only. -/
theorem apply_iff_of_built {op : Operator} {args es' : List Expr} {head : Head} {C : Prop}
    (hC : C) (h : Built ctx op args head es') :
    SucceedsIff (unplaced (ctx.apply op args default)) C
      (.node default head (es'.map Expr.erase)) := by
  intro x
  have hok : unplaced (ctx.apply op args default) = .ok (.node default head (es'.map Expr.erase)) :=
    Context.unplaced_apply_eq_ok_iff.2 ⟨head, es', h, rfl⟩
  rw [hok, Except.ok.injEq, eq_comm]
  exact (and_iff_right hC).symm

/-- A literal beside a signal can be compared with it if it has its type. -/
theorem comparable_reread {op : Comparison} {s : Signal} {v w : Value}
    (h : Comparable op (.signal s) (.constant v)) :
    Comparable op (.signal s) (.constant w.reread) ↔ w.reread.type? = some s.type := by
  obtain ⟨t, hs, -, hrelational⟩ := h
  cases hs
  constructor
  · rintro ⟨u, hu, hw, -⟩
    cases hu
    exact (w.type_reread _).1 hw
  · intro hw
    exact ⟨s.type, rfl, (w.type_reread _).2 hw, hrelational⟩

/-- A literal on the right of a signal is checked and settled again. -/
theorem apply_signalLiteral {op : Comparison} {a b : Expr} {s : Signal} {v w : Value}
    (h : Comparable op (.signal s) (.constant v)) (ha : a.head = .signal s)
    (hb : b.head = .constant w) :
    SucceedsIff (unplaced (ctx.apply (.comparison op) [a.reread, b.reread] default))
      (s.Rereads ctx.strict w)
      (.node default (.comparison op) [a.reread, .constant (s.settled w.reread) default]) := by
  intro x
  have ha' : a.reread.head = .signal s := by simp [ha, Head.reread]
  have hb' : b.reread.head = .constant w.reread := by simp [hb, Head.reread]
  rw [Context.unplaced_apply_eq_ok_iff]
  constructor
  · rintro ⟨head, es', hbuilt, rfl⟩
    have htype := hbuilt.comparable
    rw [ha', hb', comparable_reread h] at htype
    cases hbuilt with
    | comparison _ hab _ => exact absurd hb' (hab s _ ha')
    | signalLiteral _ hs hv hallowed =>
      cases ha'.symm.trans hs
      cases hb'.symm.trans hv
      exact ⟨⟨htype, hallowed⟩, by simp⟩
    | literalSignal _ hv _ _ => cases ha'.symm.trans hv
    | element hop => cases hop
  · rintro ⟨⟨htype, hallowed⟩, rfl⟩
    have hcomparable : Comparable op a.reread.head b.reread.head := by
      rw [ha', hb']
      exact (comparable_reread h).2 htype
    exact ⟨_, _, .signalLiteral hcomparable ha' hb' hallowed, by simp⟩

/-- A literal on the left of a signal is checked and settled again. -/
theorem apply_literalSignal {op : Comparison} {a b : Expr} {s : Signal} {v w : Value}
    (h : Comparable op (.constant v) (.signal s)) (ha : a.head = .constant w)
    (hb : b.head = .signal s) :
    SucceedsIff (unplaced (ctx.apply (.comparison op) [a.reread, b.reread] default))
      (s.Rereads ctx.strict w)
      (.node default (.comparison op) [.constant (s.settled w.reread) default, b.reread]) := by
  intro x
  have ha' : a.reread.head = .constant w.reread := by simp [ha, Head.reread]
  have hb' : b.reread.head = .signal s := by simp [hb, Head.reread]
  rw [Context.unplaced_apply_eq_ok_iff]
  constructor
  · rintro ⟨head, es', hbuilt, rfl⟩
    have htype := hbuilt.comparable.symm
    rw [ha', hb', comparable_reread h.symm] at htype
    cases hbuilt with
    | comparison _ _ hba => exact absurd ha' (hba s _ hb')
    | signalLiteral _ hs _ _ => cases ha'.symm.trans hs
    | literalSignal _ hv hs hallowed =>
      cases ha'.symm.trans hv
      cases hb'.symm.trans hs
      exact ⟨⟨htype, hallowed⟩, by simp⟩
    | element hop => cases hop
  · rintro ⟨⟨htype, hallowed⟩, rfl⟩
    have hcomparable : Comparable op a.reread.head b.reread.head := by
      rw [ha', hb']
      exact ((comparable_reread h.symm).2 htype).symm
    exact ⟨_, _, .literalSignal hcomparable ha' hb' hallowed, by simp⟩

/-- Operands none of which is spliced stay as they are. -/
theorem flatten_eq_self {same : Head → Bool} (h : ∀ e ∈ es, same e.head = false) :
    flatten same es = es := by
  have hsingle : ∀ e ∈ es, (if same e.head then e.operands else [e]) = [e] := by
    intro e he
    simp [h e he]
  rw [flatten, List.flatMap_congr hsingle, List.flatMap_singleton']

theorem map_eq_pair {a b : Head} (h : es.map Expr.head = [a, b]) :
    ∃ e f, es = [e, f] ∧ e.head = a ∧ f.head = b := by
  rcases es with _ | ⟨e, _ | ⟨f, _ | ⟨g, es⟩⟩⟩
  · simp at h
  · simp at h
  · simp only [List.map_cons, List.map_nil, List.cons.injEq, and_true] at h
    exact ⟨e, f, rfl, h.1, h.2⟩
  · simp at h

/-- A comparison is checked and settled again. -/
theorem apply_comparison {op : Comparison}
    (h : Sound ctx (.comparison op) (es.map Expr.head)) :
    SucceedsIff (unplaced (ctx.apply (.comparison op) (es.map Expr.reread) default))
      (Rereads ctx.strict (.comparison op) (es.map Expr.head))
      (.node default (.comparison op) ((Head.comparison op).settle (es.map Expr.reread))) := by
  generalize hheads : es.map Expr.head = heads at h
  cases h with
  | @comparison _ a b hcomparable hab hba ha hb =>
    obtain ⟨e, f, rfl, rfl, rfl⟩ := map_eq_pair hheads
    have he : e.reread.head = e.head := by rw [Expr.head_reread, ha.reread_eq]
    have hf : f.reread.head = f.head := by rw [Expr.head_reread, hb.reread_eq]
    have hrereads : Rereads ctx.strict (.comparison op) [e.head, f.head] :=
      rereads_of_not_beside (by simp) fun s v => not_beside_comparison hab hba
    have hbuilt : Built ctx (.comparison op) [e.reread, f.reread] (.comparison op)
        [e.reread, f.reread] := by
      refine .comparison ?_ ?_ ?_ <;> rw [he, hf] <;> assumption
    have hsettle : (Head.comparison op).settle [e.reread, f.reread] = [e.reread, f.reread] := by
      refine Head.settle_comparison ?_ ?_ <;> rw [he, hf] <;> assumption
    simpa [hsettle] using apply_iff_of_built hrereads hbuilt
  | signalLiteral _ hcomparable =>
    obtain ⟨e, f, rfl, he, hf⟩ := map_eq_pair hheads
    simpa [Head.settle, he, hf, Head.reread] using
      apply_signalLiteral hcomparable he hf
  | literalSignal _ hcomparable =>
    obtain ⟨e, f, rfl, he, hf⟩ := map_eq_pair hheads
    simpa [Head.settle, he, hf, Head.reread] using
      apply_literalSignal hcomparable he hf

theorem merge_connective {op : Connective}
    (h : (Operator.connective op).isFlattened → ∀ e ∈ es, e.head.isConnective op = false) :
    op.merge es = es := by
  unfold Connective.merge
  split_ifs with hflat
  · exact flatten_eq_self (h hflat)
  · rfl

theorem merge_arithmetic {op : Arithmetic}
    (h : (Operator.arithmetic op).isFlattened → ∀ e ∈ es, e.head.isArithmetic op = false) :
    op.merge es = es := by
  unfold Arithmetic.merge
  split_ifs with hflat
  · exact flatten_eq_self (h hflat)
  · rfl

/-- What holds of the heads of readable operands holds of the heads that are read back. -/
theorem forall_head_reread {Q : Head → Prop} (hread : ∀ x ∈ es.map Expr.head, x.Readable)
    (h : ∀ x ∈ es.map Expr.head, Q x) : ∀ e ∈ es.map Expr.reread, Q e.head := by
  rw [List.forall_mem_map] at hread h ⊢
  intro e he
  rw [Expr.head_reread, (hread e he).reread_eq]
  exact h e he

/-- Comparisons aside, the operator of a node becomes the node again. -/
theorem built_reread {head : Head} (h : Sound ctx head (es.map Expr.head))
    (hkeyed : ctx.host.Keyed) {op : Operator} (hop : head.operator? = some op)
    (hne : ∀ c, head ≠ .comparison c) :
    Built ctx op (head.arguments (es.map Expr.reread)) head (es.map Expr.reread) := by
  generalize hheads : es.map Expr.head = heads at h
  cases h with
  | literal => cases hop
  | signal _ hs =>
    cases hop
    obtain rfl : es = [] := by simpa using hheads
    exact .signal rfl (hkeyed.name_signal hs ▸ hs)
  | @action written _ a _ ha hread =>
    cases hop
    subst hheads
    have hwritten := Action.written_splitOnce (hkeyed.name_action ha.resolves)
    have hbuilt : Built ctx .action (.symbol written default :: es.map Expr.reread)
        (.action a (splitOnce written).2) (es.map Expr.reread) :=
      .action rfl (heads_reread hread ▸ ha)
    rwa [Head.arguments, hwritten]
  | comparison | signalLiteral | literalSignal => exact absurd rfl (hne _)
  | @connective c _ hcount htype hflat =>
    cases hop
    subst hheads
    have hread : ∀ x ∈ es.map Expr.head, x.Readable := fun x hx =>
      Head.readable_of_boolean (htype x hx)
    have hbuilt : Built ctx (.connective c) (es.map Expr.reread) (.connective c)
        (c.merge (es.map Expr.reread)) :=
      .connective (by simpa using hcount) (forall_head_reread hread htype)
    rwa [merge_connective fun hmerged => forall_head_reread hread (hflat hmerged)] at hbuilt
  | @arithmetic c _ hcount htype hflat hread =>
    cases hop
    subst hheads
    have hbuilt : Built ctx (.arithmetic c) (es.map Expr.reread) (.arithmetic c)
        (c.merge (es.map Expr.reread)) :=
      .arithmetic (by simpa using hcount) (forall_head_reread hread htype)
    rwa [merge_arithmetic fun hmerged => forall_head_reread hread (hflat hmerged)] at hbuilt
  | concat hcount htype hread =>
    cases hop
    subst hheads
    exact .concat (by simpa [Head.arguments] using hcount) (forall_head_reread hread htype)
  | @property op' reference p hop' hp hfits =>
    obtain rfl : es = [] := by simpa using hheads
    -- How the property is used tells the operator that the node was built with.
    have hoperator := operator_propertyMode op' hop' false (accepts_one_of_readsProperty op' hop')
    obtain rfl : op' = op := hoperator.symm.trans (Option.some.inj hop)
    obtain rfl := hkeyed.reference_property hp
    exact .property hop' rfl hp hfits
  | @element op' reference p i hop' hcount hp hfits hi hread =>
    obtain ⟨e, rfl, rfl⟩ : ∃ e, es = [e] ∧ e.head = i := by simpa using hheads
    have hoperator := operator_propertyMode op' hop' true hcount
    obtain rfl : op' = op := hoperator.symm.trans (Option.some.inj hop)
    obtain rfl := hkeyed.reference_property hp
    refine .element hop' hcount rfl hp hfits ?_
    rw [Expr.type, Expr.head_reread, hread.reread_eq]
    exact hi
  | presence kind hne' hnames =>
    cases hop
    obtain rfl : es = [] := by simpa using hheads
    exact .presence hne' (by simp [Head.arguments])

/-- Only literals beside signals may be no literals of a source. -/
theorem readable_of_ne {head : Head} {hs : List Head}
    (h : Sound ctx head hs) (hne : ∀ c, head ≠ .comparison c) : ∀ x ∈ hs, x.Readable := by
  cases h with
  | literal | signal | property | presence => simp
  | comparison | signalLiteral | literalSignal => exact absurd rfl (hne _)
  | connective _ h => exact fun x hx => Head.readable_of_boolean (h x hx)
  | action _ _ hread | arithmetic _ _ _ hread | concat _ _ hread => exact hread
  | element _ _ _ _ _ hread => simpa using hread

/-- Applying the operator of a node anew gives the node that is read back, if it can be. -/
theorem apply_reread {head : Head} (h : Sound ctx head (es.map Expr.head))
    (hkeyed : ctx.host.Keyed) {op : Operator} (hop : head.operator? = some op) :
    SucceedsIff (unplaced (ctx.apply op (head.arguments (es.map Expr.reread)) default))
      (Rereads ctx.strict head (es.map Expr.head))
      (.node default head (head.settle (es.map Expr.reread))) := by
  by_cases hne : ∀ c, head ≠ .comparison c
  · have hrereads : Rereads ctx.strict head (es.map Expr.head) :=
      rereads_of_not_beside (Head.ne_constant hop) fun s v => not_beside_of_ne hne
    have happly := apply_iff_of_built hrereads (h.built_reread hkeyed hop hne)
    rw [map_erase_reread] at happly
    rwa [Head.settle_of_ne hne]
  · obtain ⟨c, rfl⟩ : ∃ c, head = .comparison c := by simpa using hne
    cases hop
    exact h.apply_comparison

end Sound

end SignalRules
