import SignalRules.Proofs.Algebraic.Canonical
import SignalRules.Proofs.Polish.Canonical
import SignalRules.Proofs.Rereading

/-!
# Building the canonical form anew

The term and the phrase of an expression build the expression that it is read back as, exactly if
every node can be read back. In the algebraic grammar a merged chain is built from the left, and
every step merges what was built so far.

## Main results

* `Expr.build_term`, `Expr.build_phrase`: what the canonical form of an expression builds.
-/

namespace SignalRules

/-! ### Literals and nodes -/

theorem Phrase.buildAll_eq_mapM (ctx : Context) (ps : List Phrase) :
    buildAll ctx ps = ps.mapM (build ctx) := by
  induction ps with
  | nil => rfl
  | cons p ps ih => rw [buildAll, ih, List.mapM_cons]

theorem Term.buildAll_eq_mapM (ctx : Context) (ts : List Term) :
    buildAll ctx ts = ts.mapM (build ctx) := by
  induction ts with
  | nil => rfl
  | cons t ts ih => rw [buildAll, ih, List.mapM_cons]

variable {ctx : Context}

/-- A condition holds everywhere in an expression if it holds at the top and in the operands. -/
theorem Expr.everywhere_node {P : Head → List Head → Prop} {span : Span} {head : Head}
    {es : List Expr} :
    (Expr.node span head es).Everywhere P ↔
      P head (es.map Expr.head) ∧ ∀ e ∈ es, e.Everywhere P :=
  ⟨fun h => ⟨h.head, h.operands⟩, fun h => .node h.1 h.2⟩

/-- The text of a number builds the number, unless it is the least one. -/
theorem build_digits (n : Fixed) :
    SucceedsIff (unplaced (Context.number (String.ofList n.digits) default))
      (n.hundredths ≠ leastCount) (.constant (.number n) default) := by
  intro x
  rw [unplaced_eq_ok_iff]
  simp only [Context.number_eq_ok_iff, String.toList_ofList]
  by_cases hleast : n.hundredths = leastCount
  · simp [Fixed.parse?_digits_least hleast, hleast]
  · simp only [Fixed.parse?_digits hleast, Option.some.injEq, exists_eq_left', hleast, ne_eq,
      not_false_eq_true, true_and, exists_eq_left, Expr.erase_constant]
    exact eq_comm

theorem Value.build_term (v : Value) :
    SucceedsIff (v.term.build ctx) v.Legible (.constant v.reread default) := by
  cases v with
  | unset | string => exact .of_ok _
  | number n => exact build_digits n

theorem Value.build_phrase (v : Value) :
    SucceedsIff (v.phrase.build ctx) v.Legible (.constant v.reread default) := by
  cases v with
  | unset | string => exact .of_ok _
  | number n =>
    have h := build_digits n
    rw [Fixed.digits_eq] at h
    rw [phrase]
    split_ifs at h ⊢ with hneg
    · have hsign : "-" ++ String.ofList n.magnitudeDigits =
          String.ofList ('-' :: n.magnitudeDigits) := by simp
      rwa [Phrase.build, hsign]
    · exact h

/-- Whether a node never has operands. -/
def Head.isLeaf : Head → Bool
  | constant _ | symbol _ | signal _ | presence _ _ => true
  | _ => false

namespace Sound

variable {head : Head} {es : List Expr} {op : Operator}

theorem eq_nil (h : Sound ctx head (es.map Expr.head)) (hleaf : head.isLeaf) : es = [] := by
  generalize hheads : es.map Expr.head = heads at h
  cases h with
  | literal | signal | presence => simpa using hheads
  | _ => cases hleaf

/-- Applying the operator of a node to operands that are read back. -/
theorem apply_node (h : Sound ctx head (es.map Expr.head)) (hkeyed : ctx.host.Keyed)
    (hop : head.operator? = some op) (span : Span) :
    SucceedsIff (unplaced (ctx.apply op (head.arguments (es.map Expr.reread)) default))
      (Rereads ctx.strict head (es.map Expr.head)) (Expr.node span head es).reread := by
  rw [Expr.reread_node, Head.reread_of_ne (Head.ne_constant hop)]
  exact h.apply_reread hkeyed hop

/-- A node is read back if its operands are and its operator can be applied to them. -/
theorem build_node (h : Sound ctx head (es.map Expr.head)) (hkeyed : ctx.host.Keyed)
    (hop : head.operator? = some op) (span : Span) {r : Except Cause (List Expr)}
    (hr : SucceedsIff r (∀ e ∈ es, e.Everywhere (Rereads ctx.strict))
      (head.arguments (es.map Expr.reread))) :
    SucceedsIff (r >>= fun args => unplaced (ctx.apply op args default))
      ((Expr.node span head es).Everywhere (Rereads ctx.strict))
      (Expr.node span head es).reread :=
  (hr.bind (h.apply_node hkeyed hop span)).congr (by rw [Expr.everywhere_node, and_comm])

end Sound

/-- A sound literal is a literal and nothing else. -/
theorem Expr.eq_literal {e : Expr} (h : e.Everywhere (Sound ctx)) {v : Value}
    (hv : e.head = .constant v) : e = .node e.span (.constant v) [] := by
  obtain ⟨span, head, es⟩ := e
  obtain rfl : head = .constant v := hv
  obtain rfl := h.head.eq_nil rfl
  rfl

namespace Expr

/-! ### The Polish grammar -/

/-- The terms of operands build the operands that are read back. -/
theorem buildAll_terms {es : List Expr} (h : ∀ e ∈ es, SucceedsIff (e.term.build ctx)
      (e.Everywhere (Rereads ctx.strict)) e.reread) :
    SucceedsIff (Term.buildAll ctx (es.map term)) (∀ e ∈ es, e.Everywhere (Rereads ctx.strict))
      (es.map reread) := by
  rw [Term.buildAll_eq_mapM, List.mapM_map]
  exact .mapM h

/-- The term of an expression builds the expression that is read back, if it can be. -/
theorem build_term {e : Expr} (hkeyed : ctx.host.Keyed) (h : e.Everywhere (Sound ctx)) :
    SucceedsIff (e.term.build ctx) (e.Everywhere (Rereads ctx.strict)) e.reread := by
  induction h with
  | @node span head es h _ ih =>
    have hoperands := buildAll_terms ih
    rw [term_node]
    cases head with
    | constant v =>
      obtain rfl := h.eq_nil rfl
      exact v.build_term.congr (by simp [everywhere_node])
    | symbol name => cases h
    | signal s =>
      obtain rfl := h.eq_nil rfl
      exact h.build_node hkeyed rfl span ((SucceedsIff.of_ok _).congr (by simp))
    | action a once =>
      exact h.build_node hkeyed rfl span (.cons rfl hoperands)
    | comparison op | connective op | arithmetic op => exact h.build_node hkeyed rfl span hoperands
    | concat => exact h.build_node hkeyed rfl span hoperands
    | property mode p =>
      exact h.build_node hkeyed rfl span (.cons rfl hoperands)
    | presence kind names =>
      obtain rfl := h.eq_nil rfl
      refine h.build_node hkeyed rfl span ?_
      rw [Term.buildAll_eq_mapM, List.mapM_map]
      exact (SucceedsIff.mapM fun n _ => .of_ok _).congr (by simp)

end Expr

/-! ### The algebraic grammar -/

theorem Context.apply_action (name : String) (args : List Expr) (span : Span) :
    ctx.apply .action (.symbol name default :: args) span = ctx.action name args span := by
  simp [apply, Operator.arity, Expr.symbol]

theorem Phrase.build_grouped (b : Bool) (p : Phrase) :
    (p.grouped b).build ctx = p.build ctx := by
  cases b with
  | false => rfl
  | true => rw [grouped, if_pos rfl, build]

/-- Splicing the first of two operands. -/
theorem flatten_pair {same : Head → Bool} {x y : Expr} {xs : List Expr}
    (hx : (if same x.head then x.operands else [x]) = xs) (hy : same y.head = false) :
    flatten same [x, y] = xs ++ [y] := by
  simp [flatten, hx, hy]

namespace Sound

variable {head : Head} {es : List Expr} {op : Operator}

/-- An operand is merged with what was built from the operands on its left, be it a single operand
or a node with the same operator. -/
theorem built_merge (h : Sound ctx head (es.map Expr.head)) (hop : head.operator? = some op)
    (hflat : op.isFlattened) {x y : Expr} {xs : List Expr}
    (hx : x.head = head ∧ x.operands = xs ∨ x ∈ es.map Expr.reread ∧ [x] = xs)
    (hy : y ∈ es.map Expr.reread) : Built ctx op [x, y] head (xs ++ [y]) := by
  generalize hheads : es.map Expr.head = heads at h
  cases h with
  | @connective c _ hcount htype hne =>
    cases hop
    subst hheads
    have hread : ∀ z ∈ es.map Expr.head, z.Readable := fun z hz =>
      Head.readable_of_boolean (htype z hz)
    have htype' := forall_head_reread hread htype
    have hne' := forall_head_reread hread (hne hflat)
    -- On the left stands the chain so far, whose operands are taken over, or a single operand,
    -- which is no chain of the same operator.
    have hfirst : x.type = .boolean ∧ (if x.head.isConnective c then x.operands else [x]) = xs := by
      rcases hx with ⟨hhead, hxs⟩ | ⟨hmem, hxs⟩
      · exact ⟨by rw [Expr.type, hhead]; rfl, by simpa [hhead, Head.isConnective] using hxs⟩
      · exact ⟨htype' x hmem, by simpa [hne' x hmem] using hxs⟩
    have hbuilt : Built ctx (.connective c) [x, y] (.connective c) (c.merge [x, y]) := by
      refine .connective ?_ ?_
      · simp [arity_of_isFlattened _ hflat]
      · simpa using ⟨hfirst.1, htype' y hy⟩
    rwa [Connective.merge, if_pos hflat, flatten_pair hfirst.2 (hne' y hy)] at hbuilt
  | @arithmetic c _ hcount htype hne hread =>
    cases hop
    subst hheads
    have htype' := forall_head_reread hread htype
    have hne' := forall_head_reread hread (hne hflat)
    have hfirst : x.type = .value .number ∧
        (if x.head.isArithmetic c then x.operands else [x]) = xs := by
      rcases hx with ⟨hhead, hxs⟩ | ⟨hmem, hxs⟩
      · exact ⟨by rw [Expr.type, hhead]; rfl, by simpa [hhead, Head.isArithmetic] using hxs⟩
      · exact ⟨htype' x hmem, by simpa [hne' x hmem] using hxs⟩
    have hbuilt : Built ctx (.arithmetic c) [x, y] (.arithmetic c) (c.merge [x, y]) := by
      refine .arithmetic ?_ ?_
      · simp [arity_of_isFlattened _ hflat]
      · simpa using ⟨hfirst.1, htype' y hy⟩
    rwa [Arithmetic.merge, if_pos hflat, flatten_pair hfirst.2 (hne' y hy)] at hbuilt
  | literal => cases hop
  | property | element =>
    cases hop
    rw [isFlattened_operator] at hflat
    cases hflat
  | _ =>
    cases hop
    cases hflat

section Chains

variable (h : Sound ctx head (es.map Expr.head)) (hop : head.operator? = some op)
  (hflat : op.isFlattened)
  (ih : ∀ e ∈ es, SucceedsIff (e.phrase.build ctx) (e.Everywhere (Rereads ctx.strict)) e.reread)

include h hop hflat ih

/-- A chain of a merging operator is extended by one operand. -/
theorem build_step {p : Phrase} {C : Prop} {x y : Expr} {xs : List Expr}
    (hp : SucceedsIff (p.build ctx) C x) (hxs : xs.map Expr.erase = xs)
    (hx : x.head = head ∧ x.operands = xs ∨ x ∈ es.map Expr.reread ∧ [x] = xs)
    (hy : y ∈ es) (b : Bool) :
    SucceedsIff ((Phrase.binary op p (y.phrase.grouped b)).build ctx)
      (C ∧ y.Everywhere (Rereads ctx.strict)) (.node default head (xs ++ [y.reread])) := by
  have hbuilt := h.built_merge hop hflat hx (List.mem_map_of_mem hy)
  have happly : SucceedsIff (unplaced (ctx.apply op [x, y.reread] default)) True
      (.node default head (xs ++ [y.reread])) := by
    simpa [hxs] using apply_iff_of_built trivial hbuilt
  rw [Phrase.build, Phrase.build_grouped]
  exact (hp.bind ((ih y hy).bind happly)).congr (by simp)

/-- A chain of a merging operator builds one node. -/
theorem build_chain {p : Phrase} {C : Prop} {x y : Expr} {xs ys : List Expr}
    (hp : SucceedsIff (p.build ctx) C x) (hxs : xs.map Expr.erase = xs)
    (hx : x.head = head ∧ x.operands = xs ∨ x ∈ es.map Expr.reread ∧ [x] = xs)
    (hys : ∀ e ∈ y :: ys, e ∈ es) (b : Expr → Bool) :
    SucceedsIff ((Phrase.chain p ((y :: ys).map fun e => (op, e.phrase.grouped (b e)))).build ctx)
      (C ∧ ∀ e ∈ y :: ys, e.Everywhere (Rereads ctx.strict))
      (.node default head (xs ++ (y :: ys).map Expr.reread)) := by
  induction ys generalizing p C x xs y with
  | nil =>
    have hstep := h.build_step hop hflat ih hp hxs hx (hys y (by simp)) (b y)
    exact hstep.congr (by simp)
  | cons z zs ihzs =>
    have hstep := h.build_step hop hflat ih hp hxs hx (hys y (by simp)) (b y)
    have herase : (xs ++ [y.reread]).map Expr.erase = xs ++ [y.reread] := by simp [hxs]
    have hrest := ihzs hstep herase (.inl ⟨rfl, rfl⟩) fun e he => hys e (List.mem_cons_of_mem _ he)
    rw [List.append_assoc] at hrest
    exact hrest.congr (by simp [and_assoc])

end Chains

end Sound

namespace Expr

section Phrases

variable {head : Head} {es : List Expr} {op : Operator}
  (ih : ∀ e ∈ es, SucceedsIff (e.phrase.build ctx) (e.Everywhere (Rereads ctx.strict)) e.reread)

include ih

/-- The phrases of operands build the operands that are read back. -/
theorem buildAll_phrases :
    SucceedsIff (Phrase.buildAll ctx ((es.map fun e => (e.head, e.phrase)).map Prod.snd))
      (∀ e ∈ es, e.Everywhere (Rereads ctx.strict)) (es.map reread) := by
  rw [Phrase.buildAll_eq_mapM, List.map_map, List.mapM_map]
  exact .mapM ih

variable (h : Sound ctx head (es.map Expr.head)) (hkeyed : ctx.host.Keyed)
  (hop : head.operator? = some op)

include h hkeyed hop

/-- An operator between two operands builds the node that is read back. -/
theorem build_pair (hargs : head.arguments (es.map reread) = es.map reread)
    (hlength : es.length = 2) (span : Span) :
    SucceedsIff ((op.chainPhrase (es.map fun e => (e.head, e.phrase))).build ctx)
      ((node span head es).Everywhere (Rereads ctx.strict)) (node span head es).reread := by
  have happly := h.apply_node hkeyed hop span
  obtain ⟨a, b, rfl⟩ := List.length_eq_two.1 hlength
  rw [hargs] at happly
  have hchain : op.chainPhrase ([a, b].map fun e => (e.head, e.phrase)) =
      .binary op (a.phrase.grouped (op.groupsOperand true a.head))
        (b.phrase.grouped (op.groupsOperand false b.head)) := rfl
  rw [hchain, Phrase.build, Phrase.build_grouped, Phrase.build_grouped]
  refine ((ih a (by simp)).bind ((ih b (by simp)).bind happly)).congr ?_
  rw [everywhere_node, List.forall_mem_cons, List.forall_mem_singleton, ← and_assoc, and_comm]

omit hkeyed in
/-- A chain of a merging operator builds the node that is read back. -/
theorem build_merged (hflat : op.isFlattened) (hlength : 2 ≤ es.length) (span : Span) :
    SucceedsIff ((op.chainPhrase (es.map fun e => (e.head, e.phrase))).build ctx)
      ((node span head es).Everywhere (Rereads ctx.strict)) (node span head es).reread := by
  obtain ⟨a, b, rest, rfl⟩ : ∃ a b rest, es = a :: b :: rest := by
    match es, hlength with
    | a :: b :: rest, _ => exact ⟨a, b, rest, rfl⟩
  have hfirst : SucceedsIff ((a.phrase.grouped (op.groupsOperand true a.head)).build ctx)
      (a.Everywhere (Rereads ctx.strict)) a.reread := by
    rw [Phrase.build_grouped]
    exact ih a (by simp)
  have hsingle : [a.reread].map erase = [a.reread] := by simp
  have hchain := h.build_chain hop hflat ih hfirst hsingle (.inr ⟨by simp, rfl⟩)
    (fun e he => List.mem_cons_of_mem a he) fun e => op.groupsOperand false e.head
  have hne : ∀ c, head ≠ .comparison c := by
    rintro c rfl
    cases hop
    cases hflat
  rw [reread_node, Head.reread_of_ne (Head.ne_constant hop), Head.settle_of_ne hne]
  rw [List.map_cons, Operator.chainPhrase, List.map_map]
  refine hchain.congr ?_
  rw [everywhere_node, List.forall_mem_cons (a := a)]
  have hrereads : Rereads ctx.strict head ((a :: b :: rest).map Expr.head) :=
    rereads_of_not_beside (Head.ne_constant hop) fun s v => not_beside_of_ne hne
  exact (and_iff_right hrereads).symm

/-- A unary operator in front of an operand builds the node that is read back. -/
theorem build_unary (hargs : head.arguments (es.map reread) = es.map reread)
    (hlength : es.length = 1) (span : Span) :
    SucceedsIff
      (do let e ← (op.unaryPhrase (es.map fun e => (e.head, e.phrase))).build ctx
          unplaced (ctx.apply op [e] default))
      ((node span head es).Everywhere (Rereads ctx.strict)) (node span head es).reread := by
  have happly := h.apply_node hkeyed hop span
  obtain ⟨a, rfl⟩ := List.length_eq_one_iff.1 hlength
  rw [hargs] at happly
  have hoperand : SucceedsIff ((op.unaryPhrase ([a].map fun e => (e.head, e.phrase))).build ctx)
      (a.Everywhere (Rereads ctx.strict)) a.reread := by
    rw [List.map_singleton, Operator.unaryPhrase, Phrase.build_grouped]
    exact ih a (by simp)
  refine (hoperand.bind happly).congr ?_
  rw [everywhere_node, List.forall_mem_singleton, and_comm]

end Phrases

/-- The phrase of an expression builds the expression that is read back, if it can be. -/
theorem build_phrase {e : Expr} (hkeyed : ctx.host.Keyed) (h : e.Everywhere (Sound ctx)) :
    SucceedsIff (e.phrase.build ctx) (e.Everywhere (Rereads ctx.strict)) e.reread := by
  induction h with
  | @node span head es h _ ih =>
    have hoperands := buildAll_phrases ih
    rw [phrase_node]
    cases head with
    | constant v =>
      obtain rfl := h.eq_nil rfl
      exact v.build_phrase.congr (by simp [everywhere_node])
    | symbol name => cases h
    | signal s =>
      obtain rfl := h.eq_nil rfl
      exact h.build_node hkeyed rfl span
        ((SucceedsIff.of_ok [symbol s.name default]).congr (by simp))
    | action a once =>
      have happly := h.apply_node hkeyed rfl span
      rw [Head.arguments, Context.apply_action] at happly
      exact (hoperands.bind happly).congr (by rw [everywhere_node, and_comm])
    | comparison op =>
      have haccepts := h.count (.comparison op) rfl
      have hlength : es.length = 2 := by
        simpa [Head.operandCount, Operator.arity] using haccepts
      cases op <;> exact build_pair ih h hkeyed rfl rfl hlength span
    | connective op =>
      have haccepts := h.count (.connective op) rfl
      cases op with
      | not =>
        have hlength : es.length = 1 := by
          simpa [Head.operandCount, Operator.arity] using haccepts
        exact build_unary ih h hkeyed rfl rfl hlength span
      | and | or =>
        have hlength : 2 ≤ es.length := by
          simpa [Head.operandCount, Operator.arity] using haccepts
        exact build_merged ih h rfl rfl hlength span
    | arithmetic op =>
      have haccepts := h.count (.arithmetic op) rfl
      cases op with
      | neg =>
        have hlength : es.length = 1 := by
          simpa [Head.operandCount, Operator.arity] using haccepts
        exact build_unary ih h hkeyed rfl rfl hlength span
      | min | max | round => exact h.build_node hkeyed rfl span hoperands
      | add =>
        have hlength : 2 ≤ es.length := by
          simpa [Head.operandCount, Operator.arity] using haccepts
        exact build_merged ih h rfl rfl hlength span
      | sub | mul | div | mod =>
        have hlength : es.length = 2 := by
          simpa [Head.operandCount, Operator.arity] using haccepts
        exact build_pair ih h hkeyed rfl rfl hlength span
    | concat => exact h.build_node hkeyed rfl span hoperands
    | property mode p =>
      exact h.build_node hkeyed rfl span (.cons rfl hoperands)
    | presence kind names =>
      obtain rfl := h.eq_nil rfl
      exact (h.apply_node hkeyed rfl span).congr (by simp [everywhere_node])

end Expr

end SignalRules
