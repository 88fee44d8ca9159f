import SignalRules.Proofs.Algebraic.Canonical
import SignalRules.Proofs.Algebraic.Weight

/-!
# The lightest phrase of an expression

No phrase that builds an expression weighs less than the phrase that the expression is written as.
An operand is grouped there only if it has to be: a phrase that respects precedence has a group in
the same place, since what is not a group binds as the expression does that it builds.

Splicing may move the first operand of a chain behind others, where it has to be grouped though it
was not before. This costs no more than the group around the chain that was spliced.

## Main definitions

* `Expr.chainWeight`: the weight of operands that are written in a chain.
* `Phrase.Outweighs`: a phrase weighs at least as much as an expression does when it is written.

## Main results

* `Phrase.outweighs_of_build`: a phrase outweighs the expression that it builds.
-/

namespace SignalRules

variable {ctx : Context}

namespace Phrase

/-- Whether a phrase is in parentheses. -/
def isGroup : Phrase → Bool
  | group _ => true
  | _ => false

theorem weight_chain (p : Phrase) (ss : List (Operator × Phrase)) :
    (chain p ss).weight = p.weight + (ss.map fun s => s.2.weight).sum := by
  induction ss generalizing p with
  | nil => simp [chain]
  | cons s ss ih =>
    have hchain : chain p (s :: ss) = chain (binary s.1 p s.2) ss := rfl
    rw [hchain, ih, weight, List.map_cons, List.sum_cons, Nat.add_assoc]

theorem weight_grouped (p : Phrase) (b : Bool) :
    (p.grouped b).weight = p.weight + if b then 1 else 0 := by
  cases b with
  | false => rfl
  | true => exact Nat.add_comm _ _

end Phrase

theorem Operator.phrase_of_isBinary {op : Operator} (hop : op.isBinary)
    (ps : List (Head × Phrase)) : op.phrase ps = op.chainPhrase ps := by
  unfold isBinary at hop
  unfold phrase
  split at hop <;> simp_all

theorem Head.phrase_of_isBinary {head : Head} {op : Operator} (hhead : head.operator? = some op)
    (hop : op.isBinary) (ps : List (Head × Phrase)) : head.phrase ps = op.chainPhrase ps := by
  cases head with
  | comparison c | connective c | arithmetic c =>
    cases hhead
    exact Operator.phrase_of_isBinary hop ps
  | property mode p =>
    cases hhead
    rcases mode with (_ | _) | (_ | _) | _ <;> cases hop
  | presence kind names =>
    cases hhead
    cases kind <;> cases hop
  | signal | action | concat =>
    cases hhead
    cases hop
  | constant | symbol => cases hhead

/-- A condition is not a number. -/
theorem Head.isNumber_of_type_boolean {head : Head} (h : head.type = .boolean) :
    head.isNumber = false := by
  cases head with
  | constant v => cases v <;> cases h
  | _ => rfl

namespace Expr

variable {op : Operator} {e a b : Expr} {es : List Expr}

/-- The phrase of an expression does not depend on spans. -/
theorem phrase_erase (e : Expr) : e.erase.phrase = e.phrase := by
  induction e using node_induction with
  | step span head es ih =>
    rw [erase_node, phrase_node, phrase_node, List.map_map]
    congr 1
    refine List.map_congr_left fun e he => ?_
    rw [Function.comp_apply, head_erase, ih e he]

/-- The weight of an operand of a binary operator, in parentheses if needed. -/
def operandWeight (op : Operator) (isFirst : Bool) (e : Expr) : Nat :=
  (e.phrase.grouped (op.groupsOperand isFirst e.head)).weight

/-- The weight of the operands of a binary operator. -/
def chainWeight (op : Operator) (isFirst : Bool) : List Expr → Nat
  | [] => 0
  | e :: es => operandWeight op isFirst e + chainWeight op false es

theorem weight_chainPhrase (op : Operator) (es : List Expr) :
    (op.chainPhrase (es.map fun e => (e.head, e.phrase))).weight = chainWeight op true es := by
  have hrest (es : List Expr) :
      (es.map (operandWeight op false)).sum = chainWeight op false es := by
    induction es with
    | nil => rfl
    | cons e es ih => rw [List.map_cons, List.sum_cons, ih, chainWeight]
  cases es with
  | nil => rfl
  | cons e es =>
    rw [List.map_cons, Operator.chainPhrase, Phrase.weight_chain, chainWeight, ← hrest,
      List.map_map, List.map_map]
    rfl

/-- The phrase of a binary operator weighs as much as its operands in a chain. -/
theorem weight_of_isBinary (hhead : e.head.operator? = some op) (hop : op.isBinary) :
    e.phrase.weight = chainWeight op true e.operands := by
  obtain ⟨span, head, es⟩ := e
  have hphrase := Head.phrase_of_isBinary hhead hop (es.map fun e => (e.head, e.phrase))
  exact (congrArg Phrase.weight ((phrase_node span head es).trans hphrase)).trans
    (weight_chainPhrase op es)

theorem operandWeight_true_le (op : Operator) (e : Expr) :
    operandWeight op true e ≤ operandWeight op false e := by
  rw [operandWeight, operandWeight, Phrase.weight_grouped, Phrase.weight_grouped]
  cases htrue : op.groupsOperand true e.head with
  | false => simp
  | true =>
    have hfalse : op.groupsOperand false e.head = true := by
      simp only [Operator.groupsOperand] at htrue ⊢
      simp_all
    rw [hfalse]

theorem operandWeight_false_le (op : Operator) (e : Expr) :
    operandWeight op false e ≤ operandWeight op true e + 1 := by
  rw [operandWeight, operandWeight, Phrase.weight_grouped, Phrase.weight_grouped]
  split_ifs <;> omega

/-- The operands of a chain weigh at most one more behind others than they do in front. -/
theorem chainWeight_false_le (op : Operator) (es : List Expr) :
    chainWeight op false es ≤ chainWeight op true es + 1 := by
  cases es with
  | nil => simp [chainWeight]
  | cons e es =>
    have hfirst := operandWeight_false_le op e
    rw [chainWeight, chainWeight]
    omega

theorem chainWeight_append_le (op : Operator) (isFirst : Bool) (as bs : List Expr) :
    chainWeight op isFirst (as ++ bs) ≤ chainWeight op isFirst as + chainWeight op false bs := by
  induction as generalizing isFirst with
  | nil =>
    cases bs with
    | nil => simp [chainWeight]
    | cons b bs =>
      have hfirst := operandWeight_true_le op b
      cases isFirst <;> simp [chainWeight, hfirst]
  | cons a as ih =>
    have hrest := ih false
    rw [List.cons_append, chainWeight, chainWeight]
    omega

end Expr

/-- A phrase weighs at least as much as an expression does when it is written, and one more if it is
a group. If it is no group, it binds as the expression does. -/
structure Phrase.Outweighs (p : Phrase) (e : Expr) : Prop where
  weight : e.phrase.weight ≤ p.weight
  group : p.isGroup → e.phrase.weight + 1 ≤ p.weight
  power : p.isGroup = false → p.power = e.head.precedence

namespace Phrase

open SignalRules.Expr (operandWeight chainWeight)

variable {op : Operator} {p left right : Phrase} {e a b : Expr}

theorem outweighs_of_not_isGroup (hgroup : p.isGroup = false)
    (hpower : p.power = e.head.precedence) (hweight : e.phrase.weight ≤ p.weight) :
    p.Outweighs e :=
  ⟨hweight, fun h => absurd h (by simp [hgroup]), fun _ => hpower⟩

theorem Outweighs.erase (h : p.Outweighs e) : p.Outweighs e.erase := by
  refine ⟨?_, fun hgroup => ?_, fun hgroup => ?_⟩
  · rw [Expr.phrase_erase]
    exact h.weight
  · rw [Expr.phrase_erase]
    exact h.group hgroup
  · rw [Expr.head_erase]
    exact h.power hgroup

theorem weight_value (v : Value) : v.phrase.weight = 0 := by
  cases v with
  | unset | string => simp [Value.phrase, weight]
  | number n =>
    rw [Value.phrase]
    split_ifs <;> simp [weight]

/-- Only a group can be the first operand of an operator that binds more tightly. -/
theorem Outweighs.operandWeight_true_le (h : left.Outweighs a)
    (hl : op.precedence ≤ left.power) : operandWeight op true a ≤ left.weight := by
  rw [operandWeight, weight_grouped]
  cases hgroup : left.isGroup with
  | true =>
    have := h.group hgroup
    split_ifs <;> omega
  | false =>
    have hgroups : op.groupsOperand true a.head = false := by
      have := h.power hgroup
      simp [Operator.groupsOperand]
      omega
    simpa [hgroups] using h.weight

/-- Only a group can be a later operand of an operator that binds as tightly. -/
theorem Outweighs.operandWeight_false_le (h : right.Outweighs b)
    (hr : op.precedence < right.power) : operandWeight op false b ≤ right.weight := by
  rw [operandWeight, weight_grouped]
  cases hgroup : right.isGroup with
  | true =>
    have := h.group hgroup
    split_ifs <;> omega
  | false =>
    have hgroups : op.groupsOperand false b.head = false := by
      have := h.power hgroup
      simp [Operator.groupsOperand]
      omega
    simpa [hgroups] using h.weight

/-- Splicing the operands of an operator makes them no heavier. -/
theorem chainWeight_flatten_le (hop : op.isBinary) {same : Head → Bool}
    (hsame : ∀ x, same x → x.operator? = some op) (ha : left.Outweighs a) (hb : right.Outweighs b)
    (hl : op.precedence ≤ left.power) (hr : op.precedence < right.power) :
    chainWeight op true (flatten same [a, b]) ≤ left.weight + right.weight := by
  have hfirst : chainWeight op true (if same a.head then a.operands else [a]) ≤ left.weight := by
    split_ifs with h
    · rw [← Expr.weight_of_isBinary (hsame _ h) hop]
      exact ha.weight
    · exact ha.operandWeight_true_le hl
  have hrest : chainWeight op false (if same b.head then b.operands else [b]) ≤ right.weight := by
    split_ifs with h
    · -- A chain on the right of its own operator is in parentheses, and those pay for splicing it.
      have hgroup : right.isGroup := by
        by_contra hgroup
        have hpower : right.power = op.precedence :=
          (hb.power (by simpa using hgroup)).trans (by rw [Head.precedence, hsame _ h])
        omega
      have hchain := hb.group hgroup
      rw [Expr.weight_of_isBinary (hsame _ h) hop] at hchain
      exact Nat.le_trans (Expr.chainWeight_false_le op _) hchain
    · exact hb.operandWeight_false_le hr
  have happend := Expr.chainWeight_append_le op true (if same a.head then a.operands else [a])
    (if same b.head then b.operands else [b])
  simp only [flatten, List.flatMap_cons, List.flatMap_nil, List.append_nil]
  omega

/-- A binary operator outweighs the node that it becomes. -/
theorem chainWeight_built_le (hop : op.isBinary) (ha : left.Outweighs a) (hb : right.Outweighs b)
    (hl : op.precedence ≤ left.power) (hr : op.precedence < right.power) {head : Head}
    {es : List Expr} (hbuilt : Built ctx op [a, b] head es) :
    head.operator? = some op ∧ chainWeight op true es ≤ left.weight + right.weight := by
  have hfirst := ha.operandWeight_true_le hl
  have hrest := hb.operandWeight_false_le hr
  -- A literal weighs nothing, so replacing it beside a signal adds no weight.
  have hliteral (isFirst : Bool) (v : Value) (s : Span) :
      operandWeight op isFirst (.constant v s) = 0 := by
    have hatom := Expr.atomPrecedence_gt hop
    have hprecedence : (Head.constant v).precedence = Operator.atomPrecedence := rfl
    have hgroups : op.groupsOperand isFirst (Expr.constant v s).head = false := by
      change op.groupsOperand isFirst (.constant v) = false
      simp [Operator.groupsOperand, hprecedence]
      omega
    rw [operandWeight, hgroups]
    exact weight_value v
  have hpair : chainWeight op true [a, b] ≤ left.weight + right.weight := by
    simp only [chainWeight]
    omega
  cases hbuilt with
  | comparison => exact ⟨rfl, hpair⟩
  | signalLiteral | literalSignal =>
    refine ⟨rfl, ?_⟩
    simp only [chainWeight, hliteral]
    omega
  | @connective op =>
    refine ⟨rfl, ?_⟩
    unfold Connective.merge
    split_ifs
    · refine chainWeight_flatten_le hop (fun x hx => ?_) ha hb hl hr
      rw [Head.isConnective_iff.1 hx]
      rfl
    · exact hpair
  | @arithmetic op =>
    refine ⟨rfl, ?_⟩
    unfold Arithmetic.merge
    split_ifs
    · refine chainWeight_flatten_le hop (fun x hx => ?_) ha hb hl hr
      rw [Head.isArithmetic_iff.1 hx]
      rfl
    · exact hpair
  | concat => cases hop
  | element hreads =>
    have hnone : ∀ op : Operator, op.isBinary → op.readsProperty = false :=
      Operator.forall_of_all (by decide)
    rw [hnone op hop] at hreads
    cases hreads
  | @presence kind => cases kind <;> cases hop
  | action => cases hop

/-- The arguments of a call outweigh the operands that they build. -/
theorem sum_weight_le {args : List Phrase} {es : List Expr} (hes : buildAll ctx args = .ok es)
    (h : ∀ p ∈ args, ∀ {e : Expr}, p.build ctx = .ok e → p.Outweighs e) :
    (es.map fun e => e.phrase.weight).sum ≤ weightAll args := by
  induction args generalizing es with
  | nil =>
    cases hes
    simp
  | cons p args ih =>
    obtain ⟨e, he, hes⟩ := bind_eq_ok_iff.1 hes
    obtain ⟨es', hes', hes⟩ := bind_eq_ok_iff.1 hes
    cases hes
    rw [List.forall_mem_cons] at h
    have hfirst := (h.1 he).weight
    have hrest := ih hes' h.2
    rw [List.map_cons, List.sum_cons, weightAll]
    omega

theorem weightAll_phrases (es : List Expr) :
    weightAll ((es.map fun e => (e.head, e.phrase)).map Prod.snd) =
      (es.map fun e => e.phrase.weight).sum := by
  rw [weightAll_eq_sum, List.map_map, List.map_map]
  rfl

/-- A built-in function that is called outweighs the node that it becomes. -/
theorem outweighs_call (hop : op.isCall) {args : List Phrase} {es : List Expr}
    (hweight : (es.map fun e => e.phrase.weight).sum ≤ weightAll args) {head : Head}
    {es' : List Expr} (hbuilt : Built ctx op es head es') (s : Span) :
    (call op args).Outweighs (.node s head es') := by
  have hcall {op' : Operator} {ps : List Phrase}
      (hprecedence : head.precedence = Operator.atomPrecedence)
      (hphrase : (Expr.node s head es').phrase = .call op' ps)
      (hle : weightAll ps ≤ (es.map fun e => e.phrase.weight).sum) :
      (call op args).Outweighs (.node s head es') := by
    refine outweighs_of_not_isGroup rfl hprecedence.symm ?_
    rw [hphrase, weight, weight]
    omega
  have hmode (mode : PropertyMode) : mode.operator.precedence = Operator.atomPrecedence := by
    rcases mode with (_ | _) | (_ | _) | _ <;> rfl
  cases hbuilt with
  | @comparison op | @signalLiteral op | @literalSignal op | @connective op =>
    cases op <;> cases hop
  | @arithmetic op =>
    cases op with
    | min | max | round =>
      exact hcall rfl (Expr.phrase_node ..) (Nat.le_of_eq (weightAll_phrases es))
    | _ => cases hop
  | concat => exact hcall rfl (Expr.phrase_node ..) (Nat.le_of_eq (weightAll_phrases es))
  | property => exact hcall (hmode _) (Expr.phrase_node ..) (by simp [weightAll, weight])
  | element =>
    refine hcall (hmode _) (Expr.phrase_node ..) ?_
    simp [weightAll, weight]
  | @presence kind => cases kind <;> cases hop
  | signal | action => cases hop

theorem weight_minus (p : Phrase) :
    1 ≤ (minus p).weight ∧ (minus p).weight ≤ 1 + p.weight ∧
      (p.isGroupedLiteral = false → (minus p).weight = 1 + p.weight) := by
  rw [weight]
  split_ifs with h
  · exact ⟨Nat.le_refl 1, Nat.le_add_right 1 _, fun hne => by simp [h] at hne⟩
  · exact ⟨Nat.le_add_right 1 _, Nat.le_refl _, fun _ => rfl⟩

theorem isLiteral_phrase (h : a.head.isNumber) : a.phrase.isLiteral := by
  obtain ⟨span, head, es⟩ := a
  cases head with
  | constant v =>
    cases v with
    | number n =>
      rw [Expr.phrase_node, Head.phrase, Value.phrase]
      split_ifs <;> rfl
    | _ => cases h
  | _ => cases h

theorem isNumber_of_isGroupedLiteral (h : p.isGroupedLiteral) (ha : p.build ctx = .ok a) :
    a.head.isNumber := by
  cases p with
  | group inner =>
    cases inner with
    | number | negative =>
      obtain ⟨e, he, rfl⟩ := unplaced_eq_ok_iff.1 ha
      obtain ⟨n, -, rfl⟩ := Context.number_eq_ok_iff.1 he
      rw [Expr.head_erase]
      rfl
    | _ => cases h
  | _ => cases h

/-- Only a group can be an operand that a unary operator does not take as it is. -/
theorem Outweighs.weight_groupsUnary_le (h : p.Outweighs a)
    (hpower : op.operandPrecedence ≤ p.power ∨ a.head.operator? = some op) :
    (a.phrase.grouped (op.groupsUnary a.head)).weight ≤ p.weight := by
  rw [weight_grouped]
  cases hgroup : p.isGroup with
  | true =>
    have := h.group hgroup
    split_ifs <;> omega
  | false =>
    have hgroups : op.groupsUnary a.head = false := by
      have hprecedence := h.power hgroup
      rcases hpower with hle | hsame
      · simp only [Operator.groupsUnary, Bool.and_eq_false_iff, decide_eq_false_iff_not]
        omega
      · simp [Operator.groupsUnary, hsame]
    simpa [hgroups] using h.weight

/-- A minus sign outweighs the node that it becomes. -/
theorem outweighs_minus (hpower : (Operator.arithmetic .neg).operandPrecedence ≤ p.power)
    (h : p.Outweighs a) (hliteral : p.isGroupedLiteral → a.head.isNumber) (s : Span) :
    (minus p).Outweighs (.node s (.arithmetic .neg) [a]) := by
  refine outweighs_of_not_isGroup rfl rfl ?_
  have hphrase : (Expr.node s (.arithmetic .neg) [a]).phrase =
      .minus (a.phrase.grouped
        ((Operator.arithmetic .neg).groupsUnary a.head || a.head.isNumber)) :=
    Expr.phrase_node ..
  rw [hphrase]
  cases hnumber : a.head.isNumber with
  | true =>
    have hgrouped : (a.phrase.grouped true).isGroupedLiteral = true := isLiteral_phrase hnumber
    rw [Bool.or_true, weight, if_pos hgrouped]
    exact (weight_minus p).1
  | false =>
    have hnot : p.isGroupedLiteral = false := by
      by_contra hne
      simp [hliteral (by simpa using hne)] at hnumber
    have hle := h.weight_groupsUnary_le (.inl hpower)
    rw [Bool.or_false, (weight_minus p).2.2 hnot]
    exact Nat.le_trans (weight_minus _).2.1 (Nat.add_le_add_left hle 1)

/-- A `not` outweighs the node that it becomes. -/
theorem outweighs_not (hpower : (Operator.connective .not).operandPrecedence ≤ p.power ∨
      a.head.operator? = some (.connective .not)) (h : p.Outweighs a)
    (hnumber : a.head.isNumber = false) (s : Span) :
    (not p).Outweighs (.node s (.connective .not) [a]) := by
  refine outweighs_of_not_isGroup rfl rfl ?_
  have hphrase : (Expr.node s (.connective .not) [a]).phrase =
      .not (a.phrase.grouped ((Operator.connective .not).groupsUnary a.head || a.head.isNumber)) :=
    Expr.phrase_node ..
  rw [hphrase, hnumber, Bool.or_false, weight, weight]
  exact h.weight_groupsUnary_le hpower

theorem operator?_of_build_not (h : (not p).build ctx = .ok e) :
    e.head.operator? = some (.connective .not) := by
  obtain ⟨a, -, h⟩ := bind_eq_ok_iff.1 h
  obtain ⟨head, es, hbuilt, rfl⟩ := Context.unplaced_apply_eq_ok_iff.1 h
  obtain ⟨-, -, rfl, -⟩ := Built.connective_iff.1 hbuilt
  rfl

/-- A phrase outweighs the expression that it builds. -/
theorem outweighs_of_build (hp : p.RespectsPrecedence) (h : p.build ctx = .ok e) :
    p.Outweighs e := by
  induction hp generalizing e with
  | number digits | negative digits =>
    obtain ⟨e', he', rfl⟩ := unplaced_eq_ok_iff.1 h
    obtain ⟨n, -, rfl⟩ := Context.number_eq_ok_iff.1 he'
    refine outweighs_of_not_isGroup rfl rfl ?_
    rw [Expr.phrase_erase]
    exact Nat.le_of_eq (weight_value (.number n))
  | text content =>
    cases h
    exact outweighs_of_not_isGroup rfl rfl (Nat.le_of_eq (weight_value (.string content)))
  | signal name =>
    obtain ⟨e', he', rfl⟩ := unplaced_eq_ok_iff.1 h
    obtain ⟨s, -, rfl⟩ := Context.signal_eq_ok_iff.1 he'
    exact outweighs_of_not_isGroup rfl rfl (Nat.le_refl 0)
  | presence kind names =>
    obtain ⟨head, es', hbuilt, rfl⟩ := Context.unplaced_apply_eq_ok_iff.1 h
    obtain ⟨names', -, -, rfl, rfl⟩ := Built.presence_iff.1 hbuilt
    refine outweighs_of_not_isGroup rfl (by cases kind <;> rfl) ?_
    rw [Expr.phrase_node, Head.phrase, weight, weight]
  | @call op args hop _ ih =>
    obtain ⟨es, hes, h⟩ := bind_eq_ok_iff.1 h
    obtain ⟨head, es', hbuilt, rfl⟩ := Context.unplaced_apply_eq_ok_iff.1 h
    rw [← Expr.erase_node default]
    exact (outweighs_call hop (sum_weight_le hes ih) hbuilt default).erase
  | @invoke name args _ ih =>
    obtain ⟨es, hes, h⟩ := bind_eq_ok_iff.1 h
    obtain ⟨e', he', rfl⟩ := unplaced_eq_ok_iff.1 h
    obtain ⟨a, -, rfl⟩ := Context.action_eq_ok_iff.1 he'
    refine (outweighs_of_not_isGroup rfl rfl ?_ : Outweighs _ _).erase
    have hweight := sum_weight_le hes ih
    rw [Expr.phrase_node, Head.phrase, weight, weight, weightAll_phrases]
    omega
  | @group inner _ ih =>
    have hinner := (ih h).weight
    have hle : e.phrase.weight + 1 ≤ (group inner).weight := by
      rw [weight]
      omega
    exact ⟨Nat.le_of_succ_le hle, fun _ => hle, fun hgroup => Bool.noConfusion hgroup⟩
  | @minus operand _ hpower _ ih =>
    obtain ⟨a, ha, h⟩ := bind_eq_ok_iff.1 h
    obtain ⟨head, es, hbuilt, rfl⟩ := Context.unplaced_apply_eq_ok_iff.1 h
    obtain ⟨-, -, rfl, rfl⟩ := Built.arithmetic_iff.1 hbuilt
    rw [← Expr.erase_node default]
    exact (outweighs_minus hpower (ih ha) (fun h => isNumber_of_isGroupedLiteral h ha) _).erase
  | @not operand _ hpower ih =>
    obtain ⟨a, ha, h⟩ := bind_eq_ok_iff.1 h
    obtain ⟨head, es, hbuilt, rfl⟩ := Context.unplaced_apply_eq_ok_iff.1 h
    obtain ⟨-, hall, rfl, rfl⟩ := Built.connective_iff.1 hbuilt
    have hnumber := Head.isNumber_of_type_boolean (hall a (by simp))
    -- A negation needs no group behind another one, though it binds more loosely than comparisons.
    have hsame : (Operator.connective .not).operandPrecedence ≤ operand.power ∨
        a.head.operator? = some (.connective .not) := by
      refine hpower.imp_right ?_
      rintro ⟨inner, rfl⟩
      exact operator?_of_build_not ha
    rw [← Expr.erase_node default]
    exact (outweighs_not hsame (ih ha) hnumber _).erase
  | binary hop _ _ hl hr ihl ihr =>
    obtain ⟨a, ha, h⟩ := bind_eq_ok_iff.1 h
    obtain ⟨b, hb, h⟩ := bind_eq_ok_iff.1 h
    obtain ⟨head, es, hbuilt, rfl⟩ := Context.unplaced_apply_eq_ok_iff.1 h
    obtain ⟨hhead, hweight⟩ := chainWeight_built_le hop (ihl ha) (ihr hb) hl hr hbuilt
    rw [← Expr.erase_node default]
    refine (outweighs_of_not_isGroup rfl ?_ ?_ : Outweighs _ _).erase
    · rw [Expr.head, Head.precedence, hhead]
      rfl
    · rwa [Expr.weight_of_isBinary (e := .node default head es) hhead hop, weight]

end Phrase

end SignalRules
