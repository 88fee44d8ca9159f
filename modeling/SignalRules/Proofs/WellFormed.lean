import Mathlib.Algebra.Module.Submodule.Lattice
import Mathlib.Computability.Primrec.List
import Mathlib.Data.List.Permutation
import SignalRules.Proofs.Checked

/-!
# Expressions that are read are well formed

Every node of an expression that was read takes the operands that its head asks for: their number
is within the arity of the operator, and their types are those of the table `Head.Takes`. No bare
name is left, actions stand at the root only, and no sum, conjunction or disjunction is an operand
of itself. The outdated literals of a signal have to be replaced by literals of the same type, since
they are replaced after the types of a comparison were checked.

## Main definitions

* `Head.Takes`: the operands of a node, by its head.
* `WellFormed`: what holds at every node.
* `Signal.KeepsType`: outdated literals keep their type.

## Main results

* `Context.everywhere_wellFormed_of_parse`: what is read is well formed at every node.
-/

namespace SignalRules

namespace Head

/-- The number of operands of the operator of a node, which has `count` operands itself. Names and
references that the head keeps count too. -/
def operandCount (count : Nat) : Head → Nat
  | signal _ => 1
  | action .. | property .. => count + 1
  | presence _ names => names.length
  | _ => count

/-- What the operands of a node have to be, by its head. -/
def Takes (operands : List Head) : Head → Prop
  | constant _ | signal _ | presence .. => operands = []
  | symbol _ => False
  | action a _ => a.arity.accepts operands.length ∧
      ∀ i x, operands[i]? = some x → ∃ p, a.parameter? i = some p ∧ x.type = .value p.type
  | comparison op => ∃ a b, operands = [a, b] ∧ Comparable op a b
  | connective _ => ∀ x ∈ operands, x.type = .boolean
  | arithmetic _ => ∀ x ∈ operands, x.type = .value .number
  | concat => ∀ x ∈ operands, ∃ t, x.type = .value t
  | property (.element t) p =>
    (PropertyMode.element t).Fits p ∧ ∃ i, operands = [i] ∧ i.type = .value .number
  | property mode p => mode.Fits p ∧ operands = []

/-- No head takes actions as operands. -/
theorem Takes.ne_action {operands : List Head} {head : Head} (h : head.Takes operands) :
    ∀ x ∈ operands, ∀ a once, x ≠ action a once := by
  have hvalue {x : Head} {t : ValueType} (hx : x.type = .value t) (a : Action) (once : Bool) :
      x ≠ action a once := by
    rintro rfl
    cases hx
  intro x hx a once
  cases head with
  | constant | signal | presence =>
    simp only [Takes] at h
    simp [h] at hx
  | symbol => exact h.elim
  | action =>
    obtain ⟨i, hi⟩ := List.mem_iff_getElem?.1 hx
    obtain ⟨p, -, hp⟩ := h.2 i x hi
    exact hvalue hp a once
  | comparison =>
    obtain ⟨l, r, rfl, t, hl, hr, -⟩ := h
    rcases List.mem_pair.1 hx with rfl | rfl
    · exact hvalue hl a once
    · exact hvalue hr a once
  | connective =>
    rintro rfl
    cases h _ hx
  | arithmetic => exact hvalue (h x hx) a once
  | concat =>
    obtain ⟨t, ht⟩ := h x hx
    exact hvalue ht a once
  | property mode =>
    cases mode with
    | element =>
      obtain ⟨-, i, rfl, hi⟩ := h
      rw [List.mem_singleton.1 hx]
      exact hvalue hi a once
    | value | length =>
      rw [h.2] at hx
      cases hx

end Head

/-- What holds at a node with the given head whose operands have the given heads. -/
structure WellFormed (head : Head) (operands : List Head) : Prop where
  /-- The operator of the node accepts the number of operands. -/
  count : ∀ op ∈ head.operator?, op.arity.accepts (head.operandCount operands.length)
  /-- The operands have the right types, and the node is not a bare name. -/
  takes : head.Takes operands
  /-- Actions are no operands. -/
  ne_action : ∀ x ∈ operands, ∀ a once, x ≠ .action a once
  /-- No sum is an operand of a sum, no conjunction of a conjunction, and no disjunction of a
  disjunction. -/
  flat : ∀ m ∈ [Head.arithmetic .add, .connective .and, .connective .or], head = m → m ∉ operands

/-- Outdated literals of the type of a signal are replaced by literals of that type. -/
def Signal.KeepsType (s : Signal) : Prop :=
  ∀ v w, v.type? = some s.type → s.modern? v = some w → w.type? = some s.type

theorem Signal.keepsType_of_forall {s : Signal} (h : ∀ p ∈ s.legacy, p.2.type? = some s.type) :
    s.KeepsType := by
  intro v w _ hw
  obtain ⟨before, after, hlegacy, -⟩ := List.lookup_eq_some_iff.1 hw
  exact h (v, w) (by simp [hlegacy])

/-- A literal of the type of a signal still has that type when it is settled. -/
theorem Signal.KeepsType.type_settled {s : Signal} (hs : s.KeepsType) {v : Value}
    (hv : v.type? = some s.type) : (Head.constant (s.settled v)).type = .value s.type := by
  have hsettled : (s.settled v).type? = some s.type := by
    unfold settled
    cases hw : s.modern? v with
    | none => exact hv
    | some w => exact hs v w hv hw
  rw [Head.type, hsettled, Option.getD_some]

/-- A literal in a source that is compared with a signal has the type of the signal. -/
theorem Value.Readable.type?_eq {v : Value} (hv : v.Readable) {t : ValueType}
    (h : (Head.constant v).type = .value t) : v.type? = some t := by
  cases v with
  | unset => exact hv.elim
  | string _ | number _ => simpa [Head.type, Value.type?] using h

theorem accepts_one_of_readsProperty : ∀ op : Operator, op.readsProperty → op.arity.accepts 1 :=
  Operator.forall_of_all (by decide)

/-- A property that is read with or without an index is read by the operator that was written. -/
theorem operator_propertyMode : ∀ op : Operator, op.readsProperty → ∀ indexed,
    op.arity.accepts (if indexed then 2 else 1) → (Context.propertyMode op indexed).operator = op :=
  Operator.forall_of_all (by decide)

/-- A property is read at an index exactly if its mode is that of an element. -/
theorem propertyMode_false (op : Operator) (t : ValueType) :
    Context.propertyMode op false ≠ .element t := by
  unfold Context.propertyMode
  split <;> simp

theorem exists_propertyMode_true : ∀ op : Operator, op.readsProperty → op.arity.accepts 2 →
    Context.propertyMode op true = .element .number ∨
      Context.propertyMode op true = .element .string :=
  Operator.forall_of_all (by decide)

theorem isFlattened_operator (mode : PropertyMode) : mode.operator.isFlattened = false := by
  rcases mode with (_ | _) | (_ | _) | _ <;> rfl

theorem Head.eq_connective {op : Connective} {x : Head}
    (h : x.operator? = some (.connective op)) : x = .connective op := by
  cases x with
  | connective => simpa [operator?] using h
  | property mode => rcases mode with (_ | _) | (_ | _) | _ <;> cases h
  | _ => cases h

theorem Head.eq_arithmetic {op : Arithmetic} {x : Head}
    (h : x.operator? = some (.arithmetic op)) : x = .arithmetic op := by
  cases x with
  | arithmetic => simpa [operator?] using h
  | property mode => rcases mode with (_ | _) | (_ | _) | _ <;> cases h
  | _ => cases h

namespace Sound

variable {ctx : Context} {head : Head} {operands : List Head}

/-- The number of operands of a sound node is right. -/
theorem count (h : Sound ctx head operands) :
    ∀ op ∈ head.operator?, op.arity.accepts (head.operandCount operands.length) := by
  intro op hop
  cases h with
  | literal => simp [Head.operator?] at hop
  | signal | action | comparison | signalLiteral | literalSignal =>
    cases Option.mem_some_iff.1 hop
    simp [Head.operandCount, Operator.arity]
  | connective hcount | arithmetic hcount | concat hcount =>
    cases Option.mem_some_iff.1 hop
    exact hcount
  | @property op' _ _ hop' =>
    cases Option.mem_some_iff.1 hop
    have hcount := accepts_one_of_readsProperty op' hop'
    rw [operator_propertyMode op' hop' false hcount]
    exact hcount
  | @element op' _ _ _ hop' hcount =>
    cases Option.mem_some_iff.1 hop
    rw [operator_propertyMode op' hop' true hcount]
    exact hcount
  | presence kind hne =>
    cases Option.mem_some_iff.1 hop
    simpa [Head.operandCount, Operator.arity, Nat.one_le_iff_ne_zero] using hne

/-- The operands of a sound node are what its head asks for, if outdated literals keep their
type. -/
theorem takes (h : Sound ctx head operands)
    (hlegacy : ∀ name s, ctx.host.signal? name = .ok s → s.KeepsType) :
    head.Takes operands := by
  cases h with
  | literal | signal | presence => rfl
  | action _ ha =>
    refine ⟨ha.count, fun i x hx => ?_⟩
    have hi := (List.getElem?_eq_some_iff.1 hx).1
    obtain ⟨p, hp⟩ := ha.exists_parameter hi
    exact ⟨p, hp, ha.types i x p hx hp⟩
  | comparison h => exact ⟨_, _, rfl, h⟩
  | signalLiteral hs h hv =>
    obtain ⟨t, ht, hvt, hop⟩ := h
    cases ht
    exact ⟨_, _, rfl, _, rfl, (hlegacy _ _ hs).type_settled (hv.type?_eq hvt), hop⟩
  | literalSignal hs h hv =>
    obtain ⟨t, hvt, ht, hop⟩ := h
    cases ht
    exact ⟨_, _, rfl, _, (hlegacy _ _ hs).type_settled (hv.type?_eq hvt), rfl, hop⟩
  | connective _ h => exact h
  | arithmetic _ h => exact h
  | concat _ h => exact h
  | @property op _ p hop _ hfits =>
    cases hmode : Context.propertyMode op false with
    | element t => exact absurd hmode (propertyMode_false op t)
    | value | length =>
      rw [hmode] at hfits
      exact ⟨hfits, rfl⟩
  | @element op _ p i hop hcount _ hfits hi =>
    rcases exists_propertyMode_true op hop hcount with hmode | hmode <;>
    · rw [hmode] at hfits ⊢
      exact ⟨hfits, i, rfl, hi⟩

/-- Merging operators are not operands of themselves. -/
theorem flat (h : Sound ctx head operands) :
    ∀ op ∈ head.operator?, op.isFlattened → ∀ x ∈ operands, x.operator? ≠ some op := by
  intro op hop hflat x hx heq
  cases h with
  | connective _ _ hmerged =>
    cases Option.mem_some_iff.1 hop
    simpa [Head.eq_connective heq, Head.isConnective] using hmerged hflat x hx
  | arithmetic _ _ hmerged =>
    cases Option.mem_some_iff.1 hop
    simpa [Head.eq_arithmetic heq, Head.isArithmetic] using hmerged hflat x hx
  | literal | signal | property | presence => cases hx
  | action | comparison | signalLiteral | literalSignal | concat =>
    cases Option.mem_some_iff.1 hop
    simp [Operator.isFlattened] at hflat
  | element =>
    cases Option.mem_some_iff.1 hop
    simp [isFlattened_operator] at hflat

/-- Sums, conjunctions and disjunctions are not operands of themselves. -/
theorem not_mem_operands (h : Sound ctx head operands) :
    ∀ m ∈ [Head.arithmetic .add, .connective .and, .connective .or], head = m → m ∉ operands := by
  rintro m hm rfl hmem
  simp only [List.mem_cons, List.not_mem_nil, or_false] at hm
  rcases hm with rfl | rfl | rfl <;> exact h.flat _ rfl rfl _ hmem rfl

end Sound

/-- What is read is well formed at every node, if outdated literals keep their type. -/
theorem Context.everywhere_wellFormed_of_parse {ctx : Context} {source : List Char} {e : Expr}
    (hlegacy : ∀ name s, ctx.host.signal? name = .ok s → s.KeepsType)
    (h : ctx.parse source = .ok e) : e.Everywhere WellFormed := by
  refine (Context.checked_of_parse h).sound.mono fun head operands hsound => ?_
  have htakes := hsound.takes hlegacy
  exact ⟨hsound.count, htakes, htakes.ne_action, hsound.not_mem_operands⟩

theorem exists_eq_ok {ε α : Type} {x : Except ε α} (h : x.isOk = true) : ∃ a, x = .ok a := by
  cases x with
  | ok a => exact ⟨a, rfl⟩
  | error err => cases h

/-- A signal one of whose values had another name once. -/
def doorSignal : Signal :=
  ⟨"Door", "Door", .string, .any, none, [(.string "ajar", .string "open")]⟩

/-- A host with one signal. -/
def doorHost : Host := Host.empty.addSignal doorSignal (.string "open")

theorem eq_doorSignal {name : String} {s : Signal} (hs : doorHost.signal? name = .ok s) :
    s = doorSignal := by
  have hname : name = "Door" := by
    by_contra hne
    simp [Host.signal?, doorHost, doorSignal, Host.addSignal, NameMap.get?_insert, hne,
      Host.empty] at hs
  subst hname
  cases hs
  rfl

theorem keepsType_doorHost (name : String) (s : Signal) (hs : doorHost.signal? name = .ok s) :
    s.KeepsType := by
  rw [eq_doorSignal hs]
  exact Signal.keepsType_of_forall (by simp [doorSignal, Value.type?])

theorem Context.everywhere_wellFormed_doorHost :
    (∀ name s, doorHost.signal? name = .ok s → s.KeepsType) ∧
      ∃ e, (⟨doorHost, true, .algebraic⟩ : Context).parse
        "Door == 'ajar' and 2 > 1".toList = .ok e ∧ e.Everywhere WellFormed := by
  refine ⟨keepsType_doorHost, ?_⟩
  have hok : ((⟨doorHost, true, .algebraic⟩ : Context).parse
      "Door == 'ajar' and 2 > 1".toList).isOk = true := by
    -- Unfolding uses the equations of `List.lookup`, `≤` and `Prod.snd` that the imports have.
    cbv
  obtain ⟨e, he⟩ := exists_eq_ok hok
  exact ⟨e, he, everywhere_wellFormed_of_parse keepsType_doorHost he⟩

end SignalRules
