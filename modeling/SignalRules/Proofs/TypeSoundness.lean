import SignalRules.Expr.Eval
import SignalRules.Proofs.HostStates
import SignalRules.Proofs.WellFormed

/-!
# Evaluation respects types

Evaluation has a fault of its own for expressions that are asked for a result of a sort that they
do not have. An expression that was read from a source never meets it when it is asked for what its
type promises, whatever state the host is in, and always meets it when it is asked for anything
else. A value that evaluation gives is of the type of the expression, unless it is unset.

Checks that a host supplies can report any fault, so signals and parameters have to keep to the
validators of this library.

## Main definitions

* `Value.IsOf`: a value that an expression of a type may have.
* `WellSorted`: a computation that never reports a result of the wrong sort.
* `Host.BuiltIn`: a host without validators of its own.

## Main results

* `Expr.isOf_of_value`: values are of the type of their expression.
* `Expr.wellSorted_value`, `Expr.wellSorted_test`, `Expr.wellSorted_execute`: sound expressions
  have the results that their types promise.
* `Context.wellSorted_of_parse`: this holds of whatever is read.
-/

namespace SignalRules

/-- A value that an expression of the type may have. -/
def Value.IsOf (type : ValueType) (v : Value) : Prop := v = .unset ∨ v.type? = some type

theorem Value.isOf_number (n : Fixed) : (Value.number n).IsOf .number := .inr rfl

theorem Value.isOf_string (s : String) : (Value.string s).IsOf .string := .inr rfl

/-- A computation that does not fail because an expression has no result of the wanted sort. -/
def WellSorted {α : Type} (x : Except Fault α) : Prop :=
  ∀ fault, x = .error fault → fault.notice.id ≠ .notAValue

namespace WellSorted

variable {α β : Type}

theorem ok (a : α) : WellSorted (.ok a) := by
  intro fault h
  cases h

theorem error {fault : Fault} (h : fault.notice.id ≠ .notAValue) :
    WellSorted (.error fault : Except Fault α) := by
  intro fault' h'
  cases h'
  exact h

theorem bind {x : Except Fault α} {k : α → Except Fault β} (hx : WellSorted x)
    (hk : ∀ a, x = .ok a → WellSorted (k a)) : WellSorted (x >>= k) := by
  cases x with
  | ok a => exact hk a rfl
  | error fault => exact error (hx fault rfl)

end WellSorted

/-! ### Validators -/

/-- Whether a validator is one of this library. -/
def Validator.isBuiltIn : Validator → Bool
  | custom _ => false
  | _ => true

/-- The parameters of an action, the one for further arguments included. -/
def Action.allParameters (a : Action) : List Parameter := a.parameters ++ a.variadic.toList

theorem Action.mem_allParameters {a : Action} {i : Nat} {p : Parameter}
    (h : a.parameter? i = some p) : p ∈ a.allParameters := by
  unfold parameter? at h
  split at h
  · cases h
    exact List.mem_append_left _ (List.mem_of_getElem? ‹_›)
  · exact List.mem_append_right _ (Option.mem_toList.2 h)

/-- A host whose signals and actions keep to the validators of this library. -/
structure Host.BuiltIn (h : Host) : Prop where
  signals : ∀ name s v, h.signals.get? name = some (s, v) → s.validator.isBuiltIn
  actions : ∀ name a rs, h.actions.get? name = some (a, rs) →
    ∀ p ∈ a.allParameters, p.validator.isBuiltIn

namespace Host.BuiltIn

variable {h : Host}

theorem empty : Host.empty.BuiltIn := ⟨by simp [Host.empty], by simp [Host.empty]⟩

theorem addSignal (hh : h.BuiltIn) {s : Signal} (hs : s.validator.isBuiltIn) (v : Value) :
    (h.addSignal s v).BuiltIn :=
  ⟨forall_get?_insert hh.signals hs, hh.actions⟩

theorem addAction (hh : h.BuiltIn) {a : Action}
    (ha : ∀ p ∈ a.allParameters, p.validator.isBuiltIn) (rs : List Reaction) :
    (h.addAction a rs).BuiltIn :=
  ⟨hh.signals, forall_get?_insert hh.actions ha⟩

theorem validator_signal (hh : h.BuiltIn) {name : String} {s : Signal}
    (hs : h.signal? name = .ok s) : s.validator.isBuiltIn := by
  obtain ⟨v, hget⟩ := exists_get?_of_signal? hs
  exact hh.signals name s v hget

theorem validator_parameter (hh : h.BuiltIn) {name : String} {a : Action}
    (ha : h.action? name = .ok a) {i : Nat} {p : Parameter} (hp : a.parameter? i = some p) :
    p.validator.isBuiltIn := by
  obtain ⟨rs, hget⟩ := exists_get?_of_action? ha
  exact hh.actions name a rs hget p (Action.mem_allParameters hp)

end Host.BuiltIn

/-! ### Operations on values -/

theorem wellSorted_toNumber (v : Value) : WellSorted v.toNumber := by
  cases v with
  | unset => exact .error (by decide)
  | string s =>
    rw [Value.toNumber]
    split
    · exact .ok _
    · exact .error (by simp [Fault.notANumber])
  | number n => exact .ok n

theorem wellSorted_toUnits (v : Value) : WellSorted v.toUnits :=
  (wellSorted_toNumber v).bind fun n _ => .ok n.toUnits

theorem wellSorted_coerce (v : Value) (t : ValueType) : WellSorted (v.coerce t) := by
  unfold Value.coerce
  split
  · exact (wellSorted_toNumber _).bind fun n _ => .ok _
  · exact .ok _
  · exact .ok _

theorem Value.isOf_of_coerce {v w : Value} {t : ValueType} (h : v.coerce t = .ok w) :
    w.IsOf t := by
  cases v with
  | unset =>
    cases h
    exact .inl rfl
  | string s =>
    cases t with
    | string =>
      cases h
      exact isOf_string s
    | number =>
      obtain ⟨n, -, h⟩ := bind_eq_ok_iff.1 h
      cases h
      exact isOf_number n
  | number n =>
    cases t with
    | string =>
      cases h
      exact isOf_string n.text
    | number =>
      cases h
      exact isOf_number n

theorem wellSorted_check {validator : Validator} (h : validator.isBuiltIn) (subject : String)
    (v : Value) : WellSorted (validator.check subject v) := by
  unfold Validator.check
  by_cases hunset : v.isUnset
  · rw [if_pos hunset]
    exact .ok ()
  rw [if_neg hunset]
  cases validator with
  | any => exact .ok ()
  | range least greatest =>
    refine (wellSorted_toNumber v).bind fun n _ => ?_
    split_ifs
    · exact .ok ()
    · exact .error (by simp [Fault.outOfBounds])
  | nonEmpty =>
    simp only
    split_ifs
    · exact .error (by simp [Fault.valueEmpty])
    · exact .ok ()
  | oneOf values =>
    simp only
    split_ifs
    · exact .ok ()
    · exact .error (by simp [Fault.notAllowed])
  | custom check => cases h

theorem wellSorted_fitting (n : Option Fixed) : WellSorted (fitting n) := by
  cases n with
  | none => exact .error (by decide)
  | some n => exact .ok n

theorem wellSorted_ofReal (x : Binary64) : WellSorted (Fixed.ofReal x) := by
  unfold Fixed.ofReal
  split
  · split
    · split_ifs
      · exact .error (by decide)
      · exact .ok _
    · exact .error (by decide)
  · exact .error (by simp [Fault.notANumber])

/-- Arithmetic on as many numbers as the operator takes gives a number or one of the faults of
arithmetic. -/
theorem wellSorted_apply {op : Arithmetic} {ns : List Fixed}
    (h : (Operator.arithmetic op).arity.accepts ns.length) : WellSorted (op.apply ns) := by
  unfold Arithmetic.apply
  split
  · exact wellSorted_fitting _
  · exact wellSorted_fitting _
  · exact wellSorted_fitting _
  · split_ifs
    · exact .error (by decide)
    · exact wellSorted_fitting _
  · split_ifs
    · exact .error (by decide)
    · exact wellSorted_ofReal _
  · exact .ok _
  · exact .ok _
  · exact wellSorted_fitting _
  · exact wellSorted_fitting _
  -- The last case is for other numbers of operands, none of which the operator accepts.
  · exfalso
    cases op <;> rcases ns with _ | ⟨a, _ | ⟨b, _ | ⟨c, rest⟩⟩⟩ <;>
      simp_all [Operator.arity]

theorem wellSorted_holds (op : Comparison) (left right : Value) :
    WellSorted (op.holds left right) := by
  have hrelation (relation : Fixed → Fixed → Bool) :
      WellSorted (if left.isUnset || right.isUnset then .error Fault.unsetValue
        else do
          let a ← left.toNumber
          let b ← right.toNumber
          return relation a b) := by
    split_ifs
    · exact .error (by decide)
    · exact (wellSorted_toNumber left).bind fun a _ =>
        (wellSorted_toNumber right).bind fun b _ => .ok _
  cases op with
  | eq | ne => exact .ok _
  | gt => exact hrelation fun a b => decide (b < a)
  | ge => exact hrelation fun a b => decide (b ≤ a)
  | lt => exact hrelation fun a b => decide (a < b)
  | le => exact hrelation fun a b => decide (a ≤ b)

/-! ### Reading the host -/

namespace Host

variable (h : Host)

theorem wellSorted_checkAvailable (name : String) :
    WellSorted ((h.checkAvailable name).mapError Fault.ofState) := by
  unfold checkAvailable
  split_ifs
  · exact .error (by simp [Fault.ofState, Notice.unavailable])
  · exact .ok ()

theorem wellSorted_readSignal (name : String) : WellSorted (h.readSignal name) := by
  refine (h.wellSorted_checkAvailable name).bind fun _ _ => ?_
  split
  · exact .error (by simp [Fault.ofState, Notice.unknownSignal])
  · exact .ok _

theorem wellSorted_readProperty (reference : String) : WellSorted (h.readProperty reference) := by
  refine (h.wellSorted_checkAvailable reference).bind fun _ _ => ?_
  split
  · exact .error (by simp [Fault.ofState, Notice.unknownProperty])
  · exact .ok _

theorem wellSorted_record (name : String) (args : List Value) :
    WellSorted (h.record name args) := by
  refine (h.wellSorted_checkAvailable name).bind fun _ _ => ?_
  split
  · exact .error (by simp [Fault.ofState, Notice.unknownAction])
  · exact .ok _

theorem wellSorted_signalValue {s : Signal} (hs : s.validator.isBuiltIn) :
    WellSorted (h.signalValue s) :=
  (h.wellSorted_readSignal s.name).bind fun raw _ =>
    (wellSorted_coerce raw s.type).bind fun v _ =>
      (wellSorted_check hs s.name v).bind fun _ _ => .ok v

end Host

theorem wellSorted_elementAt (p : Property) (t : ValueType) (elements : List Value)
    (index : Int) : WellSorted (elementAt p t elements index) := by
  unfold elementAt
  split_ifs
  · exact .error (by simp [Fault.indexOutOfRange])
  · split
    · exact wellSorted_coerce _ t
    · exact .error (by simp [Fault.indexOutOfRange])

theorem isOf_of_elementAt {p : Property} {t : ValueType} {elements : List Value} {index : Int}
    {v : Value} (h : elementAt p t elements index = .ok v) : v.IsOf t := by
  unfold elementAt at h
  split_ifs at h
  split at h
  · exact Value.isOf_of_coerce h
  · cases h

/-! ### Several operands -/

namespace Expr

variable {h : Host}

theorem wellSorted_numbers {es : List Expr} (hes : ∀ e ∈ es, WellSorted (e.value h)) :
    WellSorted (numbers h es) := by
  induction es with
  | nil => exact .ok []
  | cons e es ih =>
    obtain ⟨he, hes⟩ := List.forall_mem_cons.1 hes
    unfold numbers
    exact he.bind fun v _ => (wellSorted_toNumber v).bind fun n _ => (ih hes).bind fun ns _ => .ok _

theorem length_numbers {es : List Expr} {ns : List Fixed} (hns : numbers h es = .ok ns) :
    ns.length = es.length := by
  induction es generalizing ns with
  | nil =>
    unfold numbers at hns
    cases hns
    rfl
  | cons e es ih =>
    unfold numbers at hns
    obtain ⟨v, -, hns⟩ := bind_eq_ok_iff.1 hns
    obtain ⟨n, -, hns⟩ := bind_eq_ok_iff.1 hns
    obtain ⟨rest, hrest, hns⟩ := bind_eq_ok_iff.1 hns
    cases hns
    simp [ih hrest]

theorem wellSorted_texts {es : List Expr} (hes : ∀ e ∈ es, WellSorted (e.value h)) :
    WellSorted (texts h es) := by
  induction es with
  | nil => exact .ok []
  | cons e es ih =>
    obtain ⟨he, hes⟩ := List.forall_mem_cons.1 hes
    unfold texts
    exact he.bind fun v _ => (ih hes).bind fun ts _ => .ok _

theorem wellSorted_testAll {es : List Expr} (hes : ∀ e ∈ es, WellSorted (e.test h)) :
    WellSorted (testAll h es) := by
  induction es with
  | nil => exact .ok true
  | cons e es ih =>
    obtain ⟨he, hes⟩ := List.forall_mem_cons.1 hes
    unfold testAll
    refine he.bind fun b _ => ?_
    split_ifs
    · exact ih hes
    · exact .ok false

theorem wellSorted_testAny {es : List Expr} (hes : ∀ e ∈ es, WellSorted (e.test h)) :
    WellSorted (testAny h es) := by
  induction es with
  | nil => exact .ok false
  | cons e es ih =>
    obtain ⟨he, hes⟩ := List.forall_mem_cons.1 hes
    unfold testAny
    refine he.bind fun b _ => ?_
    split_ifs
    · exact .ok true
    · exact ih hes

theorem wellSorted_arguments {a : Action} {es : List Expr} (index : Nat)
    (hparameters : ∀ i p, a.parameter? i = some p → p.validator.isBuiltIn)
    (hes : ∀ e ∈ es, WellSorted (e.value h)) : WellSorted (arguments h a index es) := by
  induction es generalizing index with
  | nil => exact .ok []
  | cons e es ih =>
    obtain ⟨he, hes⟩ := List.forall_mem_cons.1 hes
    unfold arguments
    refine he.bind fun v _ => ?_
    cases hp : a.parameter? index with
    | none => exact (ih (index + 1) hes).bind fun vs _ => .ok _
    | some p =>
      exact (wellSorted_check (hparameters index p hp) p.name v).bind fun _ _ =>
        (ih (index + 1) hes).bind fun vs _ => .ok _

/-! ### Expressions -/

/-- Values are of the type of their expression. -/
theorem isOf_of_value {e : Expr} {t : ValueType} {v : Value} (htype : e.type = .value t)
    (hv : e.value h = .ok v) : v.IsOf t := by
  obtain ⟨span, head, operands⟩ := e
  rw [type, Expr.head] at htype
  unfold value at hv
  cases head with
  | constant =>
    cases hv
    cases htype
    cases v with
    | unset => exact .inl rfl
    | string s => exact Value.isOf_string s
    | number n => exact Value.isOf_number n
  | signal s =>
    cases htype
    obtain ⟨raw, -, hv⟩ := bind_eq_ok_iff.1 hv
    obtain ⟨w, hw, hv⟩ := bind_eq_ok_iff.1 hv
    obtain ⟨_, -, hv⟩ := bind_eq_ok_iff.1 hv
    cases hv
    exact Value.isOf_of_coerce hw
  | arithmetic op =>
    cases htype
    obtain ⟨ns, -, hv⟩ := bind_eq_ok_iff.1 hv
    obtain ⟨n, -, hv⟩ := bind_eq_ok_iff.1 hv
    cases hv
    exact Value.isOf_number n
  | concat =>
    cases htype
    obtain ⟨ts, -, hv⟩ := bind_eq_ok_iff.1 hv
    cases hv
    exact Value.isOf_string _
  | property mode p =>
    cases htype
    obtain ⟨contents, -, hv⟩ := bind_eq_ok_iff.1 hv
    cases mode with
    | value t => exact Value.isOf_of_coerce hv
    | length =>
      cases hv
      exact Value.isOf_number _
    | element t =>
      obtain ⟨index, -, hv⟩ := bind_eq_ok_iff.1 hv
      exact isOf_of_elementAt hv
  | symbol | action | comparison | connective | presence => cases htype

/-- An expression that is no value says so when it is asked for one. -/
theorem value_eq_notA {e : Expr} (htype : ∀ t, e.type ≠ .value t) :
    e.value h = .error (Fault.notA "value") := by
  obtain ⟨span, head, operands⟩ := e
  cases head with
  | symbol | action | comparison | connective | presence => simp [value]
  | _ => exact absurd rfl (htype _)

/-- An expression that is no condition says so when it is tested. -/
theorem test_eq_notA {e : Expr} (htype : e.type ≠ .boolean) :
    e.test h = .error (Fault.notA "boolean") := by
  obtain ⟨span, head, operands⟩ := e
  cases head with
  | comparison | connective | presence => exact absurd rfl htype
  | _ => simp [test]

/-- An expression that is no action says so when it is executed. -/
theorem execute_eq_notA {e : Expr} (htype : e.type ≠ .action) :
    e.execute h = .error (Fault.notA "action") := by
  obtain ⟨span, head, operands⟩ := e
  cases head with
  | action => exact absurd rfl htype
  | _ => rfl

variable {ctx : Context}

/-- Sound expressions that are values have one, or a fault that is not about their sort. -/
theorem wellSorted_value (hbuiltin : ctx.host.BuiltIn) {e : Expr} (he : e.Everywhere (Sound ctx))
    {t : ValueType} (htype : e.type = .value t) : WellSorted (e.value h) := by
  induction he generalizing t with
  | @node span head es hsound _ ih =>
    have hvalues (hvalue : ∀ x ∈ es.map Expr.head, ∃ t, x.type = .value t) :
        ∀ e ∈ es, WellSorted (e.value h) := by
      intro e he
      obtain ⟨t, ht⟩ := hvalue e.head (List.mem_map_of_mem he)
      exact ih e he ht
    unfold value
    generalize hheads : es.map Expr.head = heads at hsound hvalues
    cases hsound with
    | literal v => exact .ok v
    | signal _ hs => exact h.wellSorted_signalValue (hbuiltin.validator_signal hs)
    | arithmetic hcount htypes =>
      refine (wellSorted_numbers (hvalues fun x hx => ⟨_, htypes x hx⟩)).bind fun ns hns => ?_
      have hlength : ns.length = heads.length := by
        rw [length_numbers hns, ← hheads, List.length_map]
      exact (wellSorted_apply (hlength ▸ hcount)).bind fun n _ => .ok _
    | concat _ htypes => exact (wellSorted_texts (hvalues htypes)).bind fun ts _ => .ok _
    | @property op _ p =>
      refine (h.wellSorted_readProperty p.reference).bind fun contents _ => ?_
      cases hmode : Context.propertyMode op false with
      | value t => exact wellSorted_coerce _ t
      | length => exact .ok _
      | element t => exact absurd hmode (propertyMode_false op t)
    | @element op _ p i hop hcount _ _ hi =>
      refine (h.wellSorted_readProperty p.reference).bind fun contents _ => ?_
      obtain ⟨index, rfl, hindex⟩ := List.map_eq_singleton_iff.1 hheads
      have hunits : WellSorted (firstUnits h [index]) := by
        unfold firstUnits
        exact (ih index (by simp) (hindex ▸ hi)).bind fun v _ => wellSorted_toUnits v
      rcases exists_propertyMode_true op hop hcount with hmode | hmode <;>
      · rw [hmode]
        exact hunits.bind fun i _ => wellSorted_elementAt p _ _ i
    | action | comparison | signalLiteral | literalSignal | connective | presence => cases htype

/-- Sound expressions that are conditions hold or not, or have a fault that is not about their
sort. -/
theorem wellSorted_test (hbuiltin : ctx.host.BuiltIn) {e : Expr} (he : e.Everywhere (Sound ctx))
    (htype : e.type = .boolean) : WellSorted (e.test h) := by
  induction he with
  | @node span head es hsound hes ih =>
    -- Both operands of a comparison are values, whatever an outdated literal was replaced by.
    have hcompared {op : Comparison} {x y : Head} (hheads : es.map Expr.head = [x, y])
        {s t : ValueType} (hx : x.type = .value s) (hy : y.type = .value t) :
        WellSorted (test h (.node span (.comparison op) es)) := by
      obtain ⟨left, right, rfl, rfl, rfl⟩ : ∃ l r, es = [l, r] ∧ l.head = x ∧ r.head = y := by
        rcases es with _ | ⟨l, _ | ⟨r, _ | ⟨_, _⟩⟩⟩ <;> simp_all
      unfold test
      exact (wellSorted_value hbuiltin (hes left (by simp)) hx).bind fun a _ =>
        (wellSorted_value hbuiltin (hes right (by simp)) hy).bind fun b _ => wellSorted_holds op a b
    generalize hheads : es.map Expr.head = heads at hsound hcompared
    cases hsound with
    | comparison hcomparable =>
      obtain ⟨t, hx, hy, -⟩ := hcomparable
      exact hcompared rfl hx hy
    | signalLiteral | literalSignal => exact hcompared rfl rfl rfl
    | @connective op _ hcount htypes =>
      have htests : ∀ e ∈ es, WellSorted (e.test h) := fun e he =>
        ih e he (htypes e.head (hheads ▸ List.mem_map_of_mem he))
      unfold test
      cases op with
      | and => exact wellSorted_testAll htests
      | or => exact wellSorted_testAny htests
      | not =>
        obtain ⟨e, rfl⟩ : ∃ e, es = [e] := by
          rw [← List.length_eq_one_iff]
          simpa [← hheads, Operator.arity] using hcount
        exact (htests e (by simp)).bind fun b _ => .ok _
    | presence kind =>
      unfold test
      cases kind <;> exact .ok _
    | literal | signal | action | arithmetic | concat | property | element => cases htype

/-- Sound expressions that are actions make their call, or have a fault that is not about their
sort. -/
theorem wellSorted_execute (hbuiltin : ctx.host.BuiltIn) {e : Expr}
    (he : e.Everywhere (Sound ctx)) (htype : e.type = .action) : WellSorted (e.execute h) := by
  obtain ⟨span, head, es⟩ := e
  have hsound := he.head
  cases head with
  | action a once =>
    obtain ⟨written, hcalled⟩ := hsound.exists_called
    have hvalues : ∀ e ∈ es, WellSorted (e.value h) := by
      intro e hmem
      obtain ⟨t, ht⟩ := hcalled.exists_type (List.mem_map_of_mem hmem)
      exact wellSorted_value hbuiltin (he.operands e hmem) ht
    have harguments := wellSorted_arguments 0
      (fun i p hp => hbuiltin.validator_parameter hcalled.resolves hp) hvalues
    have hrequest : WellSorted (request h (.node span (.action a once) es)) :=
      harguments.bind fun args _ => .ok _
    exact hrequest.bind fun call _ =>
      (h.wellSorted_record call.1.name call.1.args).bind fun recorded _ => .ok _
  | _ => cases htype

end Expr

/-! ### What is read -/

/-- What is read has the results that its type promises, and no others. In every state of the
host, a value is unset or of the type of the expression; and being asked for a result of the wrong
sort is a fault that is met exactly when the type rules the result out. -/
theorem Context.wellSorted_of_parse {ctx : Context} {source : List Char} {e : Expr}
    (hbuiltin : ctx.host.BuiltIn) (hparse : ctx.parse source = .ok e) (h : Host) :
    match e.type with
    | .value t => (∀ v, e.value h = .ok v → v = .unset ∨ v.type? = some t) ∧
        WellSorted (e.value h) ∧ e.test h = .error (Fault.notA "boolean") ∧
        e.execute h = .error (Fault.notA "action")
    | .boolean => WellSorted (e.test h) ∧ e.value h = .error (Fault.notA "value") ∧
        e.execute h = .error (Fault.notA "action")
    | .action => WellSorted (e.execute h) ∧ e.value h = .error (Fault.notA "value") ∧
        e.test h = .error (Fault.notA "boolean")
    | .symbol => False := by
  have hsound := (checked_of_parse hparse).sound
  cases htype : e.type with
  | value t =>
    exact ⟨fun v hv => Expr.isOf_of_value htype hv, Expr.wellSorted_value hbuiltin hsound htype,
      Expr.test_eq_notA (by simp [htype]), Expr.execute_eq_notA (by simp [htype])⟩
  | boolean =>
    exact ⟨Expr.wellSorted_test hbuiltin hsound htype, Expr.value_eq_notA (by simp [htype]),
      Expr.execute_eq_notA (by simp [htype])⟩
  | action =>
    exact ⟨Expr.wellSorted_execute hbuiltin hsound htype, Expr.value_eq_notA (by simp [htype]),
      Expr.test_eq_notA (by simp [htype])⟩
  | symbol =>
    rw [Expr.type] at htype
    cases hhead : e.head with
    | symbol name => exact hsound.head.head_ne_symbol name hhead
    | _ => simp [hhead, Head.type] at htype

/-- The signal of `liftHost`. -/
def liftSignal : Signal := ⟨"Lift", "Lift", .number, .ofUnits 0 9, none, []⟩

/-- A host with a signal and an action, which takes a floor and any number of remarks. -/
def liftHost : Host :=
  (Host.empty.addSignal liftSignal (.number (Fixed.ofUnits 4))).addAction
      ⟨"Go", "Go", [⟨"floor", .number, .ofUnits 0 9⟩], some ⟨"remark", .string, .nonEmpty⟩, none⟩ []

theorem builtIn_liftHost : liftHost.BuiltIn :=
  (Host.BuiltIn.empty.addSignal rfl _).addAction
    (by simp [Action.allParameters, Validator.ofUnits, Validator.isBuiltIn]) []

/-- An action whose argument has stopped being a number. -/
theorem Context.wellSorted_of_parse_liftHost :
    liftHost.BuiltIn ∧ ∃ e h, (⟨liftHost, true, .algebraic⟩ : Context).parse
        "Go.once(Lift + 1, 'up')".toList = .ok e ∧ e.type = .action ∧
      liftHost.setSignal "Lift" (.string "roof") = .ok h ∧ WellSorted (e.execute h) ∧
      e.value h = .error (Fault.notA "value") ∧ e.test h = .error (Fault.notA "boolean") := by
  have hparse : ((⟨liftHost, true, .algebraic⟩ : Context).parse
      "Go.once(Lift + 1, 'up')".toList).map Expr.type = .ok .action := by
    cbv
  obtain ⟨e, he, htype⟩ := map_eq_ok_iff.1 hparse
  obtain ⟨h, hh⟩ : ∃ h, liftHost.setSignal "Lift" (.string "roof") = .ok h :=
    exists_eq_ok (by cbv)
  have hsorted := wellSorted_of_parse builtIn_liftHost he h
  rw [htype] at hsorted
  exact ⟨builtIn_liftHost, e, h, he, htype, hh, hsorted⟩

end SignalRules
