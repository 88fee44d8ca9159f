import SignalRules.Proofs.Erasure

/-!
# What the checked constructors build

An operator applied to operands becomes a node with a head and operands of its own, or is refused.
The relation `Built` says which nodes an operator can become, one rule for each kind of operator;
everything that is proved about built expressions is read off it.

## Main definitions

* `Comparable`, `Signal.settled`, `PropertyMode.Fits`, `Called`: what the checks ask for.
* `Built`: the node that an operator becomes.

## Main results

* `Context.apply_eq_ok_iff`: applying an operator succeeds exactly with the node that is built.
-/

namespace SignalRules

namespace Arity

theorem accepts_iff {a : Arity} {count : Nat} :
    a.accepts count ↔ a.least ≤ count ∧ ∀ g ∈ a.greatest, count ≤ g := by
  unfold accepts
  rw [Bool.and_eq_true, decide_eq_true_iff]
  cases a.greatest <;> simp

@[simp] theorem accepts_exactly {n count : Nat} : (exactly n).accepts count ↔ count = n := by
  simp only [accepts_iff, exactly, Option.mem_some_iff, forall_eq']
  omega

@[simp] theorem accepts_atLeast {n count : Nat} : (atLeast n).accepts count ↔ n ≤ count := by
  simp [accepts_iff, atLeast]

@[simp] theorem accepts_between {least greatest count : Nat} :
    (between least greatest).accepts count ↔ least ≤ count ∧ count ≤ greatest := by
  simp [accepts_iff, between]

end Arity

/-- The literal that counts where a signal is compared with the literal `v`. -/
def Signal.settled (s : Signal) (v : Value) : Value := (s.modern? v).getD v

/-- Heads of operands that can be compared: both are values of one type, and where the order
counts they are numbers. -/
def Comparable (op : Comparison) (a b : Head) : Prop :=
  ∃ t, a.type = .value t ∧ b.type = .value t ∧ (op.isRelational → t = .number)

/-- Whether a property can be read in a mode: its type and its shape have to match. -/
def PropertyMode.Fits (p : Property) : PropertyMode → Prop
  | value t => p.type = t ∧ p.shape.isCollection = false
  | element t => p.type = t ∧ p.shape.isCollection = true
  | length => p.shape.isCollection = true

/-- Whether an operator reads a property. -/
def Operator.readsProperty : Operator → Bool
  | getNumber | getString | getLength => true
  | _ => false

/-- The operands of a connective, where operands that use the connective themselves are spliced. -/
def Connective.merge (op : Connective) (es : List Expr) : List Expr :=
  if (Operator.connective op).isFlattened then flatten (Head.isConnective op) es else es

/-- The operands of an arithmetic operation, where nested sums are spliced. -/
def Arithmetic.merge (op : Arithmetic) (es : List Expr) : List Expr :=
  if (Operator.arithmetic op).isFlattened then flatten (Head.isArithmetic op) es else es

theorem Head.isConnective_iff {op : Connective} {x : Head} :
    x.isConnective op ↔ x = .connective op := by
  cases x <;> simp [isConnective]

theorem Head.isArithmetic_iff {op : Arithmetic} {x : Head} :
    x.isArithmetic op ↔ x = .arithmetic op := by
  cases x <;> simp [isArithmetic]

/-- A name as written calls an action with arguments of the types of its parameters; the heads of
the arguments are given. -/
structure Called (ctx : Context) (written : String) (args : List Head) (a : Action) : Prop where
  /-- The name resolves. -/
  resolves : ctx.host.action? (splitOnce written).1 = .ok a
  /-- The number of arguments is right. -/
  count : a.arity.accepts args.length
  /-- Every argument has the type of its parameter. -/
  types : ∀ i arg p, args[i]? = some arg → a.parameter? i = some p → arg.type = .value p.type

/-- The head and the operands of the node that an operator becomes. -/
inductive Built (ctx : Context) : Operator → List Expr → Head → List Expr → Prop
  /-- A comparison without a literal beside a signal. -/
  | comparison {op : Comparison} {a b : Expr} (h : Comparable op a.head b.head)
      (hab : ∀ s v, a.head = .signal s → b.head ≠ .constant v)
      (hba : ∀ s v, b.head = .signal s → a.head ≠ .constant v) :
      Built ctx (.comparison op) [a, b] (.comparison op) [a, b]
  /-- A literal on the right of a signal. -/
  | signalLiteral {op : Comparison} {a b : Expr} {s : Signal} {v : Value}
      (h : Comparable op a.head b.head) (ha : a.head = .signal s) (hb : b.head = .constant v)
      (hallowed : ctx.strict → s.allows (s.settled v)) :
      Built ctx (.comparison op) [a, b] (.comparison op) [a, .constant (s.settled v) b.span]
  /-- A literal on the left of a signal. -/
  | literalSignal {op : Comparison} {a b : Expr} {s : Signal} {v : Value}
      (h : Comparable op a.head b.head) (ha : a.head = .constant v) (hb : b.head = .signal s)
      (hallowed : ctx.strict → s.allows (s.settled v)) :
      Built ctx (.comparison op) [a, b] (.comparison op) [.constant (s.settled v) a.span, b]
  | connective {op : Connective} {es : List Expr}
      (hcount : (Operator.connective op).arity.accepts es.length)
      (h : ∀ e ∈ es, e.type = .boolean) :
      Built ctx (.connective op) es (.connective op) (op.merge es)
  | arithmetic {op : Arithmetic} {es : List Expr}
      (hcount : (Operator.arithmetic op).arity.accepts es.length)
      (h : ∀ e ∈ es, e.type = .value .number) :
      Built ctx (.arithmetic op) es (.arithmetic op) (op.merge es)
  | concat {es : List Expr} (hcount : Operator.concat.arity.accepts es.length)
      (h : ∀ e ∈ es, ∃ t, e.type = .value t) : Built ctx .concat es .concat es
  /-- A property that is read without an index. -/
  | property {op : Operator} {e : Expr} {reference : String} {p : Property}
      (hop : op.readsProperty) (he : e.head = .constant (.string reference))
      (hp : ctx.host.property? reference = .ok p)
      (hfits : (Context.propertyMode op false).Fits p) :
      Built ctx op [e] (.property (Context.propertyMode op false) p) []
  /-- A property that is read at an index. -/
  | element {op : Operator} {e i : Expr} {reference : String} {p : Property}
      (hop : op.readsProperty) (hcount : op.arity.accepts 2)
      (he : e.head = .constant (.string reference))
      (hp : ctx.host.property? reference = .ok p)
      (hfits : (Context.propertyMode op true).Fits p) (hi : i.type = .value .number) :
      Built ctx op [e, i] (.property (Context.propertyMode op true) p) [i]
  | presence {kind : Presence} {es : List Expr} {names : List String} (hne : names ≠ [])
      (h : es.map Expr.head = names.map Head.symbol) :
      Built ctx (.presence kind) es (.presence kind names) []
  | signal {e : Expr} {name : String} {s : Signal} (he : e.head = .symbol name)
      (hs : ctx.host.signal? name = .ok s) : Built ctx .signal [e] (.signal s) []
  | action {e : Expr} {name : String} {args : List Expr} {a : Action}
      (he : e.head = .symbol name) (ha : Called ctx name (args.map Expr.head) a) :
      Built ctx .action (e :: args) (.action a (splitOnce name).2) args

/-- What a comparison asks of its operands. -/
theorem Built.comparable {ctx : Context} {op : Comparison} {a b : Expr} {head : Head}
    {es : List Expr} (h : Built ctx (.comparison op) [a, b] head es) :
    Comparable op a.head b.head := by
  cases h with
  | comparison h _ _ => exact h
  | signalLiteral h _ _ _ => exact h
  | literalSignal h _ _ _ => exact h
  | element hop => simp [Operator.readsProperty] at hop

namespace Context

variable {ctx : Context} {span : Span} {e : Expr}

theorem number_eq_ok_iff {text : String} :
    number text span = .ok e ↔
      ∃ n, Fixed.parse? text.toList = some n ∧ e = .constant (.number n) span := by
  unfold number
  cases Fixed.parse? text.toList <;> simp [eq_comm]

theorem signal_eq_ok_iff {name : String} :
    ctx.signal name span = .ok e ↔
      ∃ s, ctx.host.signal? name = .ok s ∧ e = .node span (.signal s) [] := by
  unfold signal resolve
  cases ctx.host.signal? name <;>
    simp [Except.mapError, bind, Except.bind, pure, Except.pure, eq_comm]

/-- No argument is refused if every one has the type of its parameter. -/
theorem argumentError?_eq_none_iff {a : Action} {name : String} {args : List Expr} :
    argumentError? a name args = none ↔
      ∀ i arg p, (args.map Expr.head)[i]? = some arg → a.parameter? i = some p →
        arg.type = .value p.type := by
  unfold argumentError?
  rw [List.findSome?_eq_none_iff]
  constructor
  · intro h i head p hhead hp
    obtain ⟨arg, harg, rfl⟩ : ∃ arg, args[i]? = some arg ∧ arg.head = head := by
      simpa using hhead
    have hnone := h (arg, i) (List.mk_mem_zipIdx_iff_getElem?.2 harg)
    by_contra hne
    have hne' : arg.type ≠ .value p.type := hne
    simp [hp, hne'] at hnone
  · rintro h ⟨arg, i⟩ hmem
    have harg : args[i]? = some arg := List.mk_mem_zipIdx_iff_getElem?.1 hmem
    cases hp : a.parameter? i with
    | none => simp only [hp]
    | some p =>
      have htype : arg.type = .value p.type := h i arg.head p (by simp [harg]) hp
      simp only [hp, htype, if_true]

theorem action_eq_ok_iff {written : String} {args : List Expr} :
    ctx.action written args span = .ok e ↔
      ∃ a, Called ctx written (args.map Expr.head) a ∧
        e = .node span (.action a (splitOnce written).2) args := by
  rw [action_eq]
  constructor
  · intro h
    cases ha : ctx.host.action? (splitOnce written).1 with
    | error notice => simp [ha] at h
    | ok a =>
      simp only [ha] at h
      split_ifs at h with hcount
      cases harg : argumentError? a (splitOnce written).1 args with
      | some err => simp [harg] at h
      | none =>
        simp only [harg, Except.ok.injEq] at h
        exact ⟨a, ⟨ha, by simpa using hcount, argumentError?_eq_none_iff.1 harg⟩, h.symm⟩
  · rintro ⟨a, ⟨ha, hcount, htypes⟩, rfl⟩
    rw [List.length_map] at hcount
    simp [ha, hcount, argumentError?_eq_none_iff.2 htypes]

/-! ### Comparisons -/

theorem settleLiteral_of_literal {signal other : Expr} {s : Signal} {v : Value}
    (hs : signal.head = .signal s) (hv : other.head = .constant v) :
    ctx.settleLiteral signal other =
      if ctx.strict && !s.allows (s.settled v) then
        .error (.located (.optionRefused (s.settled v).text s.name) other.span)
      else .ok (.constant (s.settled v) other.span) := by
  rw [settleLiteral, hs, hv]
  rfl

theorem settleLiteral_of_ne {signal other : Expr}
    (h : ∀ s v, signal.head = .signal s → other.head ≠ .constant v) :
    ctx.settleLiteral signal other = .ok other := by
  unfold settleLiteral
  split
  · rename_i s v hs hv
    exact absurd hv (h s v hs)
  · rfl

/-- Behind the checks, a comparison becomes the node that is built. -/
theorem settledPair_eq_ok_iff {op : Comparison} {a b : Expr} (h : Comparable op a.head b.head) :
    ctx.settledPair op a b span = .ok e ↔
      ∃ es, Built ctx (.comparison op) [a, b] (.comparison op) es ∧
        e = .node span (.comparison op) es := by
  unfold settledPair
  by_cases hab : ∃ s v, a.head = .signal s ∧ b.head = .constant v
  · obtain ⟨s, v, ha, hb⟩ := hab
    simp only [ha, settleLiteral_of_literal ha hb]
    constructor
    · intro he
      split_ifs at he with hstrict
      · cases he
      exact ⟨_, .signalLiteral h ha hb (by simpa using hstrict), (Except.ok.inj he).symm⟩
    · rintro ⟨es, hbuilt, rfl⟩
      cases hbuilt with
      | comparison _ hne _ => exact absurd hb (hne s v ha)
      | literalSignal _ ha' _ _ => simp [ha] at ha'
      | signalLiteral _ ha' hb' hallowed =>
        cases ha.symm.trans ha'
        cases hb.symm.trans hb'
        rw [if_neg (by simpa using hallowed)]
        rfl
  by_cases hba : ∃ s v, b.head = .signal s ∧ a.head = .constant v
  · obtain ⟨s, v, hb, ha⟩ := hba
    simp only [ha, settleLiteral_of_literal hb ha]
    constructor
    · intro he
      split_ifs at he with hstrict
      · cases he
      exact ⟨_, .literalSignal h ha hb (by simpa using hstrict), (Except.ok.inj he).symm⟩
    · rintro ⟨es, hbuilt, rfl⟩
      cases hbuilt with
      | comparison _ _ hne => exact absurd ha (hne s v hb)
      | signalLiteral _ ha' _ _ => simp [ha] at ha'
      | literalSignal _ ha' hb' hallowed =>
        cases ha.symm.trans ha'
        cases hb.symm.trans hb'
        rw [if_neg (by simpa using hallowed)]
        rfl
  · have hab' : ∀ s v, a.head = .signal s → b.head ≠ .constant v :=
      fun s v ha hb => hab ⟨s, v, ha, hb⟩
    have hba' : ∀ s v, b.head = .signal s → a.head ≠ .constant v :=
      fun s v hb ha => hba ⟨s, v, hb, ha⟩
    rw [settleLiteral_of_ne hab', settleLiteral_of_ne hba']
    constructor
    · intro he
      refine ⟨_, .comparison h hab' hba', ?_⟩
      split at he <;> exact (Except.ok.inj he).symm
    · rintro ⟨es, hbuilt, rfl⟩
      cases hbuilt with
      | comparison _ _ _ => split <;> rfl
      | signalLiteral _ ha hb _ => exact absurd hb (hab' _ _ ha)
      | literalSignal _ ha hb _ => exact absurd ha (hba' _ _ hb)

theorem comparison_of_comparable {op : Comparison} {a b : Expr} (h : Comparable op a.head b.head) :
    ctx.comparison op a b span = ctx.settledPair op a b span := by
  obtain ⟨t, ha, hb, ht⟩ := h
  have hordered : ¬ (op.isRelational && t == .string) := by
    cases t <;> simp_all
  rw [comparison_eq, Expr.type, Expr.type]
  simp only [ha, hb, ne_eq, not_true, if_false, if_neg hordered]

theorem comparable_of_comparison {op : Comparison} {a b : Expr}
    (h : ctx.comparison op a b span = .ok e) : Comparable op a.head b.head := by
  rw [comparison_eq] at h
  cases ha : a.type with
  | value l =>
    cases hb : b.type with
    | value r =>
      simp only [ha, hb] at h
      split_ifs at h with hne hstring
      have hlr : l = r := not_not.1 hne
      refine ⟨l, ha, hlr ▸ hb, fun hop => ?_⟩
      cases l with
      | number => rfl
      | string => simp [hop] at hstring
    | _ => simp [ha, hb] at h
  | _ => simp [ha] at h

theorem comparison_eq_ok_iff {op : Comparison} {a b : Expr} :
    ctx.comparison op a b span = .ok e ↔
      ∃ es, Built ctx (.comparison op) [a, b] (.comparison op) es ∧
        e = .node span (.comparison op) es := by
  constructor
  · intro he
    have h := comparable_of_comparison he
    rwa [comparison_of_comparable h, settledPair_eq_ok_iff h] at he
  · intro he
    obtain ⟨es, hbuilt, -⟩ := id he
    have h := hbuilt.comparable
    rwa [comparison_of_comparable h, settledPair_eq_ok_iff h]

/-! ### Other operators -/

/-- A check that looks for a first operand at fault passes if no operand is at fault. -/
theorem find?_guard_eq_ok_iff {p : Expr → Bool} {refuse : Expr → ParseError} {built : Expr}
    {es : List Expr} :
    ((match es.find? p with
      | some x => .error (refuse x)
      | none => .ok built : Except ParseError Expr) = .ok e) ↔
      (∀ x ∈ es, p x = false) ∧ e = built := by
  cases hfind : es.find? p with
  | some x =>
    have hx := List.find?_some hfind
    have hmem := List.mem_of_find?_eq_some hfind
    simp only [reduceCtorEq, false_iff, not_and]
    intro h
    simp [h x hmem] at hx
  | none =>
    have hall : ∀ x ∈ es, p x = false := by simpa using hfind
    simp only [Except.ok.injEq]
    exact ⟨fun h => ⟨hall, h.symm⟩, fun h => h.2.symm⟩

theorem connective_eq_ok_iff {op : Connective} {es : List Expr} :
    ctx.connective op es span = .ok e ↔
      (∀ x ∈ es, x.type = .boolean) ∧ e = .node span (.connective op) (op.merge es) := by
  have h : ∀ x : Expr, decide (x.type ≠ .boolean) = false ↔ x.type = .boolean := by simp
  simp only [← h]
  exact find?_guard_eq_ok_iff

theorem arithmetic_eq_ok_iff {op : Arithmetic} {es : List Expr} :
    ctx.arithmetic op es span = .ok e ↔
      (∀ x ∈ es, x.type = .value .number) ∧ e = .node span (.arithmetic op) (op.merge es) := by
  have h : ∀ x : Expr, decide (x.type ≠ .value .number) = false ↔ x.type = .value .number := by
    simp
  simp only [← h]
  exact find?_guard_eq_ok_iff

theorem concat_eq_ok_iff {es : List Expr} :
    ctx.concat es span = .ok e ↔
      (∀ x ∈ es, ∃ t, x.type = .value t) ∧ e = .node span .concat es := by
  have h (x : Expr) : (!isValue x) = false ↔ ∃ t, x.type = .value t := by
    unfold isValue
    cases x.type <;> simp
  simp only [← h]
  exact find?_guard_eq_ok_iff

theorem modeError?_eq_none_iff (spelling : String) {mode : PropertyMode} {p : Property} :
    modeError? spelling mode p = none ↔ mode.Fits p := by
  unfold modeError? PropertyMode.Fits
  cases mode with
  | value t | element t =>
    by_cases ht : p.type = t
    · cases p.shape.isCollection <;> simp [ht, PropertyMode.type]
    · have ht' : t ≠ p.type := fun h => ht h.symm
      simp [ht, ht', PropertyMode.type]
  | length => cases p.shape.isCollection <;> simp

theorem bareNames_eq_ok_iff {es : List Expr} {names : List String} :
    bareNames es = .ok names ↔ es.map Expr.head = names.map Head.symbol := by
  induction es generalizing names with
  | nil => cases names <;> simp [bareNames]
  | cons x es ih =>
    obtain ⟨s, head, operands⟩ := x
    cases head with
    | symbol name =>
      rw [bareNames, bind_eq_ok_iff]
      simp only [ih, pure, Except.pure, Except.ok.injEq]
      constructor
      · rintro ⟨rest, hrest, rfl⟩
        simp [hrest, Expr.head]
      · intro h
        obtain ⟨name', names, rfl⟩ : ∃ n ns, names = n :: ns := by
          cases names with
          | nil => simp at h
          | cons n ns => exact ⟨n, ns, rfl⟩
        simp only [List.map_cons, List.cons.injEq, Expr.head, Head.symbol.injEq] at h
        exact ⟨names, h.2, by rw [h.1]⟩
    | _ => cases names <;> simp [bareNames, Expr.head]

theorem presence_eq_ok_iff {kind : Presence} {es : List Expr} :
    ctx.presence kind es span = .ok e ↔
      ∃ names, es.map Expr.head = names.map Head.symbol ∧
        e = .node span (.presence kind names) [] := by
  unfold presence
  simp only [← bareNames_eq_ok_iff]
  cases bareNames es <;> simp [eq_comm]

/-- Up to two operands, what the first one refers to decides what is read. -/
theorem property_cons_eq_ok_iff {op : Operator} {x : Expr} {rest : List Expr} :
    ctx.property op (x :: rest) span = .ok e ↔
      ∃ reference p, x.head = .constant (.string reference) ∧
        ctx.host.property? reference = .ok p ∧
        (propertyMode op rest.head?.isSome).Fits p ∧
        (∀ i ∈ rest.head?, i.type = .value .number) ∧
        e = .node span (.property (propertyMode op rest.head?.isSome) p) rest.head?.toList := by
  obtain ⟨s, head, operands⟩ := x
  cases head with
  | constant v =>
    cases v with
    | string reference =>
      simp only [property, resolve, Expr.head, Head.constant.injEq, Value.string.injEq,
        ← modeError?_eq_none_iff (ctx.spelling op)]
      cases hp : ctx.host.property? reference with
      | error notice => simp [Except.mapError, bind, Except.bind, hp]
      | ok p =>
        simp only [Except.mapError, ok_bind]
        cases hmode : modeError? (ctx.spelling op) (propertyMode op rest.head?.isSome) p with
        | some cause => simp [throw, throwThe, MonadExceptOf.throw, hp, hmode]
        | none =>
          cases hrest : rest.head? with
          | none =>
            simp only [hrest, Option.isSome_none] at hmode
            simp [pure, Except.pure, hp, hmode, eq_comm (b := e)]
          | some i =>
            simp only [hrest, Option.isSome_some] at hmode
            by_cases hi : i.type = .value .number
            · simp [pure, Except.pure, hp, hmode, hi, eq_comm (b := e)]
            · simp [throw, throwThe, MonadExceptOf.throw, hi]
    | _ => simp [property, throw, throwThe, MonadExceptOf.throw, Expr.head]
  | _ => simp [property, throw, throwThe, MonadExceptOf.throw, Expr.head]

/-- A property is read without an index or at one. -/
theorem property_eq_ok_iff {op : Operator} (hop : op.readsProperty) {es : List Expr}
    (hcount : op.arity.accepts es.length) :
    ctx.property op es span = .ok e ↔
      ∃ head es', Built ctx op es head es' ∧ e = .node span head es' := by
  have hlength : es.length = 1 ∨ es.length = 2 := by
    cases op <;> simp [Operator.readsProperty, Operator.arity] at hop hcount <;> omega
  rcases hlength with h | h
  · obtain ⟨x, rfl⟩ := List.length_eq_one_iff.1 h
    rw [property_cons_eq_ok_iff]
    constructor
    · rintro ⟨reference, p, hx, hp, hfits, -, rfl⟩
      exact ⟨_, _, .property hop hx hp hfits, rfl⟩
    · rintro ⟨head, es', hbuilt, rfl⟩
      cases hbuilt with
      | property _ hx hp hfits => exact ⟨_, _, hx, hp, hfits, by simp, rfl⟩
      | _ => cases hop
  · obtain ⟨x, i, rfl⟩ := List.length_eq_two.1 h
    rw [property_cons_eq_ok_iff]
    constructor
    · rintro ⟨reference, p, hx, hp, hfits, hi, rfl⟩
      exact ⟨_, _, .element hop hcount hx hp hfits (hi i rfl), rfl⟩
    · rintro ⟨head, es', hbuilt, rfl⟩
      cases hbuilt with
      | element _ _ hx hp hfits hi => exact ⟨_, _, hx, hp, hfits, by simpa using hi, rfl⟩
      | _ => cases hop

end Context

/-! ### What an operator becomes -/

namespace Built

variable {ctx : Context} {es es' : List Expr} {head : Head}

/-- No operator becomes a bare name. -/
theorem head_ne_symbol {op : Operator} (h : Built ctx op es head es') (name : String) :
    head ≠ .symbol name := by
  cases h <;> simp

/-- An operator becomes a node only if it has as many operands as it takes. -/
theorem accepts {op : Operator} (h : Built ctx op es head es') : op.arity.accepts es.length := by
  cases h with
  | comparison | signalLiteral | literalSignal => simp [Operator.arity]
  | connective hcount _ | arithmetic hcount _ | concat hcount _ => exact hcount
  | property hop => cases op <;> simp [Operator.readsProperty, Operator.arity] at hop ⊢
  | element _ hcount => exact hcount
  | @presence _ _ names hne h =>
    have hlength : es.length = names.length := by simpa using congrArg List.length h
    have hpos : 0 < names.length := List.length_pos_iff.2 hne
    simpa [Operator.arity, hlength] using Nat.succ_le_of_lt hpos
  | signal => simp [Operator.arity]
  | action => simp [Operator.arity]

theorem head_comparison {op : Comparison} (h : Built ctx (.comparison op) es head es') :
    head = .comparison op := by
  cases h with
  | comparison | signalLiteral | literalSignal => rfl
  | property hop | element hop => cases hop

theorem connective_iff {op : Connective} :
    Built ctx (.connective op) es head es' ↔
      (Operator.connective op).arity.accepts es.length ∧ (∀ e ∈ es, e.type = .boolean) ∧
        head = .connective op ∧ es' = op.merge es := by
  constructor
  · intro h
    cases h with
    | connective hcount h => exact ⟨hcount, h, rfl, rfl⟩
    | property hop | element hop => cases hop
  · rintro ⟨hcount, h, rfl, rfl⟩
    exact .connective hcount h

theorem arithmetic_iff {op : Arithmetic} :
    Built ctx (.arithmetic op) es head es' ↔
      (Operator.arithmetic op).arity.accepts es.length ∧ (∀ e ∈ es, e.type = .value .number) ∧
        head = .arithmetic op ∧ es' = op.merge es := by
  constructor
  · intro h
    cases h with
    | arithmetic hcount h => exact ⟨hcount, h, rfl, rfl⟩
    | property hop | element hop => cases hop
  · rintro ⟨hcount, h, rfl, rfl⟩
    exact .arithmetic hcount h

theorem concat_iff :
    Built ctx .concat es head es' ↔ Operator.concat.arity.accepts es.length ∧
      (∀ e ∈ es, ∃ t, e.type = .value t) ∧ head = .concat ∧ es' = es := by
  constructor
  · intro h
    cases h with
    | concat hcount h => exact ⟨hcount, h, rfl, rfl⟩
    | property hop | element hop => cases hop
  · rintro ⟨hcount, h, rfl, rfl⟩
    exact .concat hcount h

theorem presence_iff {kind : Presence} :
    Built ctx (.presence kind) es head es' ↔ ∃ names ≠ [],
      es.map Expr.head = names.map Head.symbol ∧ head = .presence kind names ∧ es' = [] := by
  constructor
  · intro h
    cases h with
    | presence hne h => exact ⟨_, hne, h, rfl, rfl⟩
    | property hop | element hop => cases hop
  · rintro ⟨names, hne, h, rfl, rfl⟩
    exact .presence hne h

theorem signal_iff {e : Expr} :
    Built ctx .signal [e] head es' ↔ ∃ name s, e.head = .symbol name ∧
      ctx.host.signal? name = .ok s ∧ head = .signal s ∧ es' = [] := by
  constructor
  · intro h
    cases h with
    | signal he hs => exact ⟨_, _, he, hs, rfl, rfl⟩
    | property hop => cases hop
  · rintro ⟨name, s, he, hs, rfl, rfl⟩
    exact .signal he hs

theorem action_iff {e : Expr} {args : List Expr} :
    Built ctx .action (e :: args) head es' ↔ ∃ name a, e.head = .symbol name ∧
      Called ctx name (args.map Expr.head) a ∧ head = .action a (splitOnce name).2 ∧
        es' = args := by
  constructor
  · intro h
    cases h with
    | action he ha => exact ⟨_, _, he, ha, rfl, rfl⟩
    | property hop | element hop => cases hop
  · rintro ⟨name, a, he, ha, rfl, rfl⟩
    exact .action he ha

end Built

namespace Context

variable {ctx : Context} {span : Span} {e : Expr}

/-- The operator that reads a signal takes a name. -/
theorem apply_signal_eq_ok_iff {x : Expr} :
    ctx.apply .signal [x] span = .ok e ↔
      ∃ name, x.head = .symbol name ∧ ctx.signal name span = .ok e := by
  have hcount : Operator.signal.arity.accepts [x].length = true := rfl
  obtain ⟨s, head, operands⟩ := x
  unfold apply
  rw [hcount]
  cases head <;> simp [Expr.head]

/-- The operator that calls an action takes a name and arguments. -/
theorem apply_action_eq_ok_iff {x : Expr} {args : List Expr} :
    ctx.apply .action (x :: args) span = .ok e ↔
      ∃ name, x.head = .symbol name ∧ ctx.action name args span = .ok e := by
  have hcount : Operator.action.arity.accepts (x :: args).length = true := by
    simp [Operator.arity]
  obtain ⟨s, head, operands⟩ := x
  unfold apply
  rw [hcount]
  cases head <;> simp [Expr.head]

/-- Applying an operator succeeds exactly with the node that is built. -/
theorem apply_eq_ok_iff {op : Operator} {es : List Expr} :
    ctx.apply op es span = .ok e ↔
      ∃ head es', Built ctx op es head es' ∧ e = .node span head es' := by
  by_cases hcount : op.arity.accepts es.length
  swap
  · constructor
    · simp [apply, hcount]
    · rintro ⟨head, es', h, -⟩
      exact absurd h.accepts hcount
  have hpass : ¬ (!op.arity.accepts es.length) = true := by simp [hcount]
  cases op with
  | comparison c =>
    obtain ⟨a, b, rfl⟩ : ∃ a b, es = [a, b] := by
      simpa [Operator.arity, List.length_eq_two] using hcount
    rw [apply, if_neg hpass, comparison_eq_ok_iff]
    constructor
    · rintro ⟨es', h, rfl⟩
      exact ⟨_, es', h, rfl⟩
    · rintro ⟨head, es', h, rfl⟩
      obtain rfl := h.head_comparison
      exact ⟨es', h, rfl⟩
  | connective c =>
    rw [apply, if_neg hpass, connective_eq_ok_iff]
    simp [Built.connective_iff, hcount]
  | arithmetic c =>
    rw [apply, if_neg hpass, arithmetic_eq_ok_iff]
    simp [Built.arithmetic_iff, hcount]
  | concat =>
    rw [apply, if_neg hpass, concat_eq_ok_iff]
    simp [Built.concat_iff, hcount]
  | getNumber | getString | getLength =>
    rw [apply, if_neg hpass]
    exact property_eq_ok_iff rfl hcount
  | presence kind =>
    rw [apply, if_neg hpass, presence_eq_ok_iff]
    constructor
    · rintro ⟨names, h, rfl⟩
      have hlength : es.length = names.length := by simpa using congrArg List.length h
      have hne : names ≠ [] := by
        rintro rfl
        simp [Operator.arity, hlength] at hcount
      exact ⟨_, _, .presence hne h, rfl⟩
    · rintro ⟨head, es', h, rfl⟩
      obtain ⟨names, -, hnames, rfl, rfl⟩ := Built.presence_iff.1 h
      exact ⟨names, hnames, rfl⟩
  | signal =>
    obtain ⟨x, rfl⟩ := List.length_eq_one_iff.1 (Arity.accepts_exactly.1 hcount)
    simp only [apply_signal_eq_ok_iff, signal_eq_ok_iff, Built.signal_iff]
    constructor
    · rintro ⟨name, hx, s, hs, rfl⟩
      exact ⟨_, _, ⟨name, s, hx, hs, rfl, rfl⟩, rfl⟩
    · rintro ⟨_, _, ⟨name, s, hx, hs, rfl, rfl⟩, rfl⟩
      exact ⟨name, hx, s, hs, rfl⟩
  | action =>
    obtain ⟨x, args, rfl⟩ : ∃ x xs, es = x :: xs := by
      cases es with
      | nil => simp [Operator.arity] at hcount
      | cons x xs => exact ⟨x, xs, rfl⟩
    simp only [apply_action_eq_ok_iff, action_eq_ok_iff, Built.action_iff]
    constructor
    · rintro ⟨name, hx, a, ha, rfl⟩
      exact ⟨_, _, ⟨name, a, hx, ha, rfl, rfl⟩, rfl⟩
    · rintro ⟨_, _, ⟨name, a, hx, ha, rfl, rfl⟩, rfl⟩
      exact ⟨name, hx, a, ha, rfl⟩

theorem unplaced_apply_eq_ok_iff {op : Operator} {es : List Expr} :
    unplaced (ctx.apply op es span) = .ok e ↔
      ∃ head es', Built ctx op es head es' ∧ e = .node default head (es'.map Expr.erase) := by
  simp only [unplaced_eq_ok_iff, apply_eq_ok_iff]
  constructor
  · rintro ⟨_, ⟨head, es', h, rfl⟩, rfl⟩
    exact ⟨head, es', h, Expr.erase_node span head es'⟩
  · rintro ⟨head, es', h, rfl⟩
    exact ⟨_, ⟨head, es', h, rfl⟩, Expr.erase_node span head es'⟩

end Context

end SignalRules
