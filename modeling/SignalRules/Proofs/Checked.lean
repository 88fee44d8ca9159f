import SignalRules.Proofs.Algebraic.Exactness
import SignalRules.Proofs.Decimal
import SignalRules.Proofs.Polish.Term

/-!
# What every expression that is read satisfies

Whatever is read from a source, in either grammar, was built by the checked constructors, so every
node of it satisfies what they check. The checks look at the head of a node and at the heads of its
operands only. Literals beside a signal are special: they need not be literals that a source could
hold, since outdated ones have been replaced.

## Main definitions

* `Expr.Everywhere`: every node of an expression satisfies a condition.
* `Sound`: what the checks establish about a node.
* `Expr.Checked`: an expression all of whose nodes are sound.

## Main results

* `Context.checked_of_parse`: what is read from a source is checked.
-/

namespace SignalRules

/-- Whether a literal in a source can denote the value. The least number cannot be written, because
its magnitude is out of range. -/
def Value.Readable : Value → Prop
  | unset => False
  | string _ => True
  | number n => n.hundredths ≠ leastCount

/-- A head that is not a literal, or a literal that a source can hold. -/
def Head.Readable : Head → Prop
  | constant v => v.Readable
  | _ => True

/-- Every node of an expression satisfies `P`, which is told its head and the heads of its
operands. -/
inductive Expr.Everywhere (P : Head → List Head → Prop) : Expr → Prop
  | node {span : Span} {head : Head} {es : List Expr} (h : P head (es.map Expr.head))
      (hes : ∀ e ∈ es, Everywhere P e) : Everywhere P (.node span head es)

/-- What the checks establish about a node with the given head, whose operands have the given
heads. -/
inductive Sound (ctx : Context) : Head → List Head → Prop
  | literal (v : Value) : Sound ctx (.constant v) []
  | signal {name : String} {s : Signal} (hname : ctx.grammar.IsName name)
      (hs : ctx.host.signal? name = .ok s) : Sound ctx (.signal s) []
  | action {written : String} {args : List Head} {a : Action}
      (hname : ctx.grammar.IsName written) (ha : Called ctx written args a)
      (hread : ∀ h ∈ args, h.Readable) : Sound ctx (.action a (splitOnce written).2) args
  | comparison {op : Comparison} {a b : Head} (h : Comparable op a b)
      (hab : ∀ s v, a = .signal s → b ≠ .constant v)
      (hba : ∀ s v, b = .signal s → a ≠ .constant v) (ha : a.Readable) (hb : b.Readable) :
      Sound ctx (.comparison op) [a, b]
  | signalLiteral {op : Comparison} {name : String} {s : Signal} {v : Value}
      (hs : ctx.host.signal? name = .ok s) (h : Comparable op (.signal s) (.constant v))
      (hv : v.Readable) (hallowed : ctx.strict → s.allows (s.settled v)) :
      Sound ctx (.comparison op) [.signal s, .constant (s.settled v)]
  | literalSignal {op : Comparison} {name : String} {s : Signal} {v : Value}
      (hs : ctx.host.signal? name = .ok s) (h : Comparable op (.constant v) (.signal s))
      (hv : v.Readable) (hallowed : ctx.strict → s.allows (s.settled v)) :
      Sound ctx (.comparison op) [.constant (s.settled v), .signal s]
  | connective {op : Connective} {hs : List Head}
      (hcount : (Operator.connective op).arity.accepts hs.length)
      (h : ∀ x ∈ hs, x.type = .boolean)
      (hflat : (Operator.connective op).isFlattened → ∀ x ∈ hs, x.isConnective op = false) :
      Sound ctx (.connective op) hs
  | arithmetic {op : Arithmetic} {hs : List Head}
      (hcount : (Operator.arithmetic op).arity.accepts hs.length)
      (h : ∀ x ∈ hs, x.type = .value .number)
      (hflat : (Operator.arithmetic op).isFlattened → ∀ x ∈ hs, x.isArithmetic op = false)
      (hread : ∀ x ∈ hs, x.Readable) : Sound ctx (.arithmetic op) hs
  | concat {hs : List Head} (hcount : Operator.concat.arity.accepts hs.length)
      (h : ∀ x ∈ hs, ∃ t, x.type = .value t) (hread : ∀ x ∈ hs, x.Readable) :
      Sound ctx .concat hs
  | property {op : Operator} {reference : String} {p : Property} (hop : op.readsProperty)
      (hp : ctx.host.property? reference = .ok p)
      (hfits : (Context.propertyMode op false).Fits p) :
      Sound ctx (.property (Context.propertyMode op false) p) []
  | element {op : Operator} {reference : String} {p : Property} {i : Head}
      (hop : op.readsProperty) (hcount : op.arity.accepts 2)
      (hp : ctx.host.property? reference = .ok p)
      (hfits : (Context.propertyMode op true).Fits p) (hi : i.type = .value .number)
      (hread : i.Readable) : Sound ctx (.property (Context.propertyMode op true) p) [i]
  | presence (kind : Presence) {names : List String} (hne : names ≠ [])
      (hnames : ∀ n ∈ names, ctx.grammar.IsName n) : Sound ctx (.presence kind names) []

/-- An expression all of whose nodes are sound, and that is not a literal beside a signal. -/
structure Expr.Checked (ctx : Context) (e : Expr) : Prop where
  sound : e.Everywhere (Sound ctx)
  readable : e.head.Readable

namespace Expr

variable {P : Head → List Head → Prop}

theorem Everywhere.head {e : Expr} (h : e.Everywhere P) : P e.head (e.operands.map Expr.head) := by
  cases h with
  | node h _ => exact h

theorem Everywhere.operands {e : Expr} (h : e.Everywhere P) :
    ∀ x ∈ e.operands, x.Everywhere P := by
  cases h with
  | node _ hes => exact hes

/-- Conditions on heads do not depend on spans. -/
theorem everywhere_erase {e : Expr} : e.erase.Everywhere P ↔ e.Everywhere P := by
  induction e using node_induction with
  | step span head es ih =>
    have hheads : (es.map erase).map Expr.head = es.map Expr.head := by
      simp [List.map_map, Function.comp_def]
    rw [erase_node]
    constructor
    · intro h
      refine .node (hheads ▸ h.head) fun e he => ?_
      exact (ih e he).1 (h.operands e.erase (List.mem_map_of_mem he))
    · intro h
      refine .node (hheads ▸ h.head) fun e he => ?_
      obtain ⟨x, hx, rfl⟩ := List.mem_map.1 he
      exact (ih x hx).2 (h.operands x hx)

theorem Everywhere.mono {Q : Head → List Head → Prop} (hPQ : ∀ head hs, P head hs → Q head hs)
    {e : Expr} (h : e.Everywhere P) : e.Everywhere Q := by
  induction h with
  | node h _ ih => exact .node (hPQ _ _ h) ih

theorem checked_erase {ctx : Context} {e : Expr} : e.erase.Checked ctx ↔ e.Checked ctx := by
  constructor
  · rintro ⟨hsound, hread⟩
    exact ⟨everywhere_erase.1 hsound, by simpa using hread⟩
  · rintro ⟨hsound, hread⟩
    exact ⟨everywhere_erase.2 hsound, by simpa using hread⟩

end Expr

/-! ### Building keeps expressions checked -/

variable {ctx : Context}

/-- Every argument of a call has a parameter. -/
theorem Called.exists_parameter {written : String} {args : List Head} {a : Action}
    (h : Called ctx written args a) {i : Nat} (hi : i < args.length) :
    ∃ p, a.parameter? i = some p := by
  have hcount := h.count
  unfold Action.arity at hcount
  unfold Action.parameter?
  cases hv : a.variadic with
  | some p => cases a.parameters[i]? <;> simp
  | none =>
    rw [hv, Arity.accepts_exactly] at hcount
    rw [List.getElem?_eq_getElem (by omega)]
    exact ⟨_, rfl⟩

/-- Every argument of a call is a value. -/
theorem Called.exists_type {written : String} {args : List Head} {a : Action}
    (h : Called ctx written args a) {x : Head} (hx : x ∈ args) : ∃ t, x.type = .value t := by
  obtain ⟨i, hi, rfl⟩ := List.mem_iff_getElem.1 hx
  obtain ⟨p, hp⟩ := h.exists_parameter hi
  exact ⟨p.type, h.types i _ p (List.getElem?_eq_getElem hi) hp⟩

/-- What an operator may be applied to: bare names and checked expressions. -/
def Operand (ctx : Context) (e : Expr) : Prop :=
  (∃ name, e.head = .symbol name ∧ ctx.grammar.IsName name) ∨ e.Checked ctx

theorem Operand.checked {e : Expr} (h : Operand ctx e) (htype : e.type ≠ .symbol) :
    e.Checked ctx := by
  rcases h with ⟨name, hhead, -⟩ | h
  · exact absurd (by rw [Expr.type, hhead, Head.type]) htype
  · exact h

theorem Operand.isName {e : Expr} (h : Operand ctx e) {name : String}
    (hhead : e.head = .symbol name) : ctx.grammar.IsName name := by
  rcases h with ⟨name', hhead', hname⟩ | h
  · cases hhead.symm.trans hhead'
    exact hname
  · cases hhead ▸ h.sound.head

/-- A spliced operand is an operand itself, or an operand of one that is spliced. -/
theorem mem_flatten {same : Head → Bool} {es : List Expr} {x : Expr} (hx : x ∈ flatten same es) :
    (x ∈ es ∧ same x.head = false) ∨ ∃ e ∈ es, same e.head ∧ x ∈ e.operands := by
  obtain ⟨e, he, hx⟩ := List.mem_flatMap.1 hx
  by_cases hsame : same e.head
  · rw [if_pos hsame] at hx
    exact .inr ⟨e, he, hsame, hx⟩
  · rw [if_neg hsame, List.mem_singleton] at hx
    subst hx
    exact .inl ⟨he, by simpa using hsame⟩

/-- Splicing operands that have operands themselves does not lose any. -/
theorem length_le_flatten {same : Head → Bool} {es : List Expr}
    (h : ∀ e ∈ es, same e.head → e.operands ≠ []) : es.length ≤ (flatten same es).length := by
  induction es with
  | nil => simp
  | cons e es ih =>
    have hrest := ih fun x hx => h x (List.mem_cons_of_mem _ hx)
    have hfirst : 1 ≤ (if same e.head then e.operands else [e]).length := by
      split_ifs with hsame
      · exact List.length_pos_iff.2 (h e (by simp) hsame)
      · simp
    simp only [flatten, List.flatMap_cons, List.length_append, List.length_cons] at hrest ⊢
    omega

/-- A merging operator takes two operands or more. -/
theorem arity_of_isFlattened : ∀ op : Operator, op.isFlattened → op.arity = .atLeast 2 :=
  Operator.forall_of_all (by decide)

/-- What holds of the operands of a node holds of operands after splicing: they are as many as the
operator takes, they are checked, and none of them could be spliced again. -/
theorem splice_spec {op : Operator} {head : Head} {same : Head → Bool} {Q : Head → Prop}
    (hsame : ∀ x, same x → x = head)
    (hinv : ∀ hs, Sound ctx head hs → op.arity.accepts hs.length ∧
      ∀ x ∈ hs, Q x ∧ x.Readable ∧ (op.isFlattened → same x = false))
    {es : List Expr} (hcount : op.arity.accepts es.length)
    (hes : ∀ e ∈ es, e.Checked ctx ∧ Q e.head) :
    op.arity.accepts (if op.isFlattened then flatten same es else es).length ∧
      ∀ x ∈ if op.isFlattened then flatten same es else es,
        x.Checked ctx ∧ Q x.head ∧ (op.isFlattened → same x.head = false) := by
  by_cases hflat : op.isFlattened
  swap
  · simp only [if_neg hflat]
    exact ⟨hcount, fun x hx => ⟨(hes x hx).1, (hes x hx).2, fun h => absurd h hflat⟩⟩
  simp only [if_pos hflat]
  have harity := arity_of_isFlattened op hflat
  have hinner {e : Expr} (he : e ∈ es) (hhead : same e.head) :=
    hinv _ (hsame _ hhead ▸ (hes e he).1.sound.head)
  constructor
  · have hne : ∀ e ∈ es, same e.head → e.operands ≠ [] := by
      intro e he hhead hnil
      have h := (hinner he hhead).1
      rw [harity, hnil] at h
      simp at h
    have hlength := length_le_flatten hne
    rw [harity, Arity.accepts_atLeast] at hcount ⊢
    omega
  · intro x hx
    rcases mem_flatten hx with ⟨hx, hne⟩ | ⟨e, he, hhead, hx⟩
    · exact ⟨(hes x hx).1, (hes x hx).2, fun _ => hne⟩
    · obtain ⟨hQ, hread, hne⟩ := (hinner he hhead).2 x.head (List.mem_map_of_mem hx)
      exact ⟨⟨(hes e he).1.sound.operands x hx, hread⟩, hQ, hne⟩

theorem Head.readable_of_boolean {x : Head} (h : x.type = .boolean) : x.Readable := by
  cases x with
  | constant v => cases h
  | _ => trivial

theorem checked_connective {op : Connective} {es : List Expr}
    (hcount : (Operator.connective op).arity.accepts es.length)
    (htype : ∀ e ∈ es, e.type = .boolean) (hes : ∀ e ∈ es, e.Checked ctx) (span : Span) :
    (Expr.node span (.connective op) (op.merge es)).Checked ctx := by
  have hinv : ∀ hs, Sound ctx (.connective op) hs →
      (Operator.connective op).arity.accepts hs.length ∧ ∀ x ∈ hs, x.type = .boolean ∧
        x.Readable ∧ ((Operator.connective op).isFlattened → x.isConnective op = false) := by
    intro hs h
    cases h with
    | connective hcount htype hflat =>
      exact ⟨hcount, fun x hx => ⟨htype x hx, Head.readable_of_boolean (htype x hx),
        fun h => hflat h x hx⟩⟩
  obtain ⟨hcount', hall⟩ := splice_spec (fun _ => Head.isConnective_iff.1) hinv hcount
    fun e he => ⟨hes e he, htype e he⟩
  rw [Connective.merge]
  refine ⟨.node (.connective ?_ ?_ ?_) fun x hx => (hall x hx).1.sound, trivial⟩
  · rwa [List.length_map]
  · simpa using fun x hx => (hall x hx).2.1
  · simpa using fun h x hx => (hall x hx).2.2 h

theorem checked_arithmetic {op : Arithmetic} {es : List Expr}
    (hcount : (Operator.arithmetic op).arity.accepts es.length)
    (htype : ∀ e ∈ es, e.type = .value .number) (hes : ∀ e ∈ es, e.Checked ctx) (span : Span) :
    (Expr.node span (.arithmetic op) (op.merge es)).Checked ctx := by
  have hinv : ∀ hs, Sound ctx (.arithmetic op) hs →
      (Operator.arithmetic op).arity.accepts hs.length ∧ ∀ x ∈ hs, x.type = .value .number ∧
        x.Readable ∧ ((Operator.arithmetic op).isFlattened → x.isArithmetic op = false) := by
    intro hs h
    cases h with
    | arithmetic hcount htype hflat hread =>
      exact ⟨hcount, fun x hx => ⟨htype x hx, hread x hx, fun h => hflat h x hx⟩⟩
  obtain ⟨hcount', hall⟩ := splice_spec (fun _ => Head.isArithmetic_iff.1) hinv hcount
    fun e he => ⟨hes e he, htype e he⟩
  rw [Arithmetic.merge]
  refine ⟨.node (.arithmetic ?_ ?_ ?_ ?_) fun x hx => (hall x hx).1.sound, trivial⟩
  · rwa [List.length_map]
  · simpa using fun x hx => (hall x hx).2.1
  · simpa using fun h x hx => (hall x hx).2.2 h
  · simpa using fun x hx => (hall x hx).1.readable

/-- The operands of a comparison are checked. -/
theorem checked_of_comparable {op : Comparison} {a b : Expr} (h : Comparable op a.head b.head)
    (ha : Operand ctx a) (hb : Operand ctx b) : a.Checked ctx ∧ b.Checked ctx := by
  obtain ⟨t, hta, htb, -⟩ := h
  exact ⟨ha.checked (by simp [Expr.type, hta]), hb.checked (by simp [Expr.type, htb])⟩

theorem Sound.head_ne_symbol {head : Head} {operands : List Head} (h : Sound ctx head operands)
    (name : String) : head ≠ .symbol name := by
  rintro rfl
  cases h

/-- The signals of an expression resolve. -/
theorem Sound.exists_name {head : Head} {hs : List Head} (h : Sound ctx head hs) {s : Signal}
    (hhead : head = .signal s) : ∃ name, ctx.host.signal? name = .ok s := by
  cases h with
  | signal _ hs =>
    cases hhead
    exact ⟨_, hs⟩
  | _ => cases hhead

/-- The actions of an expression are called as they can be. -/
theorem Sound.exists_called {a : Action} {once : Bool} {hs : List Head}
    (h : Sound ctx (.action a once) hs) : ∃ written, Called ctx written hs a := by
  cases h with
  | action _ ha => exact ⟨_, ha⟩

/-- An operator applied to operands becomes a checked expression. -/
theorem Built.checked {op : Operator} {es es' : List Expr} {head : Head}
    (h : Built ctx op es head es') (hes : ∀ e ∈ es, Operand ctx e) (span : Span) :
    (Expr.node span head es').Checked ctx := by
  cases h with
  | comparison h hab hba =>
    obtain ⟨ha, hb⟩ := checked_of_comparable h (hes _ (by simp)) (hes _ (by simp))
    refine ⟨.node (.comparison h hab hba ha.readable hb.readable) ?_, trivial⟩
    simpa using ⟨ha.sound, hb.sound⟩
  | @signalLiteral _ a b s v h ha hb hallowed =>
    obtain ⟨ha', hb'⟩ := checked_of_comparable h (hes _ (by simp)) (hes _ (by simp))
    have hv := hb'.readable
    rw [hb] at h hv
    rw [ha] at h
    obtain ⟨name, hs⟩ := ha'.sound.head.exists_name ha
    refine ⟨.node ?_ ?_, trivial⟩
    · simpa [ha] using Sound.signalLiteral hs h hv hallowed
    · simpa using ⟨ha'.sound, .node (.literal _) (by simp)⟩
  | @literalSignal _ a b s v h ha hb hallowed =>
    obtain ⟨ha', hb'⟩ := checked_of_comparable h (hes _ (by simp)) (hes _ (by simp))
    have hv := ha'.readable
    rw [ha] at h hv
    rw [hb] at h
    obtain ⟨name, hs⟩ := hb'.sound.head.exists_name hb
    refine ⟨.node ?_ ?_, trivial⟩
    · simpa [hb] using Sound.literalSignal hs h hv hallowed
    · simpa using ⟨.node (.literal _) (by simp), hb'.sound⟩
  | connective hcount h =>
    exact checked_connective hcount h (fun e he => (hes e he).checked (by simp [h e he])) span
  | arithmetic hcount h =>
    exact checked_arithmetic hcount h (fun e he => (hes e he).checked (by simp [h e he])) span
  | concat hcount h =>
    have hes' : ∀ e ∈ es, e.Checked ctx := by
      intro e he
      obtain ⟨t, ht⟩ := h e he
      exact (hes e he).checked (by simp [ht])
    refine ⟨.node (.concat ?_ ?_ ?_) fun e he => (hes' e he).sound, trivial⟩
    · rwa [List.length_map]
    · simpa [Expr.type] using h
    · simpa using fun e he => (hes' e he).readable
  | property hop he hp hfits => exact ⟨.node (.property hop hp hfits) (by simp), trivial⟩
  | @element _ e i _ _ hop hcount he hp hfits hi =>
    have hi' : i.Checked ctx := (hes i (by simp)).checked (by simp [hi])
    refine ⟨.node (.element hop hcount hp hfits hi hi'.readable) ?_, trivial⟩
    simpa using hi'.sound
  | @presence _ _ names hne h =>
    have hnames : ∀ n ∈ names, ctx.grammar.IsName n := by
      intro n hn
      have hmem : Head.symbol n ∈ es.map Expr.head := h ▸ List.mem_map_of_mem hn
      obtain ⟨e, he, hhead⟩ := List.mem_map.1 hmem
      exact (hes e he).isName hhead
    exact ⟨.node (.presence _ hne hnames) (by simp), trivial⟩
  | signal he hs =>
    exact ⟨.node (.signal ((hes _ (by simp)).isName he) hs) (by simp), trivial⟩
  | action he ha =>
    have hargs : ∀ x ∈ es', x.Checked ctx := by
      intro x hx
      obtain ⟨t, ht⟩ := ha.exists_type (List.mem_map_of_mem hx)
      exact (hes x (List.mem_cons_of_mem _ hx)).checked (by simp [Expr.type, ht])
    have hname := (hes _ (by simp)).isName he
    refine ⟨.node (.action hname ha ?_) fun x hx => (hargs x hx).sound, trivial⟩
    simpa using fun x hx => (hargs x hx).readable

/-! ### Reading gives checked expressions -/

theorem checked_of_number {text : String} {e : Expr}
    (h : unplaced (Context.number text default) = .ok e) : e.Checked ctx := by
  obtain ⟨e', he', rfl⟩ := unplaced_eq_ok_iff.1 h
  obtain ⟨n, hn, rfl⟩ := Context.number_eq_ok_iff.1 he'
  rw [Expr.erase_constant]
  exact ⟨.node (.literal _) (by simp), Fixed.hundredths_ne_of_parse? hn⟩

theorem checked_of_apply {op : Operator} {es : List Expr} (hes : ∀ e ∈ es, Operand ctx e)
    {e : Expr} (h : unplaced (ctx.apply op es default) = .ok e) : e.Checked ctx := by
  obtain ⟨e', he', rfl⟩ := unplaced_eq_ok_iff.1 h
  obtain ⟨head, es', hbuilt, rfl⟩ := Context.apply_eq_ok_iff.1 he'
  exact Expr.checked_erase.2 (hbuilt.checked hes default)

theorem Phrase.forall_of_buildAll {Q : Expr → Prop} {ps : List Phrase} {es : List Expr}
    (h : Phrase.buildAll ctx ps = .ok es)
    (hps : ∀ p ∈ ps, ∀ e, p.build ctx = .ok e → Q e) : ∀ e ∈ es, Q e := by
  induction ps generalizing es with
  | nil => cases h; simp
  | cons p ps ih =>
    rw [Phrase.buildAll] at h
    obtain ⟨e, he, h⟩ := bind_eq_ok_iff.1 h
    obtain ⟨es', hes', h⟩ := bind_eq_ok_iff.1 h
    cases h
    have hrest := ih hes' fun q hq => hps q (List.mem_cons_of_mem _ hq)
    exact List.forall_mem_cons.2 ⟨hps p (by simp) e he, hrest⟩

/-- Every name in the lexemes can be written in the grammar at hand. -/
def NamesIn (ctx : Context) (xs : List Lexeme) : Prop :=
  ∀ x ∈ xs, x.kind = .identifier → ctx.grammar.IsName x.text

theorem NamesIn.mono {xs ys : List Lexeme} (h : NamesIn ctx ys) (hsub : ∀ x ∈ xs, x ∈ ys) :
    NamesIn ctx xs :=
  fun x hx => h x (hsub x hx)

/-- What a phrase builds is checked. -/
theorem Phrase.checked_of_build {p : Phrase} (hnames : NamesIn ctx p.yield) {e : Expr}
    (h : p.build ctx = .ok e) : e.Checked ctx := by
  have hargs {args : List Phrase} {es : List Expr} {x : Lexeme}
      (hin : NamesIn ctx (x :: Lexeme.enclosed (Lexeme.listed (yieldAll args))))
      (hes : buildAll ctx args = .ok es)
      (ih : ∀ p ∈ args, NamesIn ctx p.yield → ∀ {e}, p.build ctx = .ok e → e.Checked ctx) :
      ∀ e ∈ es, e.Checked ctx := by
    refine forall_of_buildAll hes fun p hp e he => ih p hp (hin.mono fun y hy => ?_) he
    exact List.mem_cons_of_mem _ (mem_enclosed_yieldAll hp hy)
  induction p generalizing e with
  | number digits => exact checked_of_number h
  | negative digits => exact checked_of_number h
  | text content =>
    cases h
    exact ⟨.node (.literal _) (by simp), trivial⟩
  | signal name =>
    obtain ⟨e', he', rfl⟩ := unplaced_eq_ok_iff.1 h
    obtain ⟨s, hs, rfl⟩ := Context.signal_eq_ok_iff.1 he'
    have hname := hnames ⟨.identifier, name⟩ (by simp [yield]) rfl
    exact Expr.checked_erase.2 ⟨.node (.signal hname hs) (by simp), trivial⟩
  | presence kind names =>
    refine checked_of_apply ?_ h
    simp only [List.mem_map]
    rintro _ ⟨name, hname, rfl⟩
    exact .inl ⟨name, rfl, hnames _ (List.mem_cons_of_mem _ (mem_enclosed_names hname)) rfl⟩
  | call op args ih =>
    obtain ⟨es, hes, h⟩ := bind_eq_ok_iff.1 h
    have hall := hargs hnames hes ih
    exact checked_of_apply (fun e he => .inr (hall e he)) h
  | invoke name args ih =>
    obtain ⟨es, hes, h⟩ := bind_eq_ok_iff.1 h
    have hall := hargs hnames hes ih
    obtain ⟨e', he', rfl⟩ := unplaced_eq_ok_iff.1 h
    obtain ⟨a, ha, rfl⟩ := Context.action_eq_ok_iff.1 he'
    have hname := hnames ⟨.identifier, name⟩ (by simp [yield]) rfl
    refine Expr.checked_erase.2 ⟨.node (.action hname ha ?_) fun x hx => (hall x hx).sound, trivial⟩
    simpa using fun x hx => (hall x hx).readable
  | group inner ih => exact ih (hnames.mono fun x hx => by simp [yield, Lexeme.enclosed, hx]) h
  | minus operand ih | not operand ih =>
    obtain ⟨a, ha, h⟩ := bind_eq_ok_iff.1 h
    have hoperand := ih (hnames.mono fun x hx => by simp [yield, hx]) ha
    exact checked_of_apply (by simpa using .inr hoperand) h
  | binary op left right ihl ihr =>
    obtain ⟨a, ha, h⟩ := bind_eq_ok_iff.1 h
    obtain ⟨b, hb, h⟩ := bind_eq_ok_iff.1 h
    have hleft := ihl (hnames.mono fun x hx => by simp [yield, hx]) ha
    have hright := ihr (hnames.mono fun x hx => by simp [yield, hx]) hb
    refine checked_of_apply ?_ h
    simpa using ⟨.inr hleft, .inr hright⟩

theorem Term.forall_of_buildAll {Q : Expr → Prop} {ts : List Term} {es : List Expr}
    (h : Term.buildAll ctx ts = .ok es)
    (hts : ∀ t ∈ ts, ∀ e, t.build ctx = .ok e → Q e) : ∀ e ∈ es, Q e := by
  induction ts generalizing es with
  | nil => cases h; simp
  | cons t ts ih =>
    rw [Term.buildAll] at h
    obtain ⟨e, he, h⟩ := bind_eq_ok_iff.1 h
    obtain ⟨es', hes', h⟩ := bind_eq_ok_iff.1 h
    cases h
    have hrest := ih hes' fun u hu => hts u (List.mem_cons_of_mem _ hu)
    exact List.forall_mem_cons.2 ⟨hts t (by simp) e he, hrest⟩

theorem Term.mem_yieldAll {t : Term} {ts : List Term} (ht : t ∈ ts) {x : Lexeme}
    (hx : x ∈ t.yield) : x ∈ Term.yieldAll ts := by
  induction ts with
  | nil => cases ht
  | cons u us ih =>
    rw [Term.yieldAll, List.mem_append]
    rcases List.mem_cons.1 ht with rfl | ht
    · exact .inl hx
    · exact .inr (ih ht)

/-- What a term builds is a bare name or checked. -/
theorem Term.operand_of_build {t : Term} (hnames : NamesIn ctx t.yield) {e : Expr}
    (h : t.build ctx = .ok e) : Operand ctx e := by
  induction t generalizing e with
  | number digits => exact .inr (checked_of_number h)
  | text content =>
    cases h
    exact .inr ⟨.node (.literal _) (by simp), trivial⟩
  | name n =>
    cases h
    exact .inl ⟨n, rfl, hnames ⟨.identifier, n⟩ (by simp [yield]) rfl⟩
  | form op args ih =>
    obtain ⟨es, hes, h⟩ := bind_eq_ok_iff.1 h
    have hall : ∀ e ∈ es, Operand ctx e := forall_of_buildAll hes fun t ht e he =>
      ih t ht (hnames.mono fun x hx => by simp [yield, mem_yieldAll ht hx]) he
    exact .inr (checked_of_apply hall h)

/-- What is read from a source is checked, in either grammar. -/
theorem Context.checked_of_parse {source : List Char} {e : Expr} (h : ctx.parse source = .ok e) :
    e.Checked ctx := by
  obtain ⟨xs, hspells, hread, hbare⟩ := Context.parse_eq_ok_iff.1 ⟨e, h, rfl⟩
  rw [← Expr.checked_erase]
  cases hg : ctx.grammar with
  | polish =>
    simp only [Context.readLexemes, hg] at hread
    obtain ⟨t, rfl, hbuild⟩ := Polish.readExpression_eq_ok_iff.1 hread
    refine (Term.operand_of_build (fun x hx => hspells.isName hx) hbuild).resolve_left ?_
    rintro ⟨name, hname, -⟩
    exact hbare name hname
  | algebraic =>
    simp only [Context.readLexemes, hg] at hread
    have hregular := Algebraic.isRegular_of_spells (hg ▸ hspells)
    obtain ⟨p, -, rfl, hbuild⟩ := (Algebraic.readExpression_eq_ok_iff hregular).1 hread
    exact Phrase.checked_of_build (fun x hx => hspells.isName hx) hbuild

end SignalRules
