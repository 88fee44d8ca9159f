import SignalRules.Expr.Printer
import SignalRules.Proofs.Checked
import SignalRules.Proofs.HostStates

/-!
# The names in an expression

The names in an expression are those of its signals, those of its actions as they are written, and
those whose presence it checks. They all stand in the source that the expression was read from, so
they can be written in its grammar.

## Main definitions

* `Head.names`, `Expr.names`: the names in a node and in an expression.

## Main results

* `Sound.isName`, `Expr.isName_names`: the names of a node and of an expression can be written in
  the grammar at hand.
* `Expr.everywhere_sound_of_names`: an expression is sound in another grammar if its names are not
  reserved there.
-/

namespace SignalRules

/-- The names in a node. -/
def Head.names : Head → List String
  | signal s => [s.name]
  | action a once => [a.written once]
  | presence _ names => names
  | _ => []

namespace Expr

mutual

/-- The names in an expression. -/
def names : Expr → List String
  | node _ head operands => head.names ++ namesAll operands

/-- The names in several expressions. -/
def namesAll : List Expr → List String
  | [] => []
  | e :: es => names e ++ namesAll es

end

theorem mem_namesAll {es : List Expr} {n : String} :
    n ∈ namesAll es ↔ ∃ e ∈ es, n ∈ e.names := by
  induction es with
  | nil => simp [namesAll]
  | cons e es ih => simp [namesAll, ih]

theorem names_erase (e : Expr) : e.erase.names = e.names := by
  induction e using node_induction with
  | step span head es ih =>
    have hall : ∀ xs : List Expr, (∀ x ∈ xs, x.erase.names = x.names) →
        namesAll (xs.map erase) = namesAll xs := by
      intro xs hxs
      induction xs with
      | nil => rfl
      | cons x xs ihxs =>
        rw [List.forall_mem_cons] at hxs
        rw [List.map_cons, namesAll, namesAll, hxs.1, ihxs hxs.2]
    rw [erase_node, names, names, hall es ih]

/-- What holds of all names in an expression holds of the names of every node. -/
theorem forall_names_iff {P : String → Prop} {e : Expr} :
    (∀ n ∈ e.names, P n) ↔ e.Everywhere fun head _ => ∀ n ∈ head.names, P n := by
  induction e using node_induction with
  | step span head es ih =>
    constructor
    · intro h
      refine .node (fun n hn => h n ?_) fun e he => (ih e he).1 fun n hn => h n ?_
      · exact List.mem_append_left _ hn
      · exact List.mem_append_right _ (mem_namesAll.2 ⟨e, he, hn⟩)
    · intro h n hn
      rcases List.mem_append.1 hn with hn | hn
      · exact h.head n hn
      · obtain ⟨e, he, hn⟩ := mem_namesAll.1 hn
        exact (ih e he).2 (h.operands e he) n hn

end Expr

/-- The name of an action is split into its parts and put together again. -/
theorem Action.written_splitOnce {a : Action} {name : String}
    (h : a.name = (splitOnce name).1) : a.written (splitOnce name).2 = name := by
  unfold splitOnce at h ⊢
  dsimp only at h ⊢
  split_ifs at h ⊢ with hsuffix
  · rw [Bool.and_eq_true, List.isSuffixOf_iff_suffix] at hsuffix
    obtain ⟨base, hbase⟩ := hsuffix.1
    have htake : name.toList.take (name.toList.length - onceSuffix.length) = base := by
      simp [← hbase]
    apply String.toList_injective
    rw [written, if_pos rfl, h, htake, String.toList_append, String.toList_ofList, ← hbase]
    rfl
  · rw [written, h]
    rfl

namespace Sound

variable {ctx : Context} {head : Head} {operands : List Head}

/-- The names of a node can be written in the grammar that it was read in. -/
theorem isName (h : Sound ctx head operands) (hkeyed : ctx.host.Keyed) :
    ∀ n ∈ head.names, ctx.grammar.IsName n := by
  cases h with
  | signal hname hs =>
    rw [Head.names, List.forall_mem_singleton, hkeyed.name_signal hs]
    exact hname
  | action hname ha =>
    rw [Head.names, List.forall_mem_singleton,
      Action.written_splitOnce (hkeyed.name_action ha.resolves)]
    exact hname
  | presence _ _ hnames => exact hnames
  | _ => simp [Head.names]

/-- Nothing but its names ties a node to the grammar that it was read in. -/
theorem of_names (h : Sound ctx head operands) (hkeyed : ctx.host.Keyed) {g : Grammar}
    (hnames : ∀ n ∈ head.names, n ∉ g.keywords) :
    Sound { ctx with grammar := g } head operands := by
  have hname : ∀ n ∈ head.names, g.IsName n := fun n hn =>
    ⟨(h.isName hkeyed n hn).1, hnames n hn⟩
  cases h with
  | literal v => exact .literal v
  | signal _ hs =>
    rw [Head.names, List.forall_mem_singleton, hkeyed.name_signal hs] at hname
    exact .signal hname hs
  | action _ ha hread =>
    rw [Head.names, List.forall_mem_singleton,
      Action.written_splitOnce (hkeyed.name_action ha.resolves)] at hname
    exact .action hname ⟨ha.resolves, ha.count, ha.types⟩ hread
  | comparison h hab hba ha hb => exact .comparison h hab hba ha hb
  | signalLiteral hs h hv hallowed => exact .signalLiteral hs h hv hallowed
  | literalSignal hs h hv hallowed => exact .literalSignal hs h hv hallowed
  | connective hcount h hflat => exact .connective hcount h hflat
  | arithmetic hcount h hflat hread => exact .arithmetic hcount h hflat hread
  | concat hcount h hread => exact .concat hcount h hread
  | property hop hp hfits => exact .property hop hp hfits
  | element hop hcount hp hfits hi hread => exact .element hop hcount hp hfits hi hread
  | presence kind hne _ => exact .presence kind hne hname

end Sound

/-- The names in an expression can be written in the grammar that it was read in. -/
theorem Expr.isName_names {ctx : Context} {e : Expr} (h : e.Everywhere (Sound ctx))
    (hkeyed : ctx.host.Keyed) : ∀ n ∈ e.names, ctx.grammar.IsName n :=
  forall_names_iff.2 (h.mono fun _ _ hsound => hsound.isName hkeyed)

/-- Nothing but its names ties an expression to the grammar that it was read in. -/
theorem Expr.everywhere_sound_of_names {ctx : Context} {e : Expr} (h : e.Everywhere (Sound ctx))
    (hkeyed : ctx.host.Keyed) {g : Grammar} (hnames : ∀ n ∈ e.names, n ∉ g.keywords) :
    e.Everywhere (Sound { ctx with grammar := g }) := by
  rw [forall_names_iff] at hnames
  induction h with
  | node h _ ih =>
    refine .node (h.of_names hkeyed hnames.head) fun x hx => ?_
    exact ih x hx (hnames.operands x hx)

end SignalRules
