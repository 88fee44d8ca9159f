import Mathlib.Data.List.Forall2
import SignalRules.Expr.Describe
import SignalRules.Proofs.NodeSpans
import SignalRules.Proofs.Splicing
import SignalRules.Proofs.WellFormed

/-!
# What an expression can see of its host

Evaluation looks at a host in three places only: a signal is read, a property is read, and names are
asked for. Two hosts that answer alike at all such nodes of an expression give it the same value and
the same truth. The flags of an expression tell from its nodes alone where that is the case: a
constant expression never looks at the host, and one that reads neither signals nor properties
sees no more than which names there are.

A description uses the declarations that the expression keeps. Only constant parts are evaluated for
it, so it is the same text whatever the host.

## Main definitions

* `Contents.observed`: what evaluation can see of the contents of a property.
* `Head.Agrees`: two hosts answer alike at a node.
* `Host.SameButValues`: two hosts that differ in values and in the calls received only.

## Main results

* `Expr.isConstant_iff`, `Expr.readsHost_iff`: the flags look at every node.
* `Expr.value_congr`, `Expr.test_congr`: evaluation in hosts that agree.
* `Expr.describe_congr`: a description does not depend on the host.
* `Expr.independent_of_host`: what the flags promise.
-/

namespace SignalRules

/-! ### Hosts that agree -/

/-- What evaluation can see of the contents of a property: them as one value, and the elements. -/
def Contents.observed (c : Contents) : Value × List Value := (c.single, c.elements)

/-- Two hosts answer alike at a node. -/
def Head.Agrees (h h' : Host) : Head → Prop
  | signal s => h.readSignal s.name = h'.readSignal s.name
  | property _ p =>
    (h.readProperty p.reference).map Contents.observed =
      (h'.readProperty p.reference).map Contents.observed
  | presence .signal names => names.all h.hasSignal = names.all h'.hasSignal
  | presence .action names => names.all h.hasAction = names.all h'.hasAction
  | _ => True

theorem Head.agrees_refl (h : Host) (head : Head) : head.Agrees h h := by
  cases head with
  | presence kind => cases kind <;> rfl
  | signal | property => rfl
  | _ => trivial

theorem Head.agrees_of_isPure (h h' : Host) {head : Head} (hpure : head.isPure) :
    head.Agrees h h' := by
  cases head with
  | symbol | signal | action | property | presence => cases hpure
  | _ => trivial

namespace Host

/-- Two hosts that differ in the values of signals and properties and in the calls received only. -/
structure SameButValues (h h' : Host) : Prop where
  signals : ∀ name, (h.signals.get? name).map Prod.fst = (h'.signals.get? name).map Prod.fst
  actions : ∀ name, h.actions.get? name = h'.actions.get? name
  properties : ∀ reference,
    (h.properties.get? reference).map Prod.fst = (h'.properties.get? reference).map Prod.fst
  unavailable : ∀ name, name ∈ h.unavailable ↔ name ∈ h'.unavailable

namespace SameButValues

variable {h h' : Host}

theorem contains_unavailable (hsame : h.SameButValues h') (name : String) :
    h.unavailable.contains name = h'.unavailable.contains name := by
  rw [Bool.eq_iff_iff, List.contains_iff_mem, List.contains_iff_mem, hsame.unavailable]

theorem hasSignal (hsame : h.SameButValues h') (name : String) :
    h.hasSignal name = h'.hasSignal name := by
  have hcontains : h.signals.contains name = h'.signals.contains name := by
    simpa [NameMap.contains] using congrArg Option.isSome (hsame.signals name)
  rw [Host.hasSignal, Host.hasSignal, hcontains, hsame.contains_unavailable]

theorem hasAction (hsame : h.SameButValues h') (name : String) :
    h.hasAction name = h'.hasAction name := by
  rw [Host.hasAction, Host.hasAction, NameMap.contains, NameMap.contains, hsame.actions,
    hsame.contains_unavailable]

/-- A new value of a signal is such a difference. -/
theorem setSignal {name : String} {v : Value} (hset : h.setSignal name v = .ok h') :
    h.SameButValues h' := by
  unfold Host.setSignal at hset
  split at hset
  · cases hset
  · next hget =>
    cases hset
    refine ⟨fun query => ?_, fun _ => rfl, fun _ => rfl, fun _ => Iff.rfl⟩
    by_cases hquery : query = name
    · simp [NameMap.get?_insert, hquery, hget]
    · simp [NameMap.get?_insert, hquery]

end SameButValues

end Host

theorem Head.agrees_of_sameButValues {h h' : Host} (hsame : h.SameButValues h') {head : Head}
    (hreads : head.readsHost = false) : head.Agrees h h' := by
  cases head with
  | signal | property => cases hreads
  | presence kind names =>
    cases kind with
    | signal => exact List.all_congr rfl hsame.hasSignal
    | action => exact List.all_congr rfl hsame.hasAction
  | _ => trivial

namespace Expr

variable {h h' : Host} {es es' : List Expr} {e : Expr}

/-! ### Evaluation in hosts that agree -/

section Operands

variable (hes : List.Forall₂ (fun e e' => value h e = value h' e') es es')

include hes

theorem numbers_congr : numbers h es = numbers h' es' := by
  induction hes with
  | nil => rfl
  | cons hfirst _ ih => rw [numbers, numbers, hfirst, ih]

theorem texts_congr : texts h es = texts h' es' := by
  induction hes with
  | nil => rfl
  | cons hfirst _ ih => rw [texts, texts, hfirst, ih]

theorem firstUnits_congr : firstUnits h es = firstUnits h' es' := by
  cases hes with
  | nil => rfl
  | cons hfirst _ => rw [firstUnits, firstUnits, hfirst]

end Operands

theorem testUntil_congr (stop : Bool) (hes : ∀ e ∈ es, test h e = test h' e) :
    testUntil h stop es = testUntil h' stop es := by
  induction es with
  | nil => rfl
  | cons e es ih =>
    rw [List.forall_mem_cons] at hes
    rw [testUntil, testUntil, hes.1, ih hes.2]

/-- A computation that looks at a part of an earlier result only does not see the rest of it. -/
theorem bind_congr_of_map {α β γ : Type} {x y : Except Fault α} {f : α → γ}
    (hmap : x.map f = y.map f) {next next' : α → Except Fault β}
    (hnext : ∀ a b, f a = f b → next a = next' b) : x >>= next = y >>= next' := by
  cases x with
  | error fault =>
    cases y with
    | error fault' => exact congrArg Except.error (Except.error.inj hmap)
    | ok b => cases hmap
  | ok a =>
    cases y with
    | error fault' => cases hmap
    | ok b => exact hnext a b (Except.ok.inj hmap)

/-- The value of a node depends on its operands through their values only, and on the host through
its answer at the node. -/
theorem value_node_congr {head : Head} (hhead : head.Agrees h h')
    (hes : List.Forall₂ (fun e e' => value h e = value h' e') es es') (span span' : Span) :
    value h (node span head es) = value h' (node span' head es') := by
  cases head with
  | signal s =>
    have hread : h.readSignal s.name = h'.readSignal s.name := hhead
    rw [value, value, Host.signalValue, Host.signalValue, hread]
  | arithmetic op => rw [value, value, numbers_congr hes]
  | concat => rw [value, value, texts_congr hes]
  | property mode p =>
    have hread : (h.readProperty p.reference).map Contents.observed =
      (h'.readProperty p.reference).map Contents.observed := hhead
    rw [value, value]
    refine bind_congr_of_map hread fun c d hobserved => ?_
    obtain ⟨hsingle, helements⟩ := Prod.mk.inj hobserved
    cases mode with
    | value => exact congrArg (Value.coerce · _) hsingle
    | length => rw [helements]
    | element => rw [firstUnits_congr hes, helements]
  | _ => rfl

/-- Hosts that answer alike at every node give an expression the same value. -/
theorem value_congr (hagree : e.Everywhere fun head _ => head.Agrees h h') :
    value h e = value h' e := by
  induction e using node_induction with
  | step span head operands ih =>
    exact value_node_congr hagree.head
      (List.forall₂_same.2 fun e he => ih e he (hagree.operands e he)) span span

/-- Hosts that answer alike at every node agree whether an expression holds. -/
theorem test_congr (hagree : e.Everywhere fun head _ => head.Agrees h h') :
    test h e = test h' e := by
  induction e using node_induction with
  | step span head operands ih =>
    have htests : ∀ e ∈ operands, test h e = test h' e := fun e he =>
      ih e he (hagree.operands e he)
    have hvalues : ∀ e ∈ operands, value h e = value h' e := fun e he =>
      value_congr (hagree.operands e he)
    cases head with
    | comparison op =>
      rcases operands with _ | ⟨a, _ | ⟨b, _ | ⟨c, rest⟩⟩⟩
      · rfl
      · rfl
      · rw [test, test, hvalues a (by simp), hvalues b (by simp)]
      · rfl
    | connective op =>
      cases op with
      | and => rw [test, test, testAll_eq_testUntil, testAll_eq_testUntil, testUntil_congr _ htests]
      | or => rw [test, test, testAny_eq_testUntil, testAny_eq_testUntil, testUntil_congr _ htests]
      | not =>
        rcases operands with _ | ⟨a, _ | ⟨b, rest⟩⟩
        · rfl
        · rw [test, test, htests a (by simp)]
        · rfl
    | presence kind names =>
      cases kind with
      | signal =>
        have hall : names.all h.hasSignal = names.all h'.hasSignal := hagree.head
        rw [test, test, hall]
      | action =>
        have hall : names.all h.hasAction = names.all h'.hasAction := hagree.head
        rw [test, test, hall]
    | _ => rfl

/-! ### The flags -/

/-- A condition on heads holds everywhere if it holds at every node. -/
theorem everywhere_iff_contains {P : Head → Prop} :
    e.Everywhere (fun head _ => P head) ↔ ∀ n, e.Contains n → P n.head := by
  constructor
  · intro hall n hn
    exact (hall.contains hn).head
  · induction e using node_induction with
    | step span head operands ih =>
      intro hall
      refine .node (hall _ (.root _)) fun e he => ih e he fun n hn => hall n (.operand he hn)

theorem allConstant_eq_all (es : List Expr) : allConstant es = es.all isConstant := by
  induction es with
  | nil => rfl
  | cons e es ih => rw [allConstant, ih, List.all_cons]

theorem anyReadsHost_eq_any (es : List Expr) : anyReadsHost es = es.any readsHost := by
  induction es with
  | nil => rfl
  | cons e es ih => rw [anyReadsHost, ih, List.any_cons]

theorem isConstant_iff_everywhere : e.isConstant ↔ e.Everywhere fun head _ => head.isPure := by
  induction e using node_induction with
  | step span head operands ih =>
    rw [isConstant, allConstant_eq_all, Bool.and_eq_true, List.all_eq_true]
    constructor
    · rintro ⟨hpure, hall⟩
      exact .node hpure fun e he => (ih e he).1 (hall e he)
    · intro hall
      exact ⟨hall.head, fun e he => (ih e he).2 (hall.operands e he)⟩

theorem readsHost_eq_false_iff_everywhere :
    e.readsHost = false ↔ e.Everywhere fun head _ => head.readsHost = false := by
  induction e using node_induction with
  | step span head operands ih =>
    rw [readsHost, anyReadsHost_eq_any, Bool.or_eq_false_iff, List.any_eq_false]
    constructor
    · rintro ⟨hhead, hall⟩
      exact .node hhead fun e he => (ih e he).1 (Bool.eq_false_iff.2 (hall e he))
    · intro hall
      exact ⟨hall.head, fun e he => Bool.eq_false_iff.1 ((ih e he).2 (hall.operands e he))⟩

/-- An expression is constant if each of its nodes depends on nothing but its operands. -/
theorem isConstant_iff : e.isConstant ↔ ∀ n, e.Contains n → n.head.isPure :=
  isConstant_iff_everywhere.trans everywhere_iff_contains

/-- An expression reads the host if one of its nodes does. -/
theorem readsHost_iff : e.readsHost ↔ ∃ n, e.Contains n ∧ n.head.readsHost := by
  have hnone := readsHost_eq_false_iff_everywhere.trans (everywhere_iff_contains (e := e))
  rw [← not_iff_not, Bool.not_eq_true, hnone]
  simp only [not_exists, not_and, Bool.not_eq_true]

/-- Any two hosts answer alike at the nodes of a constant expression. -/
theorem agrees_of_isConstant (hconstant : e.isConstant) (h h' : Host) :
    e.Everywhere fun head _ => head.Agrees h h' :=
  (isConstant_iff_everywhere.1 hconstant).mono fun _ _ => Head.agrees_of_isPure h h'

/-- Hosts that differ in values only answer alike where no values are read. -/
theorem agrees_of_readsHost (hreads : e.readsHost = false) (hsame : h.SameButValues h') :
    e.Everywhere fun head _ => head.Agrees h h' :=
  (readsHost_eq_false_iff_everywhere.1 hreads).mono fun _ _ => Head.agrees_of_sameButValues hsame

/-! ### Descriptions -/

section Descriptions

variable {catalog : Catalog} (hes : ∀ e ∈ es, describe h catalog e = describe h' catalog e)

include hes

theorem describeAll_congr : describeAll h catalog es = describeAll h' catalog es := by
  induction es with
  | nil => rfl
  | cons e es ih =>
    rw [List.forall_mem_cons] at hes
    rw [describeAll, describeAll, hes.1, ih hes.2]

theorem describeConditions_congr (op : Connective) :
    describeConditions h catalog op es = describeConditions h' catalog op es := by
  induction es with
  | nil => rfl
  | cons e es ih =>
    rw [List.forall_mem_cons] at hes
    rw [describeConditions, describeConditions, hes.1, ih hes.2]

theorem describeOperands_congr (op : Operator) (isFirst : Bool) :
    describeOperands h catalog op isFirst es = describeOperands h' catalog op isFirst es := by
  induction es generalizing isFirst with
  | nil => rfl
  | cons e es ih =>
    rw [List.forall_mem_cons] at hes
    rw [describeOperands, describeOperands, hes.1, ih hes.2]

theorem describeNegated_congr : describeNegated h catalog es = describeNegated h' catalog es := by
  induction es with
  | nil => rfl
  | cons e es ih =>
    rw [List.forall_mem_cons] at hes
    rw [describeNegated, describeNegated, hes.1, ih hes.2]

end Descriptions

theorem isConstant_of_isFolded (hfolded : e.isFolded) : e.isConstant := by
  unfold isFolded at hfolded
  simp only [Bool.and_eq_true] at hfolded
  exact hfolded.1.2

theorem value_eq_of_isFolded (hfolded : e.isFolded) (h h' : Host) : value h e = value h' e :=
  value_congr (agrees_of_isConstant (isConstant_of_isFolded hfolded) h h')

/-- The description of an expression does not depend on the host. -/
theorem describe_congr (h h' : Host) (catalog : Catalog) (e : Expr) :
    describe h catalog e = describe h' catalog e := by
  induction e using node_induction with
  | step span head operands ih =>
    rw [describe.eq_def h, describe.eq_def h']
    dsimp only
    split
    · next hfolded => rw [value_eq_of_isFolded hfolded h h']
    · simp only [describeAll_congr ih, describeConditions_congr ih, describeOperands_congr ih,
        describeNegated_congr ih]

/-- An expression that is replaced by its value is described by that value in any host. -/
theorem describe_of_isFolded (hfolded : e.isFolded) (h h' : Host) (catalog : Catalog) :
    describe h catalog e = describeResult catalog (value h' e) := by
  rw [← value_eq_of_isFolded hfolded h h']
  cases e with
  | node span head operands =>
    rw [describe.eq_def]
    exact if_pos hfolded

/-! ### What the flags promise -/

/-- The flags of an expression look at all of its nodes. A constant expression is evaluated alike in
any two hosts, and an expression that reads neither signals nor properties in hosts that differ in
values only. Its description is the same in any two hosts, and a constant part is described by its
value. -/
theorem independent_of_host (e : Expr) (h h' : Host) (catalog : Catalog) :
    (e.isConstant ↔ ∀ n, e.Contains n → n.head.isPure) ∧
    (e.readsHost ↔ ∃ n, e.Contains n ∧ n.head.readsHost) ∧
    (e.isConstant → value h e = value h' e ∧ test h e = test h' e) ∧
    (e.readsHost = false → h.SameButValues h' → value h e = value h' e ∧ test h e = test h' e) ∧
    describe h catalog e = describe h' catalog e ∧
    (e.isFolded → describe h catalog e = describeResult catalog (value h' e)) := by
  have hcongr (hagree : e.Everywhere fun head _ => head.Agrees h h') :
      value h e = value h' e ∧ test h e = test h' e := ⟨value_congr hagree, test_congr hagree⟩
  exact ⟨isConstant_iff, readsHost_iff,
    fun hconstant => hcongr (agrees_of_isConstant hconstant h h'),
    fun hreads hsame => hcongr (agrees_of_readsHost hreads hsame),
    describe_congr h h' catalog e,
    fun hfolded => describe_of_isFolded hfolded h h' catalog⟩

/-- A sum of literals in hosts that have nothing in common, and a question for a name after the
value has changed. -/
theorem independent_of_host_door :
    value Host.empty (node ⟨0, 7⟩ (.arithmetic .add)
        [constant (.number 0) ⟨3, 4⟩, constant (.string "2") ⟨5, 6⟩]) =
      value doorHost (node ⟨0, 7⟩ (.arithmetic .add)
        [constant (.number 0) ⟨3, 4⟩, constant (.string "2") ⟨5, 6⟩]) ∧
    ∃ h', doorHost.setSignal "Door" (.string "shut") = .ok h' ∧
      test doorHost (node ⟨0, 14⟩ (.presence .signal ["Door"]) []) =
        test h' (node ⟨0, 14⟩ (.presence .signal ["Door"]) []) := by
  obtain ⟨h', hset⟩ : ∃ h', doorHost.setSignal "Door" (.string "shut") = .ok h' := ⟨_, rfl⟩
  have hsum := independent_of_host (node ⟨0, 7⟩ (.arithmetic .add)
    [constant (.number 0) ⟨3, 4⟩, constant (.string "2") ⟨5, 6⟩]) .empty doorHost Catalog.english
  have hquestion := independent_of_host (node ⟨0, 14⟩ (.presence .signal ["Door"]) []) doorHost h'
    Catalog.english
  exact ⟨(hsum.2.2.1 rfl).1, h', hset, (hquestion.2.2.2.1 rfl (.setSignal hset)).2⟩

end Expr

end SignalRules
