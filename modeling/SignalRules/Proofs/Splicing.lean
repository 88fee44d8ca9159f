import Mathlib.Algebra.Ring.Int.Defs
import Mathlib.Logic.Function.Iterate
import SignalRules.Expr.Eval
import SignalRules.Proofs.Built
import SignalRules.Proofs.Decimal

/-!
# Evaluation after splicing

A conjunction inside a conjunction, a disjunction inside a disjunction and a sum inside a sum are
spliced into the outer node when an expression is built. The operands that decide the answer are
the *leaves*: what is left once such nodes are taken apart at every depth. Splicing keeps the
leaves and their order.

A conjunction or a disjunction answers what the search through its leaves answers, faults
included, so splicing changes nothing. A sum is added up from the left and overflows as soon as a
partial sum leaves the range. Which partial sums there are depends on the nesting; so a nested and
a spliced sum agree, in their number or in their fault, unless one of them overflows.

## Main definitions

* `Expr.leaves`: the operands that decide the answer.
* `Expr.testUntil`: the search that both connectives are.
* `Expr.total`: the exact sum of several expressions.

## Main results

* `Expr.eval_splice`: what splicing can change.
-/

namespace SignalRules

namespace Expr

/-! ### Leaves -/

mutual

/-- What is left of an expression once nodes with a head of some kind are taken apart. -/
def leaves (same : Head → Bool) : Expr → List Expr
  | node span head operands =>
    if same head then leavesAll same operands else [node span head operands]

/-- What is left of several expressions, in order. -/
def leavesAll (same : Head → Bool) : List Expr → List Expr
  | [] => []
  | e :: es => leaves same e ++ leavesAll same es

end

section Leaves

variable {same : Head → Bool}

theorem leavesAll_eq_flatMap (es : List Expr) : leavesAll same es = es.flatMap (leaves same) := by
  induction es with
  | nil => rfl
  | cons e es ih => rw [leavesAll, ih, List.flatMap_cons]

/-- An operand that is spliced and one that is kept have the same leaves afterwards. -/
theorem leavesAll_splice (e : Expr) :
    leavesAll same (if same e.head then e.operands else [e]) = leaves same e := by
  obtain ⟨span, x, es⟩ := e
  rw [head, operands]
  split_ifs with hsame
  · rw [leaves, if_pos hsame]
  · rw [leavesAll, leavesAll, List.append_nil]

theorem leavesAll_flatten (es : List Expr) :
    leavesAll same (flatten same es) = leavesAll same es := by
  rw [leavesAll_eq_flatMap, leavesAll_eq_flatMap, flatten, List.flatMap_assoc]
  congr 1
  funext e
  rw [← leavesAll_eq_flatMap, leavesAll_splice]

/-- Splicing keeps the leaves, however often it is done. -/
theorem leavesAll_iterate_flatten (rounds : ℕ) (es : List Expr) :
    leavesAll same ((flatten same)^[rounds] es) = leavesAll same es := by
  induction rounds with
  | zero => rfl
  | succ rounds ih => rw [Function.iterate_succ_apply', leavesAll_flatten, ih]

end Leaves

/-! ### Conjunctions and disjunctions -/

section Search

variable (h : Host) (stop : Bool)

/-- Test one expression after the other until one answers `stop`. -/
def testUntil : List Expr → Except Fault Bool
  | [] => .ok !stop
  | e :: es => do
    let b ← test h e
    if b = stop then .ok stop else testUntil es

theorem testAll_eq_testUntil (es : List Expr) : testAll h es = testUntil h false es := by
  induction es with
  | nil => rfl
  | cons e es ih =>
    rw [testAll, testUntil, ih]
    congr 1
    funext b
    cases b <;> rfl

theorem testAny_eq_testUntil (es : List Expr) : testAny h es = testUntil h true es := by
  induction es with
  | nil => rfl
  | cons e es ih =>
    rw [testAny, testUntil, ih]
    rfl

theorem testUntil_append (es fs : List Expr) :
    testUntil h stop (es ++ fs) =
      testUntil h stop es >>= fun b => if b = stop then .ok stop else testUntil h stop fs := by
  induction es with
  | nil => simp [testUntil]
  | cons e es ih =>
    rw [List.cons_append, testUntil, testUntil, bind_assoc, ih]
    congr 1
    funext b
    split_ifs with hb
    · exact (if_pos rfl).symm
    · rfl

theorem testUntil_singleton (e : Expr) : testUntil h stop [e] = test h e := by
  rw [testUntil, testUntil]
  cases test h e with
  | error f => rfl
  | ok b => cases b <;> cases stop <;> rfl

variable {h stop} {same : Head → Bool}
  (hsame : ∀ span head es, same head → test h (node span head es) = testUntil h stop es)
include hsame

/-- If a node of some kind is a search through its operands, it is a search through its leaves. -/
theorem testUntil_leaves (e : Expr) : testUntil h stop (leaves same e) = test h e := by
  induction e using node_induction with
  | step span head operands ih =>
    rw [leaves]
    split_ifs with hhead
    · rw [hsame span head operands hhead]
      clear hhead
      induction operands with
      | nil => rfl
      | cons e es ihes =>
        rw [leavesAll, testUntil_append, ih e (by simp),
          ihes fun x hx => ih x (List.mem_cons_of_mem _ hx), testUntil]
    · exact testUntil_singleton h stop _

/-- Nodes of such a kind with the same leaves test alike. -/
theorem test_eq_of_leavesAll_eq {head : Head} (hhead : same head) {es fs : List Expr}
    (hleaves : leavesAll same es = leavesAll same fs) (s t : Span) :
    test h (node s head es) = test h (node t head fs) := by
  rw [← testUntil_leaves hsame, ← testUntil_leaves hsame, leaves, leaves, if_pos hhead,
    if_pos hhead, hleaves]

end Search

/-! ### Sums -/

end Expr

/-- A sum that fits at every step is the exact sum. -/
theorem Fixed.hundredths_of_foldlM_add? {ns : List Fixed} {start n : Fixed}
    (h : ns.foldlM add? start = some n) :
    n.hundredths = start.hundredths + (ns.map hundredths).sum := by
  induction ns generalizing start with
  | nil =>
    cases h
    simp
  | cons m ns ih =>
    rw [List.foldlM_cons] at h
    obtain ⟨next, hnext, hrest⟩ := Option.bind_eq_some_iff.1 h
    rw [ih hrest, ofInt?_eq_some_iff.1 hnext, List.map_cons, List.sum_cons, add_assoc]

theorem Fixed.hundredths_of_sum? {ns : List Fixed} {n : Fixed} (h : sum? ns = some n) :
    n.hundredths = (ns.map hundredths).sum := by
  have hzero : (0 : Fixed).hundredths = 0 := by decide
  rw [hundredths_of_foldlM_add? h, hzero, zero_add]

namespace Expr

section Sums

variable (h : Host)

/-- The sum of what several expressions denote, wherever it lies. -/
def total (es : List Expr) : Except Fault ℤ :=
  (numbers h es).map fun ns => (ns.map Fixed.hundredths).sum

theorem total_nil : total h [] = .ok 0 := rfl

theorem total_singleton (e : Expr) :
    total h [e] = (value h e >>= Value.toNumber).map Fixed.hundredths := by
  rw [total, numbers]
  cases value h e with
  | error f => rfl
  | ok v => cases hv : v.toNumber <;> simp [hv, numbers, Except.map, pure, Except.pure]

theorem total_cons (e : Expr) (es : List Expr) :
    total h (e :: es) = total h [e] >>= fun a => (total h es).map (a + ·) := by
  rw [total_singleton, total, numbers, ← bind_assoc, total]
  cases value h e >>= Value.toNumber with
  | error f => rfl
  | ok n => cases numbers h es <;> rfl

theorem total_append (es fs : List Expr) :
    total h (es ++ fs) = total h es >>= fun a => (total h fs).map (a + ·) := by
  induction es with
  | nil => cases hfs : total h fs <;> simp [total_nil, hfs, Except.map]
  | cons e es ih =>
    rw [List.cons_append, total_cons, ih, total_cons h e es]
    cases total h [e] with
    | error f => rfl
    | ok a =>
      cases total h es with
      | error f => rfl
      | ok b => cases total h fs <;> simp [Except.map, add_assoc]

/-- A sum fails with the fault of an operand, or overflows, or is the exact sum. -/
theorem value_add_cases (s : Span) (es : List Expr) :
    value h (node s (.arithmetic .add) es) = .error Fault.overflow ∨
    (∃ f, value h (node s (.arithmetic .add) es) = .error f ∧ total h es = .error f) ∨
    ∃ n : Fixed, value h (node s (.arithmetic .add) es) = .ok (.number n) ∧
      total h es = .ok n.hundredths := by
  rw [value, total]
  cases numbers h es with
  | error f => exact .inr (.inl ⟨f, rfl, rfl⟩)
  | ok ns =>
    rw [ok_bind, Arithmetic.apply]
    cases hsum : Fixed.sum? ns with
    | none => exact .inl rfl
    | some n => exact .inr (.inr ⟨n, rfl, congrArg Except.ok (Fixed.hundredths_of_sum? hsum).symm⟩)

/-- The exact sum of a nested sum is that of its operands, unless it overflows. -/
theorem total_add (s : Span) (es : List Expr) :
    total h [node s (.arithmetic .add) es] = .error Fault.overflow ∨
      total h [node s (.arithmetic .add) es] = total h es := by
  rw [total_singleton]
  rcases value_add_cases h s es with hv | ⟨f, hv, htotal⟩ | ⟨n, hv, htotal⟩
  · exact .inl (by rw [hv]; rfl)
  · exact .inr (by rw [hv, htotal]; rfl)
  · exact .inr (by rw [hv, htotal]; rfl)

/-- If the sums of single expressions are those of their leaves, unless they overflow, then so is
the sum of all of them. -/
theorem total_leavesAll_of_forall {same : Head → Bool} {es : List Expr}
    (hes : ∀ e ∈ es, total h [e] = .error Fault.overflow ∨
      total h [e] = total h (leaves same e)) :
    total h es = .error Fault.overflow ∨ total h es = total h (leavesAll same es) := by
  induction es with
  | nil => exact .inr rfl
  | cons e es ih =>
    rw [total_cons, leavesAll, total_append]
    rcases hes e (by simp) with hfirst | hfirst
    · exact .inl (by rw [hfirst, error_bind])
    rw [hfirst]
    cases total h (leaves same e) with
    | error f => exact .inr rfl
    | ok a =>
      rcases ih fun x hx => hes x (List.mem_cons_of_mem _ hx) with hrest | hrest
      · exact .inl (by rw [hrest]; rfl)
      · exact .inr (by rw [hrest])

/-- The exact sum is that of the leaves, unless a nested sum overflows. -/
theorem total_leaves (e : Expr) :
    total h [e] = .error Fault.overflow ∨
      total h [e] = total h (leaves (Head.isArithmetic .add) e) := by
  induction e using node_induction with
  | step span head es ih =>
    rw [leaves]
    split_ifs with hhead
    · obtain rfl := Head.isArithmetic_iff.1 hhead
      rcases total_add h span es with hover | heq
      · exact .inl hover
      · rw [heq]
        exact total_leavesAll_of_forall h ih
    · exact .inr rfl

/-- A sum overflows, or it gives the fault or the exact sum that its leaves give. -/
theorem value_add_leaves (s : Span) (es : List Expr) :
    value h (node s (.arithmetic .add) es) = .error Fault.overflow ∨
    (∃ f, value h (node s (.arithmetic .add) es) = .error f ∧
      total h (leavesAll (Head.isArithmetic .add) es) = .error f) ∨
    ∃ n : Fixed, value h (node s (.arithmetic .add) es) = .ok (.number n) ∧
      total h (leavesAll (Head.isArithmetic .add) es) = .ok n.hundredths := by
  rcases total_leavesAll_of_forall h fun e _ => total_leaves h e with hover | heq
  · rcases value_add_cases h s es with hv | ⟨f, hv, htotal⟩ | ⟨n, -, htotal⟩
    · exact .inl hv
    · cases hover.symm.trans htotal
      exact .inl hv
    · cases hover.symm.trans htotal
  · rw [← heq]
    exact value_add_cases h s es

/-- Sums with the same leaves agree, unless one of them overflows. -/
theorem value_add_eq_or_overflow {es fs : List Expr}
    (hleaves : leavesAll (Head.isArithmetic .add) es = leavesAll (Head.isArithmetic .add) fs)
    (s t : Span) :
    value h (node s (.arithmetic .add) es) = value h (node t (.arithmetic .add) fs) ∨
      value h (node s (.arithmetic .add) es) = .error Fault.overflow ∨
      value h (node t (.arithmetic .add) fs) = .error Fault.overflow := by
  have hfs := value_add_leaves h t fs
  rw [← hleaves] at hfs
  rcases value_add_leaves h s es with hv | ⟨f, hv, htotal⟩ | ⟨n, hv, htotal⟩
  · exact .inr (.inl hv)
  · rcases hfs with hw | ⟨f', hw, htotal'⟩ | ⟨n', hw, htotal'⟩
    · exact .inr (.inr hw)
    · cases htotal.symm.trans htotal'
      exact .inl (hv.trans hw.symm)
    · cases htotal.symm.trans htotal'
  · rcases hfs with hw | ⟨f', hw, htotal'⟩ | ⟨n', hw, htotal'⟩
    · exact .inr (.inr hw)
    · cases htotal.symm.trans htotal'
    · have hcount : n.hundredths = n'.hundredths := Except.ok.inj (htotal.symm.trans htotal')
      exact .inl (by rw [hv, hw, Fixed.eq_of_hundredths hcount])

end Sums

/-- Splicing operands that use the operator themselves, once or again and again, changes nothing
about a conjunction or a disjunction: it holds, fails to hold or ends in a fault as before. A sum
gives the number or the fault that it gave before, unless it overflows before or after. -/
theorem eval_splice (h : Host) (operands : List Expr) (rounds : ℕ) (s t : Span) :
    (node s (.connective .and) ((flatten (Head.isConnective .and))^[rounds] operands)).test h =
      (node t (.connective .and) operands).test h ∧
    (node s (.connective .or) ((flatten (Head.isConnective .or))^[rounds] operands)).test h =
      (node t (.connective .or) operands).test h ∧
    ((node s (.arithmetic .add) ((flatten (Head.isArithmetic .add))^[rounds] operands)).value h =
        (node t (.arithmetic .add) operands).value h ∨
      (node s (.arithmetic .add) ((flatten (Head.isArithmetic .add))^[rounds] operands)).value h =
        .error Fault.overflow ∨
      (node t (.arithmetic .add) operands).value h = .error Fault.overflow) := by
  have hand (span : Span) (head : Head) (es : List Expr) (hhead : head.isConnective .and) :
      test h (node span head es) = testUntil h false es := by
    rw [Head.isConnective_iff.1 hhead, test, testAll_eq_testUntil]
  have hor (span : Span) (head : Head) (es : List Expr) (hhead : head.isConnective .or) :
      test h (node span head es) = testUntil h true es := by
    rw [Head.isConnective_iff.1 hhead, test, testAny_eq_testUntil]
  exact ⟨test_eq_of_leavesAll_eq hand (Head.isConnective_iff.2 rfl)
      (leavesAll_iterate_flatten rounds operands) s t,
    test_eq_of_leavesAll_eq hor (Head.isConnective_iff.2 rfl)
      (leavesAll_iterate_flatten rounds operands) s t,
    value_add_eq_or_overflow h (leavesAll_iterate_flatten rounds operands) s t⟩

/-- The greatest number and a hundredth overflow together, unless a hundredth is taken off first. -/
example (h : Host) :
    let literal (n : ℤ) : Expr := constant (.number (Fixed.clamp n)) default
    let sum (es : List Expr) : Expr := node default (.arithmetic .add) es
    (sum [literal (-1), sum [literal greatestCount, literal 1]]).value h =
        .error Fault.overflow ∧
      (sum [literal (-1), literal greatestCount, literal 1]).value h =
        .ok (.number (Fixed.clamp greatestCount)) := by
  cbv

end Expr

end SignalRules
