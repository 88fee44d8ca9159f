import SignalRules.Proofs.HostDependence
import SignalRules.Proofs.RoundTrip
import SignalRules.Proofs.TypeSoundness

/-!
# Descriptions of formulas

A formula is built from numbers, number signals that are shown by their own names, and the
operations that are written between or in front of their operands. Its description is not for people
alone: it is the algebraic text of the formula with every constant part replaced by its value. So it
is read as that formula again, which has the same value in every host.

A constant part that is replaced becomes a single word, which needs no parentheses. It never stands
right behind a minus sign, where a number would need them: the negation of a constant part is
constant itself.

## Main definitions

* `Expr.IsFormula`: built from numbers, signals and operations as above.
* `Expr.Calculable`: constant parts have values, and all of them can be written.
* `Expr.collapse`: constant parts replaced by their values.

## Main results

* `Expr.toList_describe`: the description of a formula is the text of the collapsed formula.
* `Expr.everywhere_sound_collapse`: a collapsed formula passes the checks.
* `Expr.value_collapse`: it has the value that the formula has.
* `Context.parse_describe`: what the description of a formula is read as.
-/

namespace SignalRules

/-- The nodes of formulas. -/
inductive Head.InFormula : Head → Prop
  | number (n : Fixed) : InFormula (.constant (.number n))
  | signal {s : Signal} (htype : s.type = .number) (hdisplay : s.display = s.name)
      (hname : Grammar.algebraic.IsName s.name) : InFormula (.signal s)
  | arithmetic {op : Arithmetic} (hop : op ∈ [.add, .sub, .mul, .div, .mod, .neg]) :
      InFormula (.arithmetic op)

theorem Head.InFormula.type_eq {head : Head} (h : head.InFormula) : head.type = .value .number := by
  cases h with
  | number n => rfl
  | signal htype => rw [type, htype]
  | arithmetic hop => rfl

namespace Expr

/-- An expression whose nodes are those of formulas. -/
def IsFormula (e : Expr) : Prop := e.Everywhere fun head _ => head.InFormula

/-- Every constant part has a number as its value, and one that can be written: the least number
cannot, since its text would be read as the negation of a number that is too large. -/
def Calculable (h : Host) (e : Expr) : Prop :=
  ∀ x, e.Contains x → x.isConstant →
    ∃ n : Fixed, value h x = .ok (.number n) ∧ n.hundredths ≠ leastCount

mutual

/-- The expression with every constant part that has a value replaced by it. -/
def collapse (h : Host) : Expr → Expr
  | node span head operands =>
    if isConstant (node span head operands) then
      match value h (node span head operands) with
      | .ok v => constant v span
      | .error _ => node span head operands
    else node span head (collapseAll h operands)

/-- Several expressions with every constant part that has a value replaced by it. -/
def collapseAll (h : Host) : List Expr → List Expr
  | [] => []
  | e :: es => collapse h e :: collapseAll h es

end

variable {h : Host} {e : Expr} {es : List Expr}

theorem collapseAll_eq_map (es : List Expr) : collapseAll h es = es.map (collapse h) := by
  induction es with
  | nil => rfl
  | cons e es ih => rw [collapseAll, ih, List.map_cons]

theorem collapse_of_isConstant {v : Value} (hconstant : e.isConstant) (hvalue : value h e = .ok v) :
    collapse h e = constant v e.span := by
  obtain ⟨span, head, es⟩ := e
  rw [collapse, if_pos hconstant, hvalue]
  rfl

theorem collapse_node {span : Span} {head : Head}
    (hconstant : (node span head es).isConstant = false) :
    collapse h (node span head es) = node span head (es.map (collapse h)) := by
  rw [collapse, if_neg (Bool.eq_false_iff.1 hconstant), collapseAll_eq_map]

theorem calculable_iff : e.Calculable h ↔
    (e.isConstant → ∃ n : Fixed, value h e = .ok (.number n) ∧ n.hundredths ≠ leastCount) ∧
      ∀ x ∈ e.operands, x.Calculable h := by
  constructor
  · exact fun hcalc => ⟨hcalc e (.root e), fun _ hx y hy => hcalc y (.operand hx hy)⟩
  · rintro ⟨hroot, hoperands⟩ x (_ | ⟨hc, hx⟩)
    · exact hroot
    · exact hoperands _ hc x hx

theorem Calculable.operands (hcalc : e.Calculable h) : ∀ x ∈ e.operands, x.Calculable h :=
  (calculable_iff.1 hcalc).2

/-- A node that is not constant keeps its head. -/
theorem head_collapse (hconstant : e.isConstant = false) : (collapse h e).head = e.head := by
  obtain ⟨span, head, es⟩ := e
  rw [collapse_node hconstant]
  rfl

/-- A node keeps its head unless it is constant, and then it becomes a number. -/
theorem Calculable.head_collapse (hcalc : e.Calculable h) :
    (e.isConstant = false ∧ (collapse h e).head = e.head) ∨
      (e.isConstant = true ∧
        ∃ n : Fixed, n.hundredths ≠ leastCount ∧ (collapse h e).head = .constant (.number n)) := by
  cases hconstant : e.isConstant with
  | false => exact .inl ⟨rfl, Expr.head_collapse hconstant⟩
  | true =>
    obtain ⟨n, hvalue, hleast⟩ := hcalc e (.root e) hconstant
    exact .inr ⟨rfl, n, hleast, by rw [collapse_of_isConstant hconstant hvalue]; rfl⟩

/-- What holds between constant parts and their values, and of every other node if it holds of its
operands, holds between an expression and the collapsed one. -/
theorem Calculable.collapse_induction {P : Expr → Expr → Prop} (hcalc : e.Calculable h)
    (replaced : ∀ e n, e.isConstant → value h e = .ok (.number n) →
      P e (constant (.number n) e.span))
    (kept : ∀ span head es, (node span head es).isConstant = false →
      (∀ e ∈ es, e.Calculable h) → (∀ e ∈ es, P e (collapse h e)) →
      P (node span head es) (node span head (es.map (collapse h)))) :
    P e (collapse h e) := by
  induction e using node_induction with
  | step span head es ih =>
    cases hconstant : (node span head es).isConstant with
    | true =>
      obtain ⟨n, hvalue, -⟩ := hcalc _ (.root _) hconstant
      rw [collapse_of_isConstant hconstant hvalue]
      exact replaced _ n hconstant hvalue
    | false =>
      rw [collapse_node hconstant]
      exact kept span head es hconstant hcalc.operands fun e he => ih e he (hcalc.operands e he)

/-! ### The text of a description -/

theorem isFolded_eq (hformula : e.head.InFormula) :
    e.isFolded = (!e.head.isLiteral && e.isConstant) := by
  rw [isFolded, type, hformula.type_eq, Bool.and_true]

theorem isFolded_eq_false (hconstant : e.isConstant = false) : e.isFolded = false := by
  rw [isFolded, hconstant, Bool.and_false, Bool.false_and]

/-- A constant part is described by its value. -/
theorem describe_of_isConstant (hformula : e.head.InFormula) (hconstant : e.isConstant) {v : Value}
    (hvalue : value h e = .ok v) (catalog : Catalog) :
    describe h catalog e = v.describe catalog := by
  have hfolded := isFolded_eq hformula
  rw [hconstant, Bool.and_true] at hfolded
  obtain ⟨span, head, es⟩ := e
  rw [describe.eq_def]
  cases hformula with
  | number n =>
    obtain rfl : Value.number n = v := Except.ok.inj hvalue
    exact if_neg (Bool.eq_false_iff.1 hfolded)
  | signal => cases hconstant
  | arithmetic hop =>
    refine (if_pos hfolded).trans ?_
    rw [hvalue]
    rfl

/-- An operation on parts that are not all constant is described by its operands. -/
theorem describe_arithmetic {op : Arithmetic} (hop : (Operator.arithmetic op).isBinary)
    {span : Span} (hconstant : (node span (.arithmetic op) es).isConstant = false)
    (catalog : Catalog) :
    describe h catalog (node span (.arithmetic op) es) =
      Text.join (" " ++ (Operator.arithmetic op).infixed ++ " ")
        (describeOperands h catalog (.arithmetic op) true es) := by
  have hnot := Bool.eq_false_iff.1 (isFolded_eq_false hconstant)
  rw [describe.eq_def]
  cases op with
  | min | max | round | neg => cases hop
  | _ => exact if_neg hnot

theorem algebraic_arithmetic {op : Arithmetic} (hop : (Operator.arithmetic op).isBinary)
    (span : Span) (es : List Expr) :
    algebraic (node span (.arithmetic op) es) = algebraicChain (.arithmetic op) true es := by
  cases op with
  | min | max | round | neg => cases hop
  | _ => simp only [algebraic]

theorem toList_parenthesized {text : String} {ps : List Piece} (htext : text.toList = Piece.text ps)
    (wanted : Bool) : (parenthesized wanted text).toList = Piece.text (Piece.group wanted ps) := by
  cases wanted with
  | false => exact htext
  | true => simp [parenthesized, Piece.group, Piece.chars, htext]

theorem toList_join (separator text : String) (texts : List String) :
    (Text.join separator (text :: texts)).toList =
      text.toList ++ texts.flatMap fun t => separator.toList ++ t.toList := by
  induction texts generalizing text with
  | nil => simp [Text.join]
  | cons next texts ih => simp [Text.join, ih]

/-- An operand is grouped as it is in the text of the collapsed formula. -/
theorem groupsOperand_collapse {op : Operator} (hop : op.isBinary) (hformula : e.head.InFormula)
    (hcalc : e.Calculable h) (isFirst : Bool) :
    (op.groupsOperand isFirst e.head && !e.isFolded) =
      op.groupsOperand isFirst (collapse h e).head := by
  rcases hcalc.head_collapse with ⟨hconstant, hhead⟩ | ⟨hconstant, n, -, hhead⟩
  · rw [hhead, isFolded_eq_false hconstant, Bool.not_false, Bool.and_true]
  · have hatom (v : Value) : op.groupsOperand isFirst (.constant v) = false := by
      have hlt := atomPrecedence_gt hop
      have hprecedence : (Head.constant v).precedence = Operator.atomPrecedence := rfl
      simp [Operator.groupsOperand, hprecedence]
      omega
    rw [hhead, hatom, isFolded_eq hformula, hconstant, Bool.and_true]
    -- A literal is an atom already, and any other constant part is replaced by one.
    cases e.head with
    | constant v => rw [hatom, Bool.false_and]
    | _ => exact Bool.and_false _

section Operands

variable {catalog : Catalog}
    (hes : ∀ e ∈ es, (describe h catalog e).toList = Piece.text (collapse h e).algebraic)
    (hformula : ∀ e ∈ es, e.head.InFormula) (hcalc : ∀ e ∈ es, e.Calculable h)

include hes hformula hcalc

/-- The operands behind the first, each with the operator in front of it. -/
theorem flatMap_describeOperands {op : Operator} (hop : op.isBinary) :
    ((describeOperands h catalog op false es).flatMap fun t =>
        (" " ++ op.infixed ++ " ").toList ++ t.toList) =
      Piece.text (algebraicChain op false (es.map (collapse h))) := by
  induction es with
  | nil => rfl
  | cons e es ih =>
    rw [List.forall_mem_cons] at hes hformula hcalc
    have hoperand := toList_parenthesized hes.1 (op.groupsOperand false (collapse h e).head)
    rw [describeOperands, List.flatMap_cons, ih hes.2 hformula.2 hcalc.2,
      groupsOperand_collapse hop hformula.1 hcalc.1, hoperand]
    simp [algebraicChain, Piece.chars]

/-- The operands of a binary operation, with the operator between them. -/
theorem toList_join_describeOperands {op : Operator} (hop : op.isBinary) :
    (Text.join (" " ++ op.infixed ++ " ") (describeOperands h catalog op true es)).toList =
      Piece.text (algebraicChain op true (es.map (collapse h))) := by
  cases es with
  | nil => rfl
  | cons e es =>
    rw [List.forall_mem_cons] at hes hformula hcalc
    have hoperand := toList_parenthesized hes.1 (op.groupsOperand true (collapse h e).head)
    have hrest := flatMap_describeOperands hes.2 hformula.2 hcalc.2 hop
    rw [describeOperands, toList_join, hrest, groupsOperand_collapse hop hformula.1 hcalc.1,
      hoperand]
    simp [algebraicChain]

end Operands

/-- What is not constant is no number literal. -/
theorem isNumber_eq_false {ctx : Context} (hsound : e.Everywhere (Sound ctx))
    (hconstant : e.isConstant = false) : e.head.isNumber = false := by
  cases hhead : e.head with
  | constant v =>
    rw [eq_literal hsound hhead] at hconstant
    cases hconstant
  | _ => rfl

/-- A minus sign stands in front of what is not constant, which is grouped as it is in the text of
the collapsed formula. -/
theorem toList_describe_neg {ctx : Context} {span : Span} {catalog : Catalog}
    (hsound : (node span (.arithmetic .neg) es).Everywhere (Sound ctx))
    (hconstant : (node span (.arithmetic .neg) es).isConstant = false)
    (hes : ∀ e ∈ es, (describe h catalog e).toList = Piece.text (collapse h e).algebraic) :
    (describe h catalog (node span (.arithmetic .neg) es)).toList =
      Piece.text (algebraic (node span (.arithmetic .neg) (es.map (collapse h)))) := by
  have hnot := Bool.eq_false_iff.1 (isFolded_eq_false hconstant)
  obtain ⟨e, rfl⟩ : ∃ e, es = [e] := by
    cases hsound.head with
    | arithmetic hcount =>
      rw [List.length_map] at hcount
      exact List.length_eq_one_iff.1 (Arity.accepts_exactly.1 hcount)
  -- The one operand is not constant either, so it is neither replaced nor a number.
  have hoperand : e.isConstant = false := by
    simpa [isConstant, allConstant, Head.isPure] using hconstant
  have hnumber := isNumber_eq_false (hsound.operands e (by simp [operands])) hoperand
  have htext := toList_parenthesized (hes e (by simp))
    ((Operator.arithmetic .neg).groupsUnary e.head)
  have hdescribe : describe h catalog (node span (.arithmetic .neg) [e]) =
      "-" ++ Text.join ", " (describeNegated h catalog [e]) := by
    rw [describe.eq_def]
    exact if_neg hnot
  rw [hdescribe]
  simp [describeNegated, Text.join, algebraic, algebraicUnary, head_collapse hoperand, hnumber,
    htext, Piece.chars, isFolded_eq_false hoperand]

/-- The description of a formula is the text of the collapsed formula. -/
theorem toList_describe {ctx : Context} (hsound : e.Everywhere (Sound ctx)) (hformula : e.IsFormula)
    (hcalc : e.Calculable h) (catalog : Catalog) :
    (describe h catalog e).toList = Piece.text (collapse h e).algebraic := by
  revert hsound hformula
  refine hcalc.collapse_induction (P := fun e e' => e.Everywhere (Sound ctx) → e.IsFormula →
    (describe h catalog e).toList = Piece.text e'.algebraic) ?_ ?_
  · intro e n hconstant hvalue _ hformula
    rw [describe_of_isConstant hformula.head hconstant hvalue]
    simp [Value.describe, constant, algebraic, Value.pieces, Piece.chars]
  · intro span head es hconstant hcalc ih hsound hformula
    have hes : ∀ e ∈ es, (describe h catalog e).toList = Piece.text (collapse h e).algebraic :=
      fun e he => ih e he (hsound.operands e he) (hformula.operands e he)
    have hhead : head.InFormula := hformula.head
    cases hhead with
    | number n =>
      obtain rfl := hsound.head.eq_nil rfl
      cases hconstant
    | signal htype hdisplay hname =>
      rw [describe, if_neg (Bool.eq_false_iff.1 (isFolded_eq_false hconstant)), hdisplay]
      simp [algebraic, Piece.chars]
    | @arithmetic op hop =>
      by_cases hneg : op = .neg
      · subst hneg
        exact toList_describe_neg hsound hconstant hes
      · have hbinary : (Operator.arithmetic op).isBinary := by
          cases op with
          | neg => exact absurd rfl hneg
          | min | max | round => simp at hop
          | _ => rfl
        rw [describe_arithmetic hbinary hconstant, algebraic_arithmetic hbinary]
        exact toList_join_describeOperands hes (fun e he => (hformula.operands e he).head) hcalc
          hbinary

/-! ### Checks and values -/

theorem IsFormula.collapse (hformula : e.IsFormula) (hcalc : e.Calculable h) :
    (collapse h e).IsFormula := by
  revert hformula
  refine hcalc.collapse_induction (P := fun e e' => e.IsFormula → e'.IsFormula) ?_ ?_
  · intro e n _ _ _
    exact .node (.number n) (by simp)
  · intro span head es _ _ ih hformula
    exact .node hformula.head
      (List.forall_mem_map.2 fun e he => ih e he (hformula.operands e he))

/-- A node of a formula passes the checks of the algebraic grammar, also if operands of it are
replaced by numbers. -/
theorem sound_of_inFormula {ctx : Context} (hkeyed : ctx.host.Keyed) {head : Head}
    {hs hs' : List Head} (hsound : Sound ctx head hs) (hformula : head.InFormula)
    (hlength : hs'.length = hs.length)
    (hkept : ∀ x ∈ hs', x ∈ hs ∨ ∃ n : Fixed, n.hundredths ≠ leastCount ∧ x = .constant (.number n))
    (strict : Bool) : Sound ⟨ctx.host, strict, .algebraic⟩ head hs' := by
  cases hsound with
  | literal v =>
    rw [List.length_eq_zero_iff.1 hlength]
    exact .literal v
  | @signal name s hname hs =>
    rw [List.length_eq_zero_iff.1 hlength]
    cases hformula with
    | signal htype hdisplay hname =>
      rw [hkeyed.name_signal hs] at hname
      exact .signal hname hs
  | arithmetic hcount htype hflat hread =>
    refine .arithmetic (by rwa [hlength]) (fun x hx => ?_) (fun hmerged x hx => ?_) fun x hx => ?_
    · rcases hkept x hx with hold | ⟨n, -, rfl⟩
      · exact htype x hold
      · rfl
    · rcases hkept x hx with hold | ⟨n, -, rfl⟩
      · exact hflat hmerged x hold
      · rfl
    · rcases hkept x hx with hold | ⟨n, hleast, rfl⟩
      · exact hread x hold
      · exact hleast
  | _ => cases hformula

/-- A collapsed formula passes the checks of the algebraic grammar. -/
theorem everywhere_sound_collapse {ctx : Context} (hkeyed : ctx.host.Keyed)
    (hsound : e.Everywhere (Sound ctx)) (hformula : e.IsFormula) (hcalc : e.Calculable h)
    (strict : Bool) : (collapse h e).Everywhere (Sound ⟨ctx.host, strict, .algebraic⟩) := by
  revert hsound hformula
  refine hcalc.collapse_induction (P := fun e e' => e.Everywhere (Sound ctx) → e.IsFormula →
    e'.Everywhere (Sound ⟨ctx.host, strict, .algebraic⟩)) ?_ ?_
  · intro e n _ _ _ _
    exact .node (.literal (.number n)) (by simp)
  · intro span head es _ hcalc ih hsound hformula
    refine .node
      (sound_of_inFormula hkeyed hsound.head hformula.head (by simp [operands]) ?_ strict)
      (List.forall_mem_map.2 fun e he => ih e he (hsound.operands e he) (hformula.operands e he))
    rw [List.map_map, List.forall_mem_map]
    intro e he
    rcases (hcalc e he).head_collapse with ⟨-, hsame⟩ | ⟨-, hnumber⟩
    · exact .inl (List.mem_map.2 ⟨e, he, hsame.symm⟩)
    · exact .inr hnumber

/-- A formula that passes the checks comes back as it was. -/
theorem IsFormula.reread_eq_erase {ctx : Context} (hformula : e.IsFormula)
    (hsound : e.Everywhere (Sound ctx)) (hread : e.head.Readable) :
    e.Everywhere (Rereads ctx.strict) ∧ e.reread = e.erase := by
  induction hsound with
  | @node span head es hhead hes ih =>
    have hne : ∀ c, head ≠ .comparison c := by
      rintro c rfl
      cases hformula.head
    have hreadable := hhead.readable_of_ne hne
    rw [List.forall_mem_map] at hreadable
    have hback (e : Expr) (he : e ∈ es) := ih e he (hformula.operands e he) (hreadable e he)
    have hrereads : Rereads ctx.strict head (es.map Expr.head) := by
      cases head with
      | constant v => exact rereads_constant.2 (Value.Readable.legible hread)
      | _ => exact rereads_of_not_beside (by simp) fun s v => not_beside_of_ne hne
    refine ⟨.node hrereads fun e he => (hback e he).1, ?_⟩
    have hsame : head.reread = head := Head.Readable.reread_eq hread
    have hoperands : es.map reread = es.map erase := List.map_congr_left fun e he => (hback e he).2
    rw [reread_node, erase_node, hoperands, Head.settle_of_ne hne, hsame]

/-- Operands can be replaced by others with the same values. -/
theorem value_node_map {f : Expr → Expr} (hf : ∀ e ∈ es, value h (f e) = value h e)
    (span span' : Span) (head : Head) :
    value h (node span head (es.map f)) = value h (node span' head es) :=
  value_node_congr (head.agrees_refl h)
    (List.forall₂_map_left_iff.2 (List.forall₂_same.2 hf)) span span'

theorem value_erase (h : Host) (e : Expr) : value h e.erase = value h e := by
  induction e using node_induction with
  | step span head es ih =>
    rw [erase_node]
    exact value_node_map ih _ _ head

/-- A collapsed expression has the value that the expression has, in every host. -/
theorem value_collapse (hcalc : e.Calculable h) (h' : Host) :
    value h' (collapse h e) = value h' e := by
  refine hcalc.collapse_induction (P := fun e e' => value h' e' = value h' e) ?_ ?_
  · intro e n hconstant hvalue
    rw [value_congr (agrees_of_isConstant hconstant h' h), hvalue]
    rfl
  · intro span head es _ _ ih
    exact value_node_map ih _ _ head

end Expr

/-- The description of a formula that was read, whatever the catalog, is read in the algebraic
grammar as the formula with every constant part replaced by its value. In every host that has the
value that the formula has. -/
theorem Context.parse_describe {ctx : Context} (hreachable : ctx.host.Reachable)
    {source : List Char} {e : Expr} (hparse : ctx.parse source = .ok e) (hformula : e.IsFormula)
    {h : Host} (hcalc : e.Calculable h) (catalog : Catalog) (strict : Bool) :
    ∃ again, (⟨ctx.host, strict, .algebraic⟩ : Context).parse (e.describe h catalog).toList =
        .ok again ∧
      again.erase = (e.collapse h).erase ∧ ∀ h', again.value h' = e.value h' := by
  have hchecked := checked_of_parse hparse
  have hkeyed := hreachable.keyed
  have hsound := Expr.everywhere_sound_collapse hkeyed hchecked.sound hformula hcalc strict
  have hread : (e.collapse h).head.Readable := by
    rcases hcalc.head_collapse with ⟨-, hhead⟩ | ⟨-, n, hleast, hhead⟩
    · exact hhead ▸ hchecked.readable
    · exact hhead ▸ hleast
  obtain ⟨hrereads, hreread⟩ := (hformula.collapse hcalc).reread_eq_erase hsound hread
  have hwritten := @Expr.parse_write ⟨ctx.host, strict, .algebraic⟩ _ hkeyed hsound
  rw [Expr.toList_write, hreread] at hwritten
  obtain ⟨again, hagain, herase⟩ := unplaced_eq_ok_iff.1 ((hwritten _).2 ⟨hrereads, rfl⟩)
  refine ⟨again, ?_, herase, fun h' => ?_⟩
  · rw [Expr.toList_describe hchecked.sound hformula hcalc]
    exact hagain
  · rw [← Expr.value_erase, herase, Expr.value_erase, Expr.value_collapse hcalc]

/-- The difference of a signal and a difference, which has a constant part. -/
def liftFormula : Expr :=
  .node ⟨0, 41⟩ (.arithmetic .sub)
    [.node ⟨5, 15⟩ (.signal liftSignal) [],
      .node ⟨16, 40⟩ (.arithmetic .sub)
        [.node ⟨21, 31⟩ (.signal liftSignal) [],
          .node ⟨32, 39⟩ (.arithmetic .neg) [.constant (.number (.ofUnits 2)) ⟨37, 38⟩]]]

theorem isFormula_liftFormula : liftFormula.IsFormula := by
  have hlift (span : Span) : (Expr.node span (.signal liftSignal) []).IsFormula :=
    .node (.signal rfl rfl ⟨by decide, by decide⟩) (by simp)
  have htwo (span : Span) : (Expr.constant (.number (.ofUnits 2)) span).IsFormula :=
    .node (.number _) (by simp)
  have hneg (span span' : Span) : (Expr.node span (.arithmetic .neg)
      [.constant (.number (.ofUnits 2)) span']).IsFormula :=
    .node (.arithmetic (by decide)) (List.forall_mem_singleton.2 (htwo span'))
  have hsub (span : Span) {e f : Expr} (he : e.IsFormula) (hf : f.IsFormula) :
      (Expr.node span (.arithmetic .sub) [e, f]).IsFormula :=
    .node (.arithmetic (by decide)) (List.forall_mem_cons.2 ⟨he, List.forall_mem_singleton.2 hf⟩)
  exact hsub _ (hlift _) (hsub _ (hlift _) (hneg _ _))

theorem calculable_liftFormula : liftFormula.Calculable liftHost := by
  have hlift (span : Span) : (Expr.node span (.signal liftSignal) []).Calculable liftHost :=
    Expr.calculable_iff.2 ⟨fun h => (by cases h), by simp [Expr.operands]⟩
  have htwo (span : Span) : (Expr.constant (.number (.ofUnits 2)) span).Calculable liftHost :=
    Expr.calculable_iff.2 ⟨fun _ => ⟨_, rfl, by decide⟩, by simp [Expr.operands, Expr.constant]⟩
  have hneg : (Expr.node ⟨32, 39⟩ (.arithmetic .neg)
      [.constant (.number (.ofUnits 2)) ⟨37, 38⟩]).Calculable liftHost :=
    Expr.calculable_iff.2 ⟨fun _ => ⟨.ofUnits (-2), by cbv, by decide⟩,
      List.forall_mem_singleton.2 (htwo _)⟩
  refine Expr.calculable_iff.2 ⟨fun h => (by cases h), List.forall_mem_cons.2 ⟨hlift _, ?_⟩⟩
  refine List.forall_mem_singleton.2 (Expr.calculable_iff.2 ⟨fun h => (by cases h), ?_⟩)
  exact List.forall_mem_cons.2 ⟨hlift _, List.forall_mem_singleton.2 hneg⟩

/-- A constant part that becomes a negative number, in an operand that is grouped. -/
theorem Context.parse_describe_liftHost :
    Context.parse ⟨liftHost, true, .polish⟩ "(sub (sig Lift) (sub (sig Lift) (neg 2)))".toList =
      .ok liftFormula ∧
    liftFormula.describe liftHost .english = "Lift - (Lift - -2)" ∧
    ∃ again, Context.parse ⟨liftHost, false, .algebraic⟩ "Lift - (Lift - -2)".toList = .ok again ∧
      again.erase = (liftFormula.collapse liftHost).erase ∧
      ∀ h', again.value h' = liftFormula.value h' := by
  have hreachable : liftHost.Reachable := .addAction (.addSignal .empty _ _) _ _
  have hparse : Context.parse ⟨liftHost, true, .polish⟩
      "(sub (sig Lift) (sub (sig Lift) (neg 2)))".toList = .ok liftFormula := by
    cbv
  have hdescribe : liftFormula.describe liftHost .english = "Lift - (Lift - -2)" := by
    cbv
  have hagain := parse_describe hreachable hparse isFormula_liftFormula calculable_liftFormula
    .english false
  rw [hdescribe] at hagain
  exact ⟨hparse, hdescribe, hagain⟩

end SignalRules
