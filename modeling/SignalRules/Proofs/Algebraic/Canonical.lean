import SignalRules.Proofs.Algebraic.Written
import SignalRules.Proofs.Names
import SignalRules.Proofs.WellFormed

/-!
# The phrase of an expression

An expression is written in the algebraic grammar as a phrase with a group around every operand that
would otherwise be read differently. The canonical text is the written form of that phrase, the
phrase respects precedence, and so the canonical text spells it.

## Main definitions

* `Expr.phrase`: the phrase of an expression.

## Main results

* `Expr.pieces_phrase`: the canonical text is the written form of the phrase.
* `Expr.isPlaced`: the phrase respects precedence and binds as the expression does.
* `Expr.spells_algebraic`: the canonical text spells the phrase.
-/

namespace SignalRules

/-- The phrase of a literal. -/
def Value.phrase : Value → Phrase
  | unset => .text ""
  | string s => .text s
  | number n =>
    if n.hundredths < 0 then .negative (String.ofList n.magnitudeDigits)
    else .number (String.ofList n.magnitudeDigits)

/-- A phrase in parentheses, if asked for. -/
def Phrase.grouped (grouped : Bool) (p : Phrase) : Phrase := if grouped then .group p else p

namespace Operator

/-- The phrase of a binary operator between operands, each given with its head. -/
def chainPhrase (op : Operator) : List (Head × Phrase) → Phrase
  | [] => .text ""
  | p :: ps =>
    Phrase.chain (p.2.grouped (op.groupsOperand true p.1))
      (ps.map fun q => (op, q.2.grouped (op.groupsOperand false q.1)))

/-- The phrase of the operand of a unary operator. -/
def unaryPhrase (op : Operator) : List (Head × Phrase) → Phrase
  | [] => .text ""
  | p :: _ => p.2.grouped (op.groupsUnary p.1 || p.1.isNumber)

/-- The phrase of an operator with operands, each given with its head. -/
def phrase (op : Operator) (ps : List (Head × Phrase)) : Phrase :=
  match op.form with
  | .binary _ => op.chainPhrase ps
  | .unary _ =>
    if op = connective .not then .not (op.unaryPhrase ps) else .minus (op.unaryPhrase ps)
  | _ => .call op (ps.map Prod.snd)

end Operator

/-- The phrase of a node with operands, each given with its head. -/
def Head.phrase (ps : List (Head × Phrase)) : Head → Phrase
  | constant v => v.phrase
  | symbol name => .signal name
  | signal s => .signal s.name
  | action a once => .invoke (a.written once) (ps.map Prod.snd)
  | comparison op => (Operator.comparison op).phrase ps
  | connective op => (Operator.connective op).phrase ps
  | arithmetic op => (Operator.arithmetic op).phrase ps
  | concat => Operator.concat.phrase ps
  | property mode p => .call mode.operator (.text p.reference :: ps.map Prod.snd)
  | presence kind names => .presence kind names

namespace Expr

mutual

/-- The phrase of an expression. -/
def phrase : Expr → Phrase
  | node _ head es => head.phrase (phrases es)

/-- The heads and phrases of several expressions. -/
def phrases : List Expr → List (Head × Phrase)
  | [] => []
  | e :: es => (e.head, phrase e) :: phrases es

end

theorem phrases_eq_map (es : List Expr) : phrases es = es.map fun e => (e.head, e.phrase) := by
  induction es with
  | nil => rfl
  | cons e es ih => rw [phrases, ih, List.map_cons]

theorem phrase_node (span : Span) (head : Head) (es : List Expr) :
    (node span head es).phrase = head.phrase (es.map fun e => (e.head, e.phrase)) := by
  rw [phrase, phrases_eq_map]

end Expr

/-! ### Pieces -/

theorem Piece.listed_cons (ps : List Piece) (pss : List (List Piece)) :
    listed (ps :: pss) = ps ++ pss.flatMap fun qs => mark ',' :: blank :: qs := by
  induction pss generalizing ps with
  | nil => simp [listed]
  | cons qs pss ih => simp [listed, ih]

theorem Phrase.pieces_grouped (grouped : Bool) (p : Phrase) :
    (p.grouped grouped).pieces = Piece.group grouped p.pieces := by
  cases grouped <;> rfl

theorem Phrase.pieces_chain (p : Phrase) (ss : List (Operator × Phrase)) :
    (chain p ss).pieces = p.pieces ++ ss.flatMap fun s =>
      .blank :: .word s.1.infixed :: .blank :: s.2.pieces := by
  induction ss generalizing p with
  | nil => simp [chain]
  | cons s ss ih =>
    have hchain : chain p (s :: ss) = chain (binary s.1 p s.2) ss := rfl
    simp [hchain, ih, pieces]

theorem Value.pieces_phrase (v : Value) : v.phrase.pieces = v.pieces := by
  cases v with
  | unset | string => rfl
  | number n =>
    rw [phrase, pieces, Fixed.text, Fixed.digits_eq]
    split_ifs <;> simp [Phrase.pieces]

namespace Expr

theorem algebraicFurther_eq (es : List Expr) :
    algebraicFurther es = (es.map algebraic).flatMap fun ps => .mark ',' :: .blank :: ps := by
  induction es with
  | nil => rfl
  | cons e es ih => simp [algebraicFurther, ih]

theorem algebraicArguments_eq (es : List Expr) :
    algebraicArguments es = Piece.listed (es.map algebraic) := by
  cases es with
  | nil => rfl
  | cons e es => rw [algebraicArguments, algebraicFurther_eq, List.map_cons, Piece.listed_cons]

theorem algebraicChain_false (op : Operator) (es : List Expr) :
    algebraicChain op false es = es.flatMap fun e => .blank :: .word op.infixed :: .blank ::
      Piece.group (op.groupsOperand false e.head) e.algebraic := by
  induction es with
  | nil => rfl
  | cons e es ih => simp [algebraicChain, ih]

section Pieces

variable {op : Operator} {es : List Expr} (ih : ∀ e ∈ es, e.phrase.pieces = e.algebraic)

include ih

theorem pieces_chainPhrase (hne : es ≠ []) :
    (op.chainPhrase (es.map fun e => (e.head, e.phrase))).pieces = algebraicChain op true es := by
  obtain ⟨e, es, rfl⟩ := List.exists_cons_of_ne_nil hne
  have hsteps : ∀ x ∈ es, .blank :: .word op.infixed :: .blank ::
      (x.phrase.grouped (op.groupsOperand false x.head)).pieces = .blank :: .word op.infixed ::
        .blank :: Piece.group (op.groupsOperand false x.head) x.algebraic := by
    intro x hx
    rw [Phrase.pieces_grouped, ih x (List.mem_cons_of_mem _ hx)]
  rw [List.map_cons, Operator.chainPhrase, Phrase.pieces_chain, Phrase.pieces_grouped,
    ih e (by simp), algebraicChain, algebraicChain_false]
  simpa [List.flatMap_map] using List.flatMap_congr hsteps

theorem pieces_unaryPhrase (hlength : es.length = 1) :
    (op.unaryPhrase (es.map fun e => (e.head, e.phrase))).pieces = algebraicUnary op es := by
  obtain ⟨e, rfl⟩ := List.length_eq_one_iff.1 hlength
  simp [Operator.unaryPhrase, Phrase.pieces_grouped, ih e (by simp), algebraicUnary]

theorem piecesAll_phrases :
    Phrase.piecesAll ((es.map fun e => (e.head, e.phrase)).map Prod.snd) = es.map algebraic := by
  rw [Phrase.piecesAll_eq_map, List.map_map, List.map_map]
  exact List.map_congr_left ih

end Pieces

variable {ctx : Context}

/-- The canonical text of an expression is the written form of its phrase. -/
theorem pieces_phrase {e : Expr} (h : e.Everywhere (Sound ctx)) :
    e.phrase.pieces = e.algebraic := by
  induction h with
  | @node span head es h _ ih =>
    -- Operators that stand between operands have some, and unary ones have one.
    have hchain {op : Operator} (hop : op ∈ head.operator?)
        (hcount : head.operandCount es.length = es.length) (hleast : 2 ≤ op.arity.least) :
        (op.chainPhrase (es.map fun e => (e.head, e.phrase))).pieces =
          algebraicChain op true es := by
      refine pieces_chainPhrase ih ?_
      rintro rfl
      have haccepts := Arity.accepts_iff.1 (h.count op hop)
      simp only [List.map_nil, List.length_nil] at hcount haccepts
      omega
    have hunary {op : Operator} (hop : op ∈ head.operator?)
        (hcount : head.operandCount es.length = es.length) (harity : op.arity = .exactly 1) :
        (op.unaryPhrase (es.map fun e => (e.head, e.phrase))).pieces = algebraicUnary op es := by
      have haccepts := h.count op hop
      rw [harity, Arity.accepts_exactly, List.length_map, hcount] at haccepts
      exact pieces_unaryPhrase ih haccepts
    rw [phrase_node]
    cases head with
    | constant v => simpa [algebraic, Head.phrase] using v.pieces_phrase
    | symbol name => cases h
    | signal s => simp [algebraic, Head.phrase, Phrase.pieces]
    | action a once =>
      rw [algebraic, Head.phrase, Phrase.pieces, piecesAll_phrases ih, algebraicArguments_eq]
    | comparison op =>
      rw [algebraic]
      cases op <;> exact hchain rfl rfl (by decide)
    | connective op =>
      cases op with
      | not =>
        rw [algebraic, ← hunary rfl rfl rfl]
        rfl
      | and | or =>
        rw [algebraic]
        · exact hchain rfl rfl (by decide)
        · simp
    | arithmetic op =>
      cases op with
      | neg =>
        rw [algebraic, ← hunary rfl rfl rfl]
        rfl
      | min | max | round =>
        rw [algebraic, algebraicArguments_eq, ← piecesAll_phrases ih]
        rfl
      | add | sub | mul | div | mod =>
        rw [algebraic]
        · exact hchain rfl rfl (by decide)
        all_goals simp
    | concat =>
      rw [algebraic, algebraicArguments_eq, ← piecesAll_phrases ih]
      rfl
    | property mode p =>
      rw [algebraic, Head.phrase, Phrase.pieces, Phrase.piecesAll, piecesAll_phrases ih,
        Piece.listed_cons, algebraicFurther_eq]
      rfl
    | presence kind names => rw [algebraic, Head.phrase, Phrase.pieces, Piece.listedNames_eq]

end Expr

/-! ### Precedence -/

namespace Phrase

theorem RespectsPrecedence.grouped {p : Phrase} (h : p.RespectsPrecedence) (b : Bool) :
    (p.grouped b).RespectsPrecedence := by
  cases b with
  | false => exact h
  | true => exact .group h

theorem power_grouped (b : Bool) (p : Phrase) :
    (p.grouped b).power = if b then Operator.atomPrecedence else p.power := by
  cases b <;> rfl

/-- Operators of one precedence may follow each other from the left. -/
theorem respectsPrecedence_chain {op : Operator} (hop : op.isBinary)
    {ss : List (Operator × Phrase)}
    (hss : ∀ s ∈ ss, s.1 = op ∧ s.2.RespectsPrecedence ∧ op.precedence < s.2.power)
    {p : Phrase} (hp : p.RespectsPrecedence) (hpower : op.precedence ≤ p.power) :
    (chain p ss).RespectsPrecedence ∧
      (ss ≠ [] → (chain p ss).power = op.precedence ∧ (chain p ss).isBinary) := by
  induction ss generalizing p with
  | nil => exact ⟨hp, fun h => absurd rfl h⟩
  | cons s ss ih =>
    obtain ⟨rfl, hright, hlt⟩ := hss s (by simp)
    have hrest := fun t ht => hss t (List.mem_cons_of_mem s ht)
    obtain ⟨hchain, htop⟩ := ih hrest (.binary hop hp hright hpower hlt) (Nat.le_refl _)
    refine ⟨hchain, fun _ => ?_⟩
    by_cases hnil : ss = []
    · subst hnil
      exact ⟨rfl, rfl⟩
    · exact htop hnil

end Phrase

namespace Expr

/-- What has to be known of the phrase of an operand to place it beside an operator. -/
structure IsPlaced (e : Expr) : Prop where
  /-- The phrase respects precedence. -/
  respects : e.phrase.RespectsPrecedence
  /-- The phrase binds as the expression does. -/
  power : e.phrase.power = e.head.precedence
  /-- Only number literals are written as numbers. -/
  isNumber : ∀ digits, e.phrase = .number digits → e.head.isNumber

theorem atomPrecedence_gt {op : Operator} (hop : op.isBinary) :
    op.precedence < Operator.atomPrecedence :=
  Nat.lt_trans (Operator.precedence_lt_of_isBinary op hop) (by decide)

/-- The first operand of a binary operator binds tightly enough, in parentheses if needed. -/
theorem IsPlaced.le_power {e : Expr} (he : e.IsPlaced) {op : Operator} (hop : op.isBinary) :
    op.precedence ≤ (e.phrase.grouped (op.groupsOperand true e.head)).power := by
  rw [Phrase.power_grouped]
  split_ifs with hgroup
  · exact Nat.le_of_lt (atomPrecedence_gt hop)
  · rw [he.power]
    simpa [Operator.groupsOperand] using hgroup

/-- A later operand of a binary operator binds more tightly, in parentheses if needed. -/
theorem IsPlaced.lt_power {e : Expr} (he : e.IsPlaced) {op : Operator} (hop : op.isBinary)
    (hflat : op.isFlattened → e.head.operator? ≠ some op) :
    op.precedence < (e.phrase.grouped (op.groupsOperand false e.head)).power := by
  rw [Phrase.power_grouped]
  split_ifs with hgroup
  · exact atomPrecedence_gt hop
  · have hchain : (op.isFlattened && e.head.operator? == some op) = false := by
      simpa using hflat
    simp only [Operator.groupsOperand, hchain, Bool.not_false, Bool.and_true, Bool.true_and,
      Bool.or_eq_true, decide_eq_true_eq, beq_iff_eq] at hgroup
    rw [he.power]
    omega

/-- The operands of a binary operator, grouped where needed, may stand in a chain. -/
theorem respectsPrecedence_chainPhrase {op : Operator} (hop : op.isBinary) {es : List Expr}
    (hlength : 2 ≤ es.length) (hes : ∀ e ∈ es, e.IsPlaced)
    (hflat : op.isFlattened → ∀ e ∈ es, e.head.operator? ≠ some op) :
    (op.chainPhrase (es.map fun e => (e.head, e.phrase))).RespectsPrecedence ∧
      (op.chainPhrase (es.map fun e => (e.head, e.phrase))).power = op.precedence ∧
      (op.chainPhrase (es.map fun e => (e.head, e.phrase))).isBinary := by
  rcases es with _ | ⟨a, _ | ⟨b, es⟩⟩
  · simp at hlength
  · simp at hlength
  have hfirst := hes a (by simp)
  have hsteps : ∀ s ∈ ((b :: es).map fun e => (e.head, e.phrase)).map fun q =>
      (op, q.2.grouped (op.groupsOperand false q.1)),
      s.1 = op ∧ s.2.RespectsPrecedence ∧ op.precedence < s.2.power := by
    simp only [List.map_map, List.mem_map]
    rintro _ ⟨e, he, rfl⟩
    have hplaced := hes e (List.mem_cons_of_mem _ he)
    exact ⟨rfl, hplaced.respects.grouped _,
      hplaced.lt_power hop fun h => hflat h e (List.mem_cons_of_mem _ he)⟩
  obtain ⟨hrespects, htop⟩ := Phrase.respectsPrecedence_chain hop hsteps
    (hfirst.respects.grouped _) (hfirst.le_power hop)
  exact ⟨hrespects, htop (by simp)⟩

/-- An operand that a unary operator leaves as it is binds tightly enough, or it is the operator
again. -/
theorem le_precedence_of_groupsUnary {op : Operator} {head : Head}
    (h : op.groupsUnary head = false) :
    op.operandPrecedence ≤ head.precedence ∨ head.operator? = some op := by
  simp only [Operator.groupsUnary, Bool.and_eq_false_iff, decide_eq_false_iff_not, Nat.not_lt,
    bne_eq_false_iff_eq] at h
  exact h

/-- The operand of a minus sign binds as tightly, in parentheses if needed. -/
theorem IsPlaced.minus {e : Expr} (he : e.IsPlaced) :
    (Phrase.minus (e.phrase.grouped ((Operator.arithmetic .neg).groupsUnary e.head ||
      e.head.isNumber))).RespectsPrecedence := by
  refine .minus (he.respects.grouped _) ?_ fun digits hdigits => ?_
  · rw [Phrase.power_grouped]
    split_ifs with hgroup
    · decide
    · simp only [Bool.or_eq_true, not_or, Bool.not_eq_true] at hgroup
      rw [he.power]
      rcases le_precedence_of_groupsUnary hgroup.1 with hle | hsame
      · exact hle
      · rw [Head.precedence, hsame]
        decide
  · rw [Phrase.grouped] at hdigits
    split_ifs at hdigits with hgroup
    simp only [Bool.or_eq_true, not_or] at hgroup
    exact hgroup.2 (he.isNumber digits hdigits)

/-- The operand of a `not` binds as tightly as a comparison, in parentheses if needed. -/
theorem IsPlaced.not {e : Expr} (he : e.IsPlaced) :
    (Phrase.not (e.phrase.grouped ((Operator.connective .not).groupsUnary e.head ||
      e.head.isNumber))).RespectsPrecedence := by
  refine .not (he.respects.grouped _) ?_
  cases hgroup : (Operator.connective .not).groupsUnary e.head || e.head.isNumber with
  | true =>
    have hatom : (Operator.connective .not).operandPrecedence ≤ Operator.atomPrecedence := by
      decide
    exact .inl hatom
  | false =>
    rw [Bool.or_eq_false_iff] at hgroup
    rcases le_precedence_of_groupsUnary hgroup.1 with hle | hsame
    · exact .inl (he.power ▸ hle)
    · obtain ⟨span, head, es⟩ := e
      obtain rfl : head = .connective .not := Head.eq_connective hsame
      exact .inr ⟨_, by rw [phrase_node]; rfl⟩

/-- The phrase of a literal is an atom. -/
theorem isPlaced_constant (span : Span) (v : Value) (es : List Expr) :
    (node span (.constant v) es).IsPlaced := by
  cases v with
  | unset | string => exact ⟨.text _, rfl, fun digits h => by cases h⟩
  | number n =>
    by_cases hneg : n.hundredths < 0
    · have hphrase : (node span (.constant (.number n)) es).phrase =
          .negative (String.ofList n.magnitudeDigits) := if_pos hneg
      exact ⟨hphrase ▸ .negative _, by rw [hphrase]; rfl, fun _ _ => rfl⟩
    · have hphrase : (node span (.constant (.number n)) es).phrase =
          .number (String.ofList n.magnitudeDigits) := if_neg hneg
      exact ⟨hphrase ▸ .number _, by rw [hphrase]; rfl, fun _ _ => rfl⟩

theorem isPlaced_call {span : Span} {head : Head} {es : List Expr} {op : Operator}
    (hcall : op.isCall) (hop : head.operator? = some op)
    {args : List Phrase} (hargs : ∀ p ∈ args, p.RespectsPrecedence)
    (hphrase : (node span head es).phrase = .call op args) : (node span head es).IsPlaced := by
  have hatom : ∀ op : Operator, op.isCall → op.precedence = Operator.atomPrecedence :=
    Operator.forall_of_all (by decide)
  refine ⟨hphrase ▸ .call hcall hargs, ?_, fun digits hdigits => ?_⟩
  · rw [hphrase, Expr.head, Head.precedence, hop]
    exact (hatom op hcall).symm
  · cases hphrase.symm.trans hdigits

section Placed

variable {span : Span} {head : Head} {es : List Expr} (ih : ∀ e ∈ es, e.IsPlaced)

include ih

theorem respectsPrecedence_args :
    ∀ p ∈ (es.map fun e => (e.head, e.phrase)).map Prod.snd, p.RespectsPrecedence := by
  simp only [List.map_map, List.mem_map]
  rintro _ ⟨e, he, rfl⟩
  exact (ih e he).respects

/-- A node of a binary operator is a chain. -/
theorem isPlaced_chain {op : Operator} (h : Sound ctx head (es.map Expr.head))
    (hop : head.operator? = some op) (hbinary : op.isBinary)
    (hcount : head.operandCount es.length = es.length) (hleast : 2 ≤ op.arity.least)
    (hphrase : (node span head es).phrase =
      op.chainPhrase (es.map fun e => (e.head, e.phrase))) : (node span head es).IsPlaced := by
  have haccepts := Arity.accepts_iff.1 (h.count op hop)
  rw [List.length_map, hcount] at haccepts
  have hflat : op.isFlattened → ∀ e ∈ es, e.head.operator? ≠ some op := fun hmerged e he =>
    h.flat op hop hmerged e.head (List.mem_map_of_mem he)
  obtain ⟨hrespects, hpower, htop⟩ :=
    respectsPrecedence_chainPhrase hbinary (Nat.le_trans hleast haccepts.1) ih hflat
  rw [← hphrase] at hrespects hpower htop
  refine ⟨hrespects, ?_, fun digits hdigits => ?_⟩
  · rw [hpower, Expr.head, Head.precedence, hop]
  · rw [hdigits] at htop
    cases htop

end Placed

/-- The phrase of an expression respects precedence and binds as the expression does. -/
theorem isPlaced {e : Expr} (h : e.Everywhere (Sound ctx)) : e.IsPlaced := by
  induction h with
  | @node span head es h _ ih =>
    have hargs := respectsPrecedence_args ih
    cases head with
    | constant v => exact isPlaced_constant span v es
    | symbol name => cases h
    | signal s => exact ⟨.signal _, rfl, fun digits hdigits => by cases hdigits⟩
    | action a once =>
      exact ⟨phrase_node span _ es ▸ .invoke _ hargs, rfl, fun digits hdigits => by cases hdigits⟩
    | comparison op =>
      cases op <;> exact isPlaced_chain ih h rfl rfl rfl (by decide) (phrase_node ..)
    | connective op =>
      cases op with
      | not =>
        obtain ⟨e, rfl⟩ : ∃ e, es = [e] := by
          simpa [Operator.arity, Head.operandCount, List.length_eq_one_iff] using h.count _ rfl
        exact ⟨(ih e (by simp)).not, rfl, fun digits hdigits => by cases hdigits⟩
      | and | or => exact isPlaced_chain ih h rfl rfl rfl (by decide) (phrase_node ..)
    | arithmetic op =>
      cases op with
      | neg =>
        obtain ⟨e, rfl⟩ : ∃ e, es = [e] := by
          simpa [Operator.arity, Head.operandCount, List.length_eq_one_iff] using h.count _ rfl
        exact ⟨(ih e (by simp)).minus, rfl, fun digits hdigits => by cases hdigits⟩
      | min | max | round => exact isPlaced_call rfl rfl hargs (phrase_node ..)
      | add | sub | mul | div | mod =>
        exact isPlaced_chain ih h rfl rfl rfl (by decide) (phrase_node ..)
    | concat => exact isPlaced_call rfl rfl hargs (phrase_node ..)
    | property mode p =>
      have hcall : mode.operator.isCall := by
        rcases mode with (_ | _) | (_ | _) | _ <;> rfl
      exact isPlaced_call hcall rfl (List.forall_mem_cons.2 ⟨.text _, hargs⟩) (phrase_node ..)
    | presence kind names =>
      exact ⟨.presence _ _, by cases kind <;> rfl, fun digits hdigits => by cases hdigits⟩

/-! ### Spelling -/

variable {P : String → Prop}

theorem isWritable_grouped {p : Phrase} (h : p.IsWritable P) (b : Bool) :
    (p.grouped b).IsWritable P := by
  cases b with
  | false => exact h
  | true => exact h.group

theorem isWritable_value (v : Value) : v.phrase.IsWritable P := by
  have hmagnitude (n : Fixed) : Lexeme.IsWritable P ⟨.number, String.ofList n.magnitudeDigits⟩ :=
    ⟨fun h => absurd h (by simp), fun _ => ⟨n, rfl⟩⟩
  cases v with
  | unset | string =>
    simpa [Value.phrase, Phrase.IsWritable, Phrase.yield] using
      Lexeme.isWritable_of_kind (by simp) (by simp)
  | number n =>
    rw [Value.phrase]
    split_ifs
    · simpa [Phrase.IsWritable, Phrase.yield] using ⟨Phrase.isWritable_symbol '-', hmagnitude n⟩
    · simpa [Phrase.IsWritable, Phrase.yield] using hmagnitude n

section Writable

variable {es : List Expr} (ih : ∀ e ∈ es, e.phrase.IsWritable P)

include ih

theorem isWritable_chainPhrase (op : Operator) :
    (op.chainPhrase (es.map fun e => (e.head, e.phrase))).IsWritable P := by
  cases es with
  | nil => exact isWritable_value .unset
  | cons e es =>
    refine (isWritable_grouped (ih e (by simp)) _).chain ?_
    simp only [List.map_map, List.mem_map]
    rintro _ ⟨x, hx, rfl⟩
    exact isWritable_grouped (ih x (List.mem_cons_of_mem _ hx)) _

theorem isWritable_unaryPhrase (op : Operator) :
    (op.unaryPhrase (es.map fun e => (e.head, e.phrase))).IsWritable P := by
  cases es with
  | nil => exact isWritable_value .unset
  | cons e es => exact isWritable_grouped (ih e (by simp)) _

theorem isWritable_operands :
    ∀ p ∈ (es.map fun e => (e.head, e.phrase)).map Prod.snd, p.IsWritable P := by
  simp only [List.map_map, List.mem_map]
  rintro _ ⟨e, he, rfl⟩
  exact ih e he

theorem isWritable_operator (op : Operator) :
    (op.phrase (es.map fun e => (e.head, e.phrase))).IsWritable P := by
  unfold Operator.phrase
  split
  · exact isWritable_chainPhrase ih op
  · split_ifs
    · exact (isWritable_unaryPhrase ih op).not
    · exact (isWritable_unaryPhrase ih op).minus
  · exact List.forall_mem_cons.2 ⟨Lexeme.isWritable_of_kind (by simp) (by simp),
      Phrase.isWritable_args (isWritable_operands ih)⟩

end Writable

/-- A sound expression can be written if its names can. -/
theorem isWritable_phrase {e : Expr} (h : e.Everywhere (Sound ctx)) (hnames : ∀ n ∈ e.names, P n) :
    e.phrase.IsWritable P := by
  rw [forall_names_iff] at hnames
  induction h with
  | @node span head es h _ ih =>
    replace ih : ∀ e ∈ es, e.phrase.IsWritable P := fun e he => ih e he (hnames.operands e he)
    have hword {n : String} (hn : n ∈ head.names) : Lexeme.IsWritable P ⟨.identifier, n⟩ :=
      ⟨fun _ => hnames.head n hn, fun hkind => absurd hkind (by simp)⟩
    have hkeyword (word : String) : Lexeme.IsWritable P ⟨.keyword, word⟩ :=
      Lexeme.isWritable_of_kind (by simp) (by simp)
    have hargs := isWritable_operands ih
    rw [phrase_node]
    cases head with
    | constant v => exact isWritable_value v
    | symbol name => cases h
    | signal s => exact List.forall_mem_singleton.2 (hword (by simp [Head.names]))
    | action a once =>
      exact List.forall_mem_cons.2 ⟨hword (by simp [Head.names]), Phrase.isWritable_args hargs⟩
    | comparison op | connective op | arithmetic op => exact isWritable_operator ih _
    | concat => exact isWritable_operator ih .concat
    | property mode p =>
      exact List.forall_mem_cons.2 ⟨hkeyword _, Phrase.isWritable_args
        (List.forall_mem_cons.2 ⟨isWritable_value (.string p.reference), hargs⟩)⟩
    | presence kind names =>
      refine List.forall_mem_cons.2 ⟨hkeyword _, Phrase.isWritable_enclosed ?_⟩
      rw [List.forall_mem_map]
      exact fun n hn => List.forall_mem_singleton.2 (hword hn)

/-- The canonical text of an expression spells its phrase. -/
theorem spells_algebraic {e : Expr} (hkeyed : ctx.host.Keyed) (hg : ctx.grammar = .algebraic)
    (h : e.Everywhere (Sound ctx)) :
    (Lexicon.ofGrammar .algebraic).Spells (e.write .algebraic).toList e.phrase.yield := by
  have hwritable := isWritable_phrase h (hg ▸ isName_names h hkeyed)
  have hwrites := Phrase.writes_pieces (isPlaced h).respects hwritable
  rw [pieces_phrase h] at hwrites
  rw [write, String.toList_ofList]
  exact hwrites.spells

end Expr

end SignalRules
