import SignalRules.Proofs.Algebraic.Written
import SignalRules.Proofs.Names
import SignalRules.Proofs.Polish.Term

/-!
# The term of an expression

An expression is written in the Polish grammar as a term: every node but a literal is an operator
in parentheses, with a blank in front of each operand. The canonical text is the written form of
that term and spells it. Lexemes spell at most one term, since every term tells where it ends.

## Main definitions

* `Term.pieces`: the written form of a term.
* `Expr.term`: the term of an expression.

## Main results

* `Polish.eq_of_yield_eq`: two terms that spell the same lexemes are equal.
* `Expr.pieces_term`: the canonical text is the written form of the term.
* `Expr.spells_polish`: the canonical text spells the term.
-/

namespace SignalRules

/-! ### Terms are determined by their lexemes -/

namespace Polish

theorem keyword_injective {a b : Operator} (h : a.keyword = b.keyword) : a = b := by
  have ha := ofKeyword?_keyword a
  rw [h, ofKeyword?_keyword b] at ha
  exact (Option.some.inj ha).symm

/-- Operands up to the closing parenthesis are determined if each of them is. -/
theorem operands_determined {ts : List Term}
    (ih : ∀ t ∈ ts, ∀ u rest rest', t.yield ++ rest = Term.yield u ++ rest' → t = u ∧ rest = rest')
    {us : List Term} {rest rest' : List Lexeme}
    (h : Term.yieldAll ts ++ .symbol ')' :: rest = Term.yieldAll us ++ .symbol ')' :: rest') :
    ts = us ∧ rest = rest' := by
  induction ts generalizing us with
  | nil =>
    cases us with
    | nil => exact ⟨rfl, (List.cons.inj h).2⟩
    | cons u us =>
      obtain ⟨x, xs, hu, hne⟩ := u.yield_eq_cons
      rw [Term.yieldAll, Term.yieldAll, hu, List.nil_append, List.append_assoc] at h
      exact absurd (List.cons.inj h).1.symm hne
  | cons t ts ihts =>
    cases us with
    | nil =>
      obtain ⟨x, xs, ht, hne⟩ := t.yield_eq_cons
      rw [Term.yieldAll, Term.yieldAll, ht, List.nil_append, List.append_assoc] at h
      exact absurd (List.cons.inj h).1 hne
    | cons u us =>
      rw [Term.yieldAll, Term.yieldAll, List.append_assoc, List.append_assoc] at h
      obtain ⟨rfl, hrest⟩ := ih t (by simp) u _ _ h
      obtain ⟨rfl, rfl⟩ := ihts (fun t ht => ih t (List.mem_cons_of_mem _ ht)) hrest
      exact ⟨rfl, rfl⟩

/-- A term ends where it ends, whatever follows. -/
theorem term_determined (t u : Term) (rest rest' : List Lexeme)
    (h : t.yield ++ rest = u.yield ++ rest') : t = u ∧ rest = rest' := by
  induction t generalizing u rest rest' with
  | number digits | text content | name n =>
    cases u <;> simp_all [Term.yield, Lexeme.symbol]
  | form op args ih =>
    cases u with
    | form op' args' =>
      simp only [Term.yield, List.cons_append, List.append_assoc, List.cons.injEq,
        Lexeme.mk.injEq, true_and] at h
      obtain ⟨hop, hargs⟩ := h
      obtain ⟨rfl, rfl⟩ := operands_determined ih hargs
      exact ⟨by rw [keyword_injective hop], rfl⟩
    | _ => simp [Term.yield, Lexeme.symbol] at h

/-- Two terms that spell the same lexemes are equal. -/
theorem eq_of_yield_eq {t u : Term} (h : t.yield = u.yield) : t = u :=
  (term_determined t u [] [] (by rw [h])).1

end Polish

/-! ### Written terms -/

namespace Term

mutual

/-- The pieces of a term. -/
def pieces : Term → List Piece
  | number digits => [.word digits]
  | text content => [.literal content]
  | name n => [.word n]
  | form op args => .mark '(' :: .word op.keyword :: (piecesAll args ++ [.mark ')'])

/-- The pieces of several terms, with a blank in front of each. -/
def piecesAll : List Term → List Piece
  | [] => []
  | t :: ts => .blank :: (pieces t ++ piecesAll ts)

end

/-- A lexeme that can be written if names with the property `P` can: such a name, the decimal text
of a number with its sign, or anything else. -/
def CanWrite (P : String → Prop) (x : Lexeme) : Prop :=
  (x.kind = .identifier → P x.text) ∧ (x.kind = .number → ∃ n : Fixed, x.text = n.text)

open Lexicon (Writes Closes ofGrammar)

/-- Operands up to the closing parenthesis are set off from what stands before them. -/
theorem closes_operands {ts : List Term}
    (h : ∀ t ∈ ts, Writes (ofGrammar .polish) (Piece.text t.pieces) t.yield) :
    ∃ c cs, Piece.text (piecesAll ts ++ [.mark ')']) = c :: cs ∧ (ofGrammar .polish).isStop c ∧
      Closes (ofGrammar .polish) (c :: cs) (yieldAll ts ++ [.symbol ')']) := by
  induction ts with
  | nil =>
    exact ⟨')', [], rfl, Lexicon.isStop_of_mem (by decide),
      Lexicon.closes_mark (by decide) (by decide)⟩
  | cons t ts ih =>
    obtain ⟨c, cs, htext, hstop, hclose⟩ := ih fun u hu => h u (List.mem_cons_of_mem _ hu)
    have hfirst := (h t (by simp)).append_closes hstop hclose
    refine ⟨' ', Piece.text t.pieces ++ c :: cs, ?_, Lexicon.isStop_of_mem (by decide), ?_⟩
    · rw [← htext]
      simp [piecesAll, Piece.chars]
    · rw [yieldAll, List.append_assoc]
      exact Lexicon.closes_blank.append hfirst

theorem keyword_mem_keywords (op : Operator) : op.keyword ∈ Grammar.polish.keywords :=
  List.mem_map_of_mem (Operator.mem_all op)

/-- The text of a term spells the term. -/
theorem writes_pieces {t : Term} (hw : ∀ x ∈ t.yield, CanWrite Grammar.polish.IsName x) :
    Writes (ofGrammar .polish) (Piece.text t.pieces) t.yield := by
  induction t with
  | number digits =>
    obtain ⟨n, rfl⟩ := (hw ⟨.number, digits⟩ (by simp [yield])).2 rfl
    simpa [pieces, Piece.chars, yield, Fixed.text] using Lexicon.writes_digits n
  | text content => simpa [pieces, Piece.chars, yield] using Lexicon.writes_literal content
  | name n =>
    have hname := (hw ⟨.identifier, n⟩ (by simp [yield])).1 rfl
    simpa [pieces, Piece.chars, yield] using Lexicon.writes_name hname
  | form op args ih =>
    have hargs : ∀ t ∈ args, Writes (ofGrammar .polish) (Piece.text t.pieces) t.yield :=
      fun t ht => ih t ht fun x hx => hw x (by simp [yield, mem_yieldAll ht hx])
    obtain ⟨c, cs, htext, hstop, hclose⟩ := closes_operands hargs
    have hopen : Closes (ofGrammar .polish) ['('] [.symbol '('] :=
      Lexicon.closes_mark (by decide) (by decide)
    have hword := (Lexicon.writes_keyword (keyword_mem_keywords op)).append_closes hstop hclose
    rw [← htext] at hword
    simpa [pieces, Piece.chars, yield] using (hopen.append hword).writes

end Term

/-! ### The term of an expression -/

/-- The term of a literal. -/
def Value.term : Value → Term
  | unset => .text ""
  | string s => .text s
  | number n => .number n.text

/-- The term of a node whose operands have the given terms. -/
def Head.term (ts : List Term) : Head → Term
  | constant v => v.term
  | symbol name => .name name
  | signal s => .form .signal [.name s.name]
  | action a once => .form .action (.name (a.written once) :: ts)
  | comparison op => .form (.comparison op) ts
  | connective op => .form (.connective op) ts
  | arithmetic op => .form (.arithmetic op) ts
  | concat => .form .concat ts
  | property mode p => .form mode.operator (.text p.reference :: ts)
  | presence kind names => .form (.presence kind) (names.map .name)

namespace Expr

mutual

/-- The term of an expression. -/
def term : Expr → Term
  | node _ head es => head.term (terms es)

/-- The terms of several expressions. -/
def terms : List Expr → List Term
  | [] => []
  | e :: es => term e :: terms es

end

theorem terms_eq_map (es : List Expr) : terms es = es.map term := by
  induction es with
  | nil => rfl
  | cons e es ih => rw [terms, ih, List.map_cons]

theorem term_node (span : Span) (head : Head) (es : List Expr) :
    (node span head es).term = head.term (es.map term) := by
  rw [term, terms_eq_map]

theorem piecesAll_terms {es : List Expr} (h : ∀ e ∈ es, e.term.pieces = e.polish) :
    Term.piecesAll (es.map term) = polishOperands es := by
  induction es with
  | nil => rfl
  | cons e es ih =>
    rw [List.map_cons, Term.piecesAll, h e (by simp), polishOperands,
      ih fun x hx => h x (List.mem_cons_of_mem _ hx)]

theorem piecesAll_names (names : List String) :
    Term.piecesAll (names.map Term.name) = Piece.spacedNames names := by
  induction names with
  | nil => rfl
  | cons n names ih =>
    rw [List.map_cons, Term.piecesAll, ih]
    rfl

/-- The canonical text of an expression is the written form of its term. -/
theorem pieces_term (e : Expr) : e.term.pieces = e.polish := by
  induction e using node_induction with
  | step span head es ih =>
    have hoperands := piecesAll_terms ih
    rw [term_node]
    cases head with
    | constant v => cases v <;> simp [polish, Head.term, Value.term, Term.pieces, Value.pieces]
    | symbol name => simp [polish, Head.term, Term.pieces]
    | signal s => simp [polish, Head.term, Term.pieces, Term.piecesAll]
    | action a once => simp [polish, Head.term, Term.pieces, Term.piecesAll, hoperands]
    | comparison op | connective op | arithmetic op =>
      simp [polish, Head.term, Term.pieces, hoperands]
    | concat => simp [polish, Head.term, Term.pieces, hoperands]
    | property mode p => simp [polish, Head.term, Term.pieces, Term.piecesAll, hoperands]
    | presence kind names => simp [polish, Head.term, Term.pieces, piecesAll_names]

variable {ctx : Context} {P : String → Prop}

theorem canWrite_value (v : Value) : ∀ x ∈ v.term.yield, Term.CanWrite P x := by
  cases v with
  | unset | string => simp [Value.term, Term.yield, Term.CanWrite]
  | number n => simp [Value.term, Term.yield, Term.CanWrite]

/-- An operator with operands that can be written can be written. -/
theorem canWrite_form {op : Operator} {ts : List Term}
    (h : ∀ t ∈ ts, ∀ x ∈ t.yield, Term.CanWrite P x) :
    ∀ x ∈ (Term.form op ts).yield, Term.CanWrite P x := by
  have hall : ∀ x ∈ Term.yieldAll ts, Term.CanWrite P x := by
    induction ts with
    | nil => simp [Term.yieldAll]
    | cons t ts ih =>
      rw [List.forall_mem_cons] at h
      rw [Term.yieldAll, List.forall_mem_append]
      exact ⟨h.1, ih h.2⟩
  intro x hx
  simp only [Term.yield, List.mem_cons, List.mem_append, List.not_mem_nil, or_false] at hx
  rcases hx with rfl | rfl | hx | rfl
  · simp [Term.CanWrite, Lexeme.symbol]
  · simp [Term.CanWrite]
  · exact hall x hx
  · simp [Term.CanWrite, Lexeme.symbol]

/-- A sound expression can be written if its names can. -/
theorem canWrite_term {e : Expr} (h : e.Everywhere (Sound ctx)) (hnames : ∀ n ∈ e.names, P n) :
    ∀ x ∈ e.term.yield, Term.CanWrite P x := by
  rw [forall_names_iff] at hnames
  induction h with
  | @node span head es h _ ih =>
    have hname {n : String} (hn : n ∈ head.names) :
        ∀ x ∈ (Term.name n).yield, Term.CanWrite P x := by
      simpa [Term.yield, Term.CanWrite] using hnames.head n hn
    have hoperands : ∀ t ∈ es.map term, ∀ x ∈ t.yield, Term.CanWrite P x :=
      List.forall_mem_map.2 fun e he => ih e he (hnames.operands e he)
    rw [term_node]
    cases head with
    | constant v => exact canWrite_value v
    | symbol name => cases h
    | signal s =>
      exact canWrite_form (List.forall_mem_singleton.2 (hname (by simp [Head.names])))
    | action a once =>
      exact canWrite_form (List.forall_mem_cons.2 ⟨hname (by simp [Head.names]), hoperands⟩)
    | comparison op | connective op | arithmetic op => exact canWrite_form hoperands
    | concat => exact canWrite_form hoperands
    | property mode p =>
      exact canWrite_form (List.forall_mem_cons.2 ⟨canWrite_value (.string p.reference), hoperands⟩)
    | presence kind names =>
      exact canWrite_form (List.forall_mem_map.2 fun n hn => hname hn)

/-- The canonical text of an expression spells its term. -/
theorem spells_polish {e : Expr} (hkeyed : ctx.host.Keyed) (hg : ctx.grammar = .polish)
    (h : e.Everywhere (Sound ctx)) :
    (Lexicon.ofGrammar .polish).Spells (e.write .polish).toList e.term.yield := by
  have hwrites := Term.writes_pieces (canWrite_term h (hg ▸ isName_names h hkeyed))
  rw [pieces_term] at hwrites
  rw [write, String.toList_ofList]
  exact hwrites.spells

end Expr

end SignalRules
