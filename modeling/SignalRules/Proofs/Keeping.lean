import SignalRules.Proofs.RoundTrip

/-!
# Expressions whose text is kept

An expression is read back with the same text exactly if every literal beside a signal is: it is
settled once more, and what it settles to has to be written as it was. This holds in either grammar,
since the syntax tree of an expression tells the trees of its operands.

## Main definitions

* `Keeps`: the condition on a node under which its text is kept.
* `Faithful`: trees of expressions that tell the trees of their operands.

## Main results

* `Faithful.reread_iff`: the tree of an expression is kept if every node keeps its text.
* `Expr.write_reread_iff`: so is its canonical text.
-/

namespace SignalRules

/-- A literal beside a signal settles to what is written as the literal. -/
def Signal.Keeps (s : Signal) (v : Value) : Prop := (s.settled v.reread).reread = v.reread

/-- A node with the given head, whose operands have the given heads, keeps its text when it is read
back. -/
def Keeps (head : Head) (operands : List Head) : Prop :=
  ∀ s v, Beside s v head operands → s.Keeps v

/-- Operands of a node that are grouped alike: they have the same head, or they are literals in a
comparison. -/
def Head.Alike (head x y : Head) : Prop :=
  x = y ∨ (∃ op, head = comparison op) ∧ ∃ v w, x = constant v ∧ y = constant w

/-- A tree for every expression, which ignores spans, tells literals apart that are written
differently, and tells the trees of the operands. -/
structure Faithful {α : Type} (ctx : Context) (tree : Expr → α) : Prop where
  literal : ∀ span span' v w,
    tree (.node span (.constant v) []) = tree (.node span' (.constant w) []) ↔ v.reread = w.reread
  node : ∀ span span' head es es', (∀ v, head ≠ .constant v) → Sound ctx head (es.map Expr.head) →
    List.Forall₂ head.Alike (es'.map Expr.head) (es.map Expr.head) →
    (tree (.node span head es') = tree (.node span' head es) ↔ es'.map tree = es.map tree)

@[simp] theorem Value.reread_reread (v : Value) : v.reread.reread = v.reread := by
  cases v <;> rfl

theorem Head.alike_of_eq {head : Head} {xs ys : List Head} (h : xs = ys) :
    List.Forall₂ head.Alike xs ys := by
  subst h
  exact List.forall₂_same.2 fun x _ => .inl rfl

namespace Faithful

variable {α : Type} {ctx : Context} {tree : Expr → α}

section Comparisons

variable (hf : Faithful ctx tree)

include hf

/-- Comparisons have equal trees if both operands have. -/
theorem comparison_iff {span : Span} {op : Comparison} {a b a' b' : Expr}
    (h : Sound ctx (.comparison op) [a.head, b.head])
    (ha : (Head.comparison op).Alike a'.head a.head)
    (hb : (Head.comparison op).Alike b'.head b.head) :
    tree (.node default (.comparison op) [a', b']) = tree (.node span (.comparison op) [a, b]) ↔
      tree a' = tree a ∧ tree b' = tree b := by
  rw [hf.node _ _ _ [a, b] [a', b'] (by simp) h (.cons ha (.cons hb .nil))]
  simp

/-- A literal has the tree of another one if they are written alike. -/
theorem literal_iff {e : Expr} (h : e.Everywhere (Sound ctx)) {v w : Value}
    (hv : e.head = .constant v) : tree (.constant w default) = tree e ↔ w.reread = v.reread := by
  rw [Expr.eq_literal h hv]
  exact hf.literal _ _ _ _

end Comparisons

/-- A literal by itself keeps its text. -/
theorem everywhere_keeps_literal {e : Expr} (h : e.Everywhere (Sound ctx)) {v : Value}
    (hv : e.head = .constant v) : e.Everywhere Keeps := by
  rw [Expr.eq_literal h hv]
  exact .node (fun s w hbeside => nomatch hbeside) (by simp)

/-- The tree of an expression is kept if every node keeps its text. -/
theorem reread_iff (hf : Faithful ctx tree) {e : Expr} (h : e.Everywhere (Sound ctx)) :
    tree e.reread = tree e ↔ e.Everywhere Keeps := by
  induction h with
  | @node span head es h hes ih =>
    have hoperands : (es.map Expr.reread).map tree = es.map tree ↔
        ∀ e ∈ es, e.Everywhere Keeps := by
      rw [List.map_map, List.map_inj_left]
      exact forall₂_congr ih
    -- Where no literal is settled, the operands decide.
    have hsame (hconst : ∀ v, head ≠ .constant v)
        (hheads : (es.map Expr.reread).map Expr.head = es.map Expr.head)
        (hbeside : ∀ s v, ¬ Beside s v head (es.map Expr.head)) :
        tree (.node default head (es.map Expr.reread)) = tree (.node span head es) ↔
          Keeps head (es.map Expr.head) ∧ ∀ e ∈ es, e.Everywhere Keeps := by
      rw [hf.node _ _ _ _ _ hconst h (Head.alike_of_eq hheads), hoperands]
      exact (and_iff_right fun s v hs => absurd hs (hbeside s v)).symm
    rw [Expr.everywhere_node, Expr.reread_node]
    by_cases hne : ∀ c, head ≠ .comparison c
    · rw [Head.settle_of_ne hne]
      by_cases hconst : ∃ v, head = .constant v
      · obtain ⟨v, rfl⟩ := hconst
        obtain rfl := h.eq_nil rfl
        have hkept := (hf.literal default span v.reread v).2 v.reread_reread
        exact iff_of_true hkept ⟨fun s w hs => (nomatch hs), by simp⟩
      · have hconst' := not_exists.1 hconst
        rw [Head.reread_of_ne hconst']
        exact hsame hconst' (Sound.heads_reread (h.readable_of_ne hne))
          fun s v => not_beside_of_ne hne
    · obtain ⟨c, rfl⟩ : ∃ c, head = .comparison c := by simpa using hne
      have hsound := h
      generalize hheads : es.map Expr.head = heads at h
      cases h with
      | comparison _ hab hba ha hb =>
        obtain ⟨e, f, rfl, rfl, rfl⟩ := Sound.map_eq_pair hheads
        have hread : ∀ x ∈ [e, f].map Expr.head, x.Readable := by simpa using ⟨ha, hb⟩
        have hheads' := Sound.heads_reread hread
        have hsettle : (Head.comparison c).settle [e.reread, f.reread] = [e.reread, f.reread] := by
          simp only [List.map_cons, List.map_nil, List.cons.injEq, and_true] at hheads'
          exact Head.settle_comparison (by rwa [hheads'.1, hheads'.2])
            (by rwa [hheads'.1, hheads'.2])
        rw [List.map_cons, List.map_singleton, hsettle]
        exact hsame (by simp) hheads' fun s v => not_beside_comparison hab hba
      | @signalLiteral _ _ s v =>
        obtain ⟨e, f, rfl, he, hv⟩ := Sound.map_eq_pair hheads
        have hsettle : (Head.comparison c).settle ([e, f].map Expr.reread) =
            [e.reread, .constant (s.settled (s.settled v).reread) default] := by
          simp [Head.settle, he, hv, Head.reread]
        have hsignal : e.reread.head = e.head := by simp [he, Head.reread]
        rw [hsettle]
        refine (hf.comparison_iff hsound (.inl hsignal) (.inr ⟨⟨c, rfl⟩, _, _, rfl, hv⟩)).trans ?_
        rw [ih e (by simp), hf.literal_iff (hes f (by simp)) hv, Keeps, forall_beside_signalLiteral]
        simp [everywhere_keeps_literal (hes f (by simp)) hv, Signal.Keeps, and_comm]
      | @literalSignal _ _ s v =>
        obtain ⟨e, f, rfl, hv, hs⟩ := Sound.map_eq_pair hheads
        have hsettle : (Head.comparison c).settle ([e, f].map Expr.reread) =
            [.constant (s.settled (s.settled v).reread) default, f.reread] := by
          simp [Head.settle, hv, hs, Head.reread]
        have hsignal : f.reread.head = f.head := by simp [hs, Head.reread]
        rw [hsettle]
        refine (hf.comparison_iff hsound (.inr ⟨⟨c, rfl⟩, _, _, rfl, hv⟩) (.inl hsignal)).trans ?_
        rw [ih f (by simp), hf.literal_iff (hes e (by simp)) hv, Keeps, forall_beside_literalSignal]
        simp [everywhere_keeps_literal (hes e (by simp)) hv, Signal.Keeps]

/-- Spans do not matter. -/
theorem erase (hf : Faithful ctx tree) {e : Expr} (h : e.Everywhere (Sound ctx)) :
    tree e.erase = tree e := by
  induction h with
  | @node span head es h _ ih =>
    rw [Expr.erase_node]
    by_cases hconst : ∃ v, head = .constant v
    · obtain ⟨v, rfl⟩ := hconst
      obtain rfl := h.eq_nil rfl
      exact (hf.literal default span v v).2 rfl
    · have hheads : (es.map Expr.erase).map Expr.head = es.map Expr.head := by
        simp [Function.comp_def]
      refine (hf.node _ _ _ _ _ (not_exists.1 hconst) h (Head.alike_of_eq hheads)).2 ?_
      rw [List.map_map]
      exact List.map_congr_left ih

end Faithful

/-! ### Terms and phrases are faithful -/

/-- Literals that are written alike are read back alike. -/
theorem Value.reread_eq_of_pieces {v w : Value} (h : v.pieces = w.pieces) :
    v.reread = w.reread := by
  cases v with
  | unset | string => cases w <;> simp_all [pieces, reread]
  | number m =>
    cases w with
    | unset | string => simp [pieces] at h
    | number n =>
      have htext : m.text = n.text := by simpa [pieces] using h
      rw [Fixed.digits_injective (String.ofList_injective htext)]

theorem Value.pieces_term (v : Value) : v.term.pieces = v.pieces := by
  cases v <;> rfl

/-- A term tells the terms of the operands. -/
theorem faithful_term (ctx : Context) : Faithful ctx Expr.term where
  literal span span' v w := by
    simp only [Expr.term_node, Head.term]
    constructor
    · intro h
      exact Value.reread_eq_of_pieces (by rw [← v.pieces_term, ← w.pieces_term, h])
    · intro h
      have hv : v.reread.term = v.term := by cases v <;> rfl
      have hw : w.reread.term = w.term := by cases w <;> rfl
      rw [← hv, ← hw, h]
  node span span' head es es' hconst h halike := by
    simp only [Expr.term_node]
    have hleaf (hleaf : head.isLeaf) : es = [] ∧ es' = [] := by
      obtain rfl := h.eq_nil hleaf
      simpa using halike
    cases head with
    | constant v => exact absurd rfl (hconst v)
    | symbol name => cases h
    | signal | presence =>
      obtain ⟨rfl, rfl⟩ := hleaf rfl
      simp
    | _ => simp [Head.term]

theorem Phrase.grouped_inj {b : Bool} {p q : Phrase} : p.grouped b = q.grouped b ↔ p = q := by
  cases b <;> simp [grouped]

/-- Chains of the same length are told apart by their steps. -/
theorem Phrase.chain_inj {p q : Phrase} {ss ts : List (Operator × Phrase)}
    (hlength : ss.length = ts.length) : chain p ss = chain q ts ↔ p = q ∧ ss = ts := by
  induction ss generalizing p q ts with
  | nil =>
    obtain rfl : ts = [] := List.length_eq_zero_iff.1 hlength.symm
    simp [chain]
  | cons s ss ih =>
    cases ts with
    | nil => simp at hlength
    | cons t ts =>
      have hchain : chain p (s :: ss) = chain q (t :: ts) ↔
          chain (binary s.1 p s.2) ss = chain (binary t.1 q t.2) ts := Iff.rfl
      rw [hchain, ih (by simpa using hlength)]
      simp only [binary.injEq, List.cons.injEq, Prod.ext_iff]
      tauto

/-- Operands that are grouped alike make equal chains if they are equal. -/
theorem Operator.chainPhrase_inj {op : Operator} {ps qs : List (Head × Phrase)}
    (h : List.Forall₂ (fun p q => ∀ b, op.groupsOperand b p.1 = op.groupsOperand b q.1) ps qs) :
    op.chainPhrase ps = op.chainPhrase qs ↔ ps.map Prod.snd = qs.map Prod.snd := by
  cases h with
  | nil => simp
  | @cons p q ps qs hfirst hrest =>
    have hsteps : (ps.map fun x => (op, x.2.grouped (op.groupsOperand false x.1))) =
        (qs.map fun x => (op, x.2.grouped (op.groupsOperand false x.1))) ↔
          ps.map Prod.snd = qs.map Prod.snd := by
      clear hfirst
      induction hrest with
      | nil => simp
      | cons hx _ ih => simp [hx, Phrase.grouped_inj, ih]
    have hlength := hrest.length_eq
    rw [chainPhrase, chainPhrase, Phrase.chain_inj (by simpa using hlength), hsteps, hfirst,
      Phrase.grouped_inj]
    simp

section Phrases

variable {ctx : Context} {head : Head} {es es' : List Expr}
  (halike : List.Forall₂ head.Alike (es'.map Expr.head) (es.map Expr.head))

include halike

theorem chainPhrase_iff (op : Operator) :
    op.chainPhrase (es'.map fun e => (e.head, e.phrase)) =
        op.chainPhrase (es.map fun e => (e.head, e.phrase)) ↔
      es'.map Expr.phrase = es.map Expr.phrase := by
  rw [Operator.chainPhrase_inj]
  · simp [Function.comp_def]
  · rw [List.forall₂_map_left_iff, List.forall₂_map_right_iff] at halike ⊢
    refine halike.imp fun e' e h b => ?_
    rcases h with heq | ⟨-, v, w, hv, hw⟩
    · rw [heq]
    · rw [hv, hw]
      rfl

theorem unaryPhrase_iff (hne : ∀ c, head ≠ .comparison c) (op : Operator)
    (hlength : es.length = 1) :
    op.unaryPhrase (es'.map fun e => (e.head, e.phrase)) =
        op.unaryPhrase (es.map fun e => (e.head, e.phrase)) ↔
      es'.map Expr.phrase = es.map Expr.phrase := by
  obtain ⟨e, rfl⟩ := List.length_eq_one_iff.1 hlength
  obtain ⟨e', rfl⟩ : ∃ e', es' = [e'] := by
    simpa [List.length_eq_one_iff] using halike.length_eq
  have hhead : e'.head = e.head := by
    obtain heq | ⟨⟨c, hc⟩, -⟩ : head.Alike e'.head e.head := by simpa using halike
    · exact heq
    · exact absurd hc (hne c)
  simp [Operator.unaryPhrase, hhead, Phrase.grouped_inj]

end Phrases

/-- A phrase tells the phrases of the operands. -/
theorem faithful_phrase (ctx : Context) : Faithful ctx Expr.phrase where
  literal span span' v w := by
    simp only [Expr.phrase_node, Head.phrase]
    constructor
    · intro h
      exact Value.reread_eq_of_pieces (by rw [← v.pieces_phrase, ← w.pieces_phrase, h])
    · intro h
      have hv : v.reread.phrase = v.phrase := by cases v <;> rfl
      have hw : w.reread.phrase = w.phrase := by cases w <;> rfl
      rw [← hv, ← hw, h]
  node span span' head es es' hconst h halike := by
    simp only [Expr.phrase_node]
    have hleaf (hleaf : head.isLeaf) : es = [] ∧ es' = [] := by
      obtain rfl := h.eq_nil hleaf
      simpa using halike
    have hcall (op : Operator) :
        Phrase.call op ((es'.map fun e => (e.head, e.phrase)).map Prod.snd) =
            .call op ((es.map fun e => (e.head, e.phrase)).map Prod.snd) ↔
          es'.map Expr.phrase = es.map Expr.phrase := by
      simp [Function.comp_def]
    cases head with
    | constant v => exact absurd rfl (hconst v)
    | symbol name => cases h
    | signal | presence =>
      obtain ⟨rfl, rfl⟩ := hleaf rfl
      simp
    | action a once => simp [Head.phrase, Function.comp_def]
    | comparison op => cases op <;> exact chainPhrase_iff halike _
    | connective op =>
      have haccepts := h.count (.connective op) rfl
      cases op with
      | not =>
        have hlength : es.length = 1 := by
          simpa [Head.operandCount, Operator.arity] using haccepts
        exact (iff_of_eq (Phrase.not.injEq ..)).trans
          (unaryPhrase_iff halike (by simp) (.connective .not) hlength)
      | and | or => exact chainPhrase_iff halike _
    | arithmetic op =>
      have haccepts := h.count (.arithmetic op) rfl
      cases op with
      | neg =>
        have hlength : es.length = 1 := by
          simpa [Head.operandCount, Operator.arity] using haccepts
        exact (iff_of_eq (Phrase.minus.injEq ..)).trans
          (unaryPhrase_iff halike (by simp) (.arithmetic .neg) hlength)
      | min | max | round => exact hcall _
      | add | sub | mul | div | mod => exact chainPhrase_iff halike _
    | concat => exact hcall _
    | property mode p => simp [Head.phrase, Function.comp_def]

/-- Canonical text does not depend on spans. -/
theorem Expr.write_erase {ctx : Context} {e : Expr} (h : e.Everywhere (Sound ctx)) (g : Grammar) :
    e.erase.write g = e.write g := by
  cases g with
  | polish =>
    rw [write, write, pieces, pieces, ← pieces_term, ← pieces_term, (faithful_term ctx).erase h]
  | algebraic =>
    rw [write, write, pieces, pieces, ← pieces_phrase h, ← pieces_phrase (everywhere_erase.2 h),
      (faithful_phrase ctx).erase h]

/-- An expression is read back with the same text exactly if every node keeps its text. -/
theorem Expr.write_reread_iff {ctx : Context} {e : Expr} (hkeyed : ctx.host.Keyed)
    (h : e.Everywhere (Sound ctx)) (hreread : e.reread.Everywhere (Sound ctx)) :
    e.reread.write ctx.grammar = e.write ctx.grammar ↔ e.Everywhere Keeps := by
  have hspells := spells_write hkeyed h
  have hspells' := spells_write hkeyed hreread
  cases hg : ctx.grammar with
  | polish =>
    rw [hg] at hspells hspells'
    rw [← (faithful_term ctx).reread_iff h]
    constructor
    · intro htext
      rw [htext] at hspells'
      exact Polish.eq_of_yield_eq (hspells'.unique hspells)
    · intro hterm
      rw [write, write, pieces, pieces, ← pieces_term, ← pieces_term, hterm]
  | algebraic =>
    rw [hg] at hspells hspells'
    rw [← (faithful_phrase ctx).reread_iff h]
    constructor
    · intro htext
      rw [htext] at hspells'
      exact Algebraic.eq_of_yield_eq (isPlaced hreread).respects (isPlaced h).respects
        (hspells'.unique hspells)
    · intro hphrase
      rw [write, write, pieces, pieces, ← pieces_phrase h, ← pieces_phrase hreread, hphrase]

end SignalRules
