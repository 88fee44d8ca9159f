import SignalRules.Proofs.Anchoring
import SignalRules.Proofs.Polish.Term

/-!
# Terms stand at their tokens

The tokens of a term are read as an expression that is anchored at them, and what follows is left.
The proof follows the term: a form is read behind its parenthesis operand by operand, and its node
spans the tokens from one parenthesis to the other.

## Main results

* `Polish.exists_anchored`: the tokens of a term are read as an anchored expression.
-/

namespace SignalRules

namespace Polish

variable {ctx : Context} {finish : Nat} {opening closing : Span} {e : Expr} {es : List Expr}
  {us rest rest' : List Token}

/-! ### What the readers give -/

theorem gives_operands_nil {c : Token} (hc : c.lexeme = .symbol ')') (rest : List Token) :
    Gives (operands ctx finish opening (c :: rest)) ([], c.span) rest := by
  rw [operands, if_pos (Token.isSymbol_iff.2 hc)]
  exact ⟨_, rfl⟩

theorem gives_operands_cons {u : Token} (hu : u.lexeme ≠ .symbol ')')
    (hfirst : Gives (expression ctx finish (u :: us)) e rest)
    (hrest : Gives (operands ctx finish opening rest) (es, closing) rest') :
    Gives (operands ctx finish opening (u :: us)) (e :: es, closing) rest' := by
  obtain ⟨hshort, hfirst⟩ := hfirst
  obtain ⟨hshort', hrest⟩ := hrest
  rw [operands, if_neg (mt Token.isSymbol_iff.1 hu), hfirst, ok_bind]
  dsimp only
  rw [hrest]
  exact ⟨_, rfl⟩

theorem gives_form {o k : Token} (ho : o.lexeme = .symbol '(') {op : Operator}
    (hk : k.lexeme = ⟨.keyword, op.keyword⟩)
    (hoperands : Gives (operands ctx finish o.span us) (es, closing) rest)
    (happly : ctx.apply op es (o.span.merge closing) = .ok e) :
    Gives (expression ctx finish (o :: k :: us)) e rest := by
  obtain ⟨hshort, hoperands⟩ := hoperands
  obtain ⟨hkind, htext⟩ := Lexeme.mk.inj hk
  have hsymbol : o.kind = .symbol := congrArg Lexeme.kind ho
  rw [expression, hsymbol]
  dsimp only
  rw [if_pos (Token.isSymbol_iff.2 ho), form, if_pos hkind, htext, ofKeyword?_keyword]
  dsimp only
  rw [hoperands, ok_bind]
  dsimp only
  rw [happly]
  exact ⟨_, rfl⟩

/-! ### Terms -/

theorem stands_of_gives (hgrammar : ctx.grammar = .polish) (hull : Hull us e.span)
    (h : ∀ m finish rest,
      Gives (expression ctx finish (us.map (Token.move m) ++ rest)) (e.move m) rest) :
    Stands ctx us e := by
  refine ⟨hull, fun m finish => ?_⟩
  have hread := h m finish []
  rw [List.append_nil] at hread
  simpa only [Context.expression, hgrammar] using hread

/-- The tokens of a term that can be built are read as an expression that is anchored at them, and
what follows is left. -/
def Standing (ctx : Context) (t : Term) : Prop :=
  ∀ {us : List Token} {x : Expr}, us.map Token.lexeme = t.yield → t.build ctx = .ok x →
    InOrder us → ∃ e, e.erase = x ∧ Anchored ctx us e ∧ ∀ m finish rest,
      Gives (expression ctx finish (us.map (Token.move m) ++ rest)) (e.move m) rest

/-- A term of one token, which becomes a node without operands. -/
theorem standing_token (hgrammar : ctx.grammar = .polish) {t : Term} {y : Lexeme}
    (hyield : t.yield = [y])
    (h : ∀ (u : Token) (x : Expr), u.lexeme = y → t.build ctx = .ok x → ∃ e : Expr, e.erase = x ∧
      e.span = u.span ∧ e.operands = [] ∧ ∀ m finish rest,
        Gives (expression ctx finish (u.move m :: rest)) (e.move m) rest) : Standing ctx t := by
  intro us x hus hx _
  obtain ⟨u, rfl, hu⟩ := List.map_eq_singleton_iff.1 (hus.trans hyield)
  obtain ⟨e, herase, hspan, hoperands, hgives⟩ := h u x hu hx
  have hull : Hull [u] e.span := hspan ▸ .singleton u
  exact ⟨e, herase, .leaf (stands_of_gives hgrammar hull hgives) hoperands, hgives⟩

theorem standing_number (hgrammar : ctx.grammar = .polish) (digits : String) :
    Standing ctx (.number digits) := by
  refine standing_token hgrammar rfl fun u x hu hx => ?_
  obtain ⟨hkind, rfl⟩ := Lexeme.mk.inj hu
  obtain ⟨e, he, rfl⟩ :=
    unplaced_eq_ok_iff.1 ((Context.unplaced_number u.text u.span default).trans hx)
  obtain ⟨n, hn, rfl⟩ := Context.number_eq_ok_iff.1 he
  refine ⟨_, rfl, rfl, rfl, fun m finish rest => ?_⟩
  have hkind' : (u.move m).kind = .number := hkind
  have hread : Context.number (u.move m).text (u.move m).span = .ok _ := Context.number_move m he
  rw [expression, hkind']
  dsimp only
  rw [hread]
  exact ⟨_, rfl⟩

theorem standing_text (hgrammar : ctx.grammar = .polish) (content : String) :
    Standing ctx (.text content) := by
  refine standing_token hgrammar rfl fun u x hu hx => ?_
  obtain ⟨hkind, rfl⟩ := Lexeme.mk.inj hu
  cases hx
  refine ⟨.constant (.string u.text) u.span, by simp, rfl, rfl, fun m finish rest => ?_⟩
  have hkind' : (u.move m).kind = .string := hkind
  rw [expression, hkind', Expr.move_constant]
  exact ⟨_, rfl⟩

theorem standing_name (hgrammar : ctx.grammar = .polish) (n : String) :
    Standing ctx (.name n) := by
  refine standing_token hgrammar rfl fun u x hu hx => ?_
  obtain ⟨hkind, rfl⟩ := Lexeme.mk.inj hu
  cases hx
  refine ⟨.symbol u.text u.span, by simp, rfl, rfl, fun m finish rest => ?_⟩
  have hkind' : (u.move m).kind = .identifier := hkind
  rw [expression, hkind', Expr.move_symbol]
  exact ⟨_, rfl⟩

/-- Operands that stand one by one are read together, up to the closing parenthesis. -/
theorem exists_operands {ts : List Term} (ih : ∀ t ∈ ts, Standing ctx t) {us : List Token}
    {xs : List Expr} (hus : us.map Token.lexeme = Term.yieldAll ts)
    (hxs : Term.buildAll ctx ts = .ok xs) (horder : InOrder us) :
    ∃ es, es.map Expr.erase = xs ∧ AnchoredList ctx us es ∧ ∀ m finish opening (c : Token) rest,
      c.lexeme = .symbol ')' →
        Gives (operands ctx finish opening (us.map (Token.move m) ++ c :: rest))
          (es.map (Expr.move m), c.span) rest := by
  induction ts generalizing us xs with
  | nil =>
    obtain rfl := List.map_eq_nil_iff.1 hus
    cases hxs
    exact ⟨[], rfl, .nil, fun m finish opening c rest hc => gives_operands_nil hc rest⟩
  | cons t ts ihs =>
    obtain ⟨vs, ws, rfl, hvs, hws⟩ := List.map_eq_append_iff.1 hus
    obtain ⟨x, hx, hxs⟩ := bind_eq_ok_iff.1 hxs
    obtain ⟨xs', hxs', hxs⟩ := bind_eq_ok_iff.1 hxs
    cases hxs
    obtain ⟨ht, hts⟩ := List.forall_mem_cons.1 ih
    have hvs' : InOrder vs := horder.mono (List.prefix_append vs ws).isInfix
    have hws' : InOrder ws := horder.mono (List.suffix_append vs ws).isInfix
    obtain ⟨e, rfl, he, hread⟩ := ht hvs hx hvs'
    obtain ⟨es, rfl, hes, hreads⟩ := ihs hts hws hxs' hws'
    have hlist : AnchoredList ctx (vs ++ [] ++ ws) (e :: es) :=
      .cons (by simpa using horder) he hes
    refine ⟨e :: es, rfl, by simpa using hlist, fun m finish opening c rest hc => ?_⟩
    -- No term starts with a closing parenthesis, so the first token does not end the operands.
    obtain ⟨y, ys, hy, hne⟩ := t.yield_eq_cons
    obtain ⟨v, vs, rfl, hv, -⟩ := List.map_eq_cons_iff.1 (hvs.trans hy)
    have hfirst := hread m finish (ws.map (Token.move m) ++ c :: rest)
    rw [List.map_append, List.append_assoc]
    exact gives_operands_cons (hv ▸ hne) hfirst (hreads m finish opening c rest hc)

theorem standing_form (hgrammar : ctx.grammar = .polish) (op : Operator) {args : List Term}
    (ih : ∀ t ∈ args, Standing ctx t) : Standing ctx (.form op args) := by
  intro us x hus hx horder
  obtain ⟨o, us, rfl, ho, hus⟩ := List.map_eq_cons_iff.1 hus
  obtain ⟨k, us, rfl, hk, hus⟩ := List.map_eq_cons_iff.1 hus
  obtain ⟨vs, ws, rfl, hvs, hws⟩ := List.map_eq_append_iff.1 hus
  obtain ⟨c, rfl, hc⟩ := List.map_eq_singleton_iff.1 hws
  obtain ⟨xs, hxs, hx⟩ := bind_eq_ok_iff.1 hx
  have hpart : vs <:+: o :: k :: (vs ++ [c]) := ⟨[o, k], [c], rfl⟩
  obtain ⟨es, rfl, hes, hreads⟩ := exists_operands ih hvs hxs (horder.mono hpart)
  obtain ⟨e, happly, rfl⟩ :=
    unplaced_eq_ok_iff.1 ((ctx.unplaced_apply op es (o.span.merge c.span) default).trans hx)
  have hgives (m : Relocation) (finish : Nat) (rest : List Token) :
      Gives (expression ctx finish ((o :: k :: (vs ++ [c])).map (Token.move m) ++ rest))
        (e.move m) rest := by
    have hmoved := Context.apply_move m happly
    rw [m.place_merge] at hmoved
    have hoperands := hreads m finish (o.move m).span (c.move m) rest hc
    have htokens : (o :: k :: (vs ++ [c])).map (Token.move m) ++ rest =
        o.move m :: k.move m :: (vs.map (Token.move m) ++ c.move m :: rest) := by simp
    rw [htokens]
    exact gives_form ho hk hoperands hmoved
  have hmerge : Hull ([o] ++ (k :: vs) ++ [c]) (o.span.merge c.span) :=
    .merge horder (.singleton o) (.singleton c)
  have hull : Hull (o :: k :: (vs ++ [c])) e.span := Context.span_of_apply happly ▸ hmerge
  exact ⟨e, rfl, .apply horder hpart hes happly (stands_of_gives hgrammar hull hgives), hgives⟩

/-- The tokens of a term are read as an expression that is anchored at them. -/
theorem exists_anchored (hgrammar : ctx.grammar = .polish) (t : Term) : Standing ctx t := by
  induction t with
  | number digits => exact standing_number hgrammar digits
  | text content => exact standing_text hgrammar content
  | name n => exact standing_name hgrammar n
  | form op args ih => exact standing_form hgrammar op ih

end Polish

end SignalRules
