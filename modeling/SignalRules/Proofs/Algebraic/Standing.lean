import SignalRules.Proofs.Algebraic.Climbing
import SignalRules.Proofs.Anchoring

/-!
# Phrases stand at their tokens

The tokens of a phrase that respects precedence are read as an expression that is anchored at them,
and what follows extends it. This is what `readExpression_yield` says of lexemes, with the places
that the readers put together; which way the readers go depends on lexemes only, so the conditions
on what may follow a phrase are the same.

## Main definitions

* `Algebraic.ReadsAt`: the tokens of a phrase are read as an expression, wherever they are moved to.

## Main results

* `Algebraic.exists_anchored`: the tokens of a phrase are read as an anchored expression.
-/

namespace SignalRules.Algebraic

variable {ctx : Context} {finish least : Nat} {closing : Span} {a b e : Expr} {es : List Expr}
  {us rest rest' : List Token} {t c : Token}

/-! ### What the readers give -/

theorem gives_expectSymbol (finish : Nat) {d : Char} (ht : t.lexeme = .symbol d)
    (x : Expectation) (rest : List Token) :
    Gives (expectSymbol d x finish (t :: rest)) t.span rest := by
  rw [expectSymbol, if_pos (Token.isSymbol_iff.2 ht)]
  exact ⟨_, rfl⟩

theorem exists_error_of_expectSymbol (finish : Nat) {d : Char} (ht : t.lexeme ≠ .symbol d)
    (x : Expectation) (rest : List Token) :
    ∃ err, expectSymbol d x finish (t :: rest) = .error err := by
  rw [expectSymbol, if_neg (mt Token.isSymbol_iff.1 ht)]
  exact ⟨_, rfl⟩

theorem binary?_eq_token (t : Token) : binary? t = binary? t.lexeme.token := binary?_congr rfl

theorem unary?_eq_token (t : Token) : unary? t = unary? t.lexeme.token := unary?_congr rfl

theorem gives_expression (hunary : Gives (unary ctx finish us) a rest)
    (hclimb : GivesKept (climb ctx finish least a rest) e rest') :
    Gives (expression ctx finish least us) e rest' := by
  obtain ⟨hshort, hunary⟩ := hunary
  obtain ⟨hshort', hclimb⟩ := hclimb
  rw [expression, hunary, ok_bind]
  dsimp only
  rw [hclimb]
  exact ⟨_, rfl⟩

/-- An operand is not extended if the operator behind it binds too loosely. -/
theorem givesKept_of_stops (h : Stops least (rest.map Token.lexeme)) :
    GivesKept (climb ctx finish least a rest) a rest := by
  cases rest with
  | nil =>
    rw [climb]
    exact ⟨_, rfl⟩
  | cons t rest =>
    have hstops := h t.lexeme rfl
    rw [climb, binary?_eq_token]
    cases hop : binary? t.lexeme.token with
    | none => exact ⟨_, rfl⟩
    | some op =>
      dsimp only
      rw [if_pos (hstops op hop)]
      exact ⟨_, rfl⟩

theorem givesKept_cons {op : Operator} {d : Expr} (hop : op.isBinary) (ht : t.lexeme = op.lexeme)
    (hle : least ≤ op.precedence)
    (hright : Gives (expression ctx finish (op.precedence + 1) us) b rest)
    (happly : ctx.apply op [a, b] (a.span.merge b.span) = .ok d)
    (hclimb : GivesKept (climb ctx finish least d rest) e rest') :
    GivesKept (climb ctx finish least a (t :: us)) e rest' := by
  obtain ⟨hshort, hright⟩ := hright
  obtain ⟨hshort', hclimb⟩ := hclimb
  rw [climb, binary?_eq_token, ht, binary?_lexeme op hop]
  dsimp only
  rw [if_neg (Nat.not_lt.2 hle), hright, ok_bind]
  dsimp only
  rw [happly, ok_bind, hclimb]
  exact ⟨_, rfl⟩

theorem gives_unary_of_primary (ht : unary? t.lexeme.token = none)
    (h : Gives (primary ctx finish (t :: us)) e rest) :
    Gives (unary ctx finish (t :: us)) e rest := by
  rwa [unary, unary?_eq_token, ht]

theorem gives_unary_negative {n : Token} (ht : t.lexeme = .symbol '-') (hn : n.kind = .number)
    (he : Context.number ("-" ++ n.text) (t.span.merge n.span) = .ok e) :
    Gives (unary ctx finish (t :: n :: rest)) e rest := by
  have hneg : unary? t = some (.arithmetic .neg) := by
    rw [unary?_eq_token, ht]
    decide
  rw [unary, hneg]
  dsimp only
  simp only [negatedNumber?, hn, and_self, if_true, Taken.first]
  rw [he]
  exact ⟨_, rfl⟩

theorem gives_unary_operator {op : Operator} (ht : unary? t.lexeme.token = some op)
    (hus : op = .arithmetic .neg → ∀ u ∈ us.head?, u.kind ≠ .number)
    (hoperand : Gives (expression ctx finish op.operandPrecedence us) a rest)
    (happly : ctx.apply op [a] (t.span.merge a.span) = .ok e) :
    Gives (unary ctx finish (t :: us)) e rest := by
  obtain ⟨hshort, hoperand⟩ := hoperand
  have hnone : negatedNumber? op us = none := by
    cases us with
    | nil => rfl
    | cons u us =>
      rw [negatedNumber?, if_neg]
      rintro ⟨hop, hu⟩
      exact hus hop u rfl hu
  rw [unary, unary?_eq_token, ht]
  dsimp only
  rw [hnone]
  dsimp only
  rw [hoperand, ok_bind]
  dsimp only
  rw [happly]
  exact ⟨_, rfl⟩

theorem gives_group (ht : t.lexeme = .symbol '(') (hc : c.lexeme = .symbol ')')
    (hinner : Gives (expression ctx finish 0 us) e (c :: rest)) :
    Gives (primary ctx finish (t :: us)) (e.withSpan (t.span.merge c.span)) rest := by
  obtain ⟨hshort, hinner⟩ := hinner
  obtain ⟨hshort', hclose⟩ := gives_expectSymbol finish hc .closeParen rest
  have hkind : t.kind = .symbol := congrArg Lexeme.kind ht
  rw [primary, hkind]
  dsimp only
  rw [if_pos (Token.isSymbol_iff.2 ht), hinner, ok_bind]
  dsimp only
  rw [hclose]
  exact ⟨_, rfl⟩

theorem gives_call {op : Operator} (ht : t.kind = .keyword)
    (hop : Operator.ofCall? t.text = some op)
    (hargs : Gives (arguments ctx finish (takesNames op) us) (es, closing) rest)
    (happly : ctx.apply op es (t.span.merge closing) = .ok e) :
    Gives (primary ctx finish (t :: us)) e rest := by
  obtain ⟨hshort, hargs⟩ := hargs
  rw [primary, ht]
  dsimp only
  rw [hop]
  dsimp only
  rw [hargs, ok_bind]
  dsimp only
  rw [happly]
  exact ⟨_, rfl⟩

theorem gives_invoke (ht : t.kind = .identifier) (hus : startsWith '(' us)
    (hargs : Gives (arguments ctx finish false us) (es, closing) rest)
    (haction : ctx.action t.text es (t.span.merge closing) = .ok e) :
    Gives (primary ctx finish (t :: us)) e rest := by
  obtain ⟨hshort, hargs⟩ := hargs
  rw [primary, ht]
  dsimp only
  rw [if_pos hus, hargs, ok_bind]
  dsimp only
  rw [haction]
  exact ⟨_, rfl⟩

theorem startsWith_iff {d : Char} :
    startsWith d us ↔ (us.map Token.lexeme).head? = some (.symbol d) := by
  cases us <;> simp [startsWith, Token.isSymbol_iff]

theorem gives_signal (ht : t.kind = .identifier)
    (hrest : (rest.map Token.lexeme).head? ≠ some (.symbol '('))
    (he : ctx.signal t.text t.span = .ok e) :
    Gives (primary ctx finish (t :: rest)) e rest := by
  rw [primary, ht]
  dsimp only
  rw [if_neg (mt startsWith_iff.1 hrest), he]
  exact ⟨_, rfl⟩

theorem gives_arguments_nil (ht : t.lexeme = .symbol '(') (hc : c.lexeme = .symbol ')')
    (names : Bool) (rest : List Token) :
    Gives (arguments ctx finish names (t :: c :: rest)) ([], c.span) rest := by
  obtain ⟨hshort, hopen⟩ := gives_expectSymbol finish ht .openParen (c :: rest)
  obtain ⟨hshort', hclose⟩ := gives_expectSymbol finish hc .closeParen rest
  rw [arguments, hopen, ok_bind]
  dsimp only
  rw [hclose]
  exact ⟨_, rfl⟩

/-- Arguments that do not start with a closing parenthesis are read one by one. -/
theorem gives_arguments {u : Token} {names : Bool} {found : List Expr × Span}
    (ht : t.lexeme = .symbol '(') (hu : u.lexeme ≠ .symbol ')')
    (hitems : Gives (items ctx finish names (u :: us)) found rest) :
    Gives (arguments ctx finish names (t :: u :: us)) found rest := by
  obtain ⟨hshort, hitems⟩ := hitems
  obtain ⟨hshort', hopen⟩ := gives_expectSymbol finish ht .openParen (u :: us)
  obtain ⟨err, herr⟩ := exists_error_of_expectSymbol finish hu .closeParen us
  rw [arguments, hopen, ok_bind]
  dsimp only
  rw [herr]
  dsimp only
  rw [hitems]
  exact ⟨_, rfl⟩

theorem gives_items_last {names : Bool} (hc : c.lexeme = .symbol ')')
    (hfirst : Gives (if names then bareName finish us else expression ctx finish 0 us) e
      (c :: rest)) :
    Gives (items ctx finish names us) ([e], c.span) rest := by
  obtain ⟨hshort, hfirst⟩ := hfirst
  have hne : c.lexeme ≠ .symbol ',' := by
    rw [hc]
    decide
  obtain ⟨err, herr⟩ := exists_error_of_expectSymbol finish hne .commaOrClose rest
  obtain ⟨hshort', hclose⟩ := gives_expectSymbol finish hc .commaOrClose rest
  rw [items]
  split_ifs at hfirst ⊢
  all_goals
    rw [hfirst, ok_bind]
    dsimp only
    rw [herr]
    dsimp only
    rw [hclose]
    exact ⟨_, rfl⟩

theorem gives_items_more {names : Bool} {k : Token} (hk : k.lexeme = .symbol ',')
    (hfirst : Gives (if names then bareName finish us else expression ctx finish 0 us) e
      (k :: rest))
    (hrest : Gives (items ctx finish names rest) (es, closing) rest') :
    Gives (items ctx finish names us) (e :: es, closing) rest' := by
  obtain ⟨hshort, hfirst⟩ := hfirst
  obtain ⟨hshort', hrest⟩ := hrest
  obtain ⟨hshort'', hcomma⟩ := gives_expectSymbol finish hk .commaOrClose rest
  rw [items]
  split_ifs at hfirst ⊢
  all_goals
    rw [hfirst, ok_bind]
    dsimp only
    rw [hcomma]
    dsimp only
    rw [hrest]
    exact ⟨_, rfl⟩

/-! ### Phrases -/

/-- The tokens of a phrase, wherever they are moved to, are read as the expression, and what follows
extends it. -/
def ReadsAt (ctx : Context) (p : Phrase) (us : List Token) (e : Expr) : Prop :=
  ∀ (m : Relocation) (finish least : Nat) (rest : List Token) (e' : Expr) (rest' : List Token),
    (p.isBinary → least ≤ p.power) → Follows p.power (rest.map Token.lexeme) →
      GivesKept (climb ctx finish least (e.move m) rest) e' rest' →
        Gives (expression ctx finish least (us.map (Token.move m) ++ rest)) e' rest'

/-- An operand that is read whole is extended by what follows. -/
theorem readsAt_of_unary {p : Phrase}
    (h : ∀ (m : Relocation) (finish : Nat) (rest : List Token),
      Follows p.power (rest.map Token.lexeme) →
        Gives (unary ctx finish (us.map (Token.move m) ++ rest)) (e.move m) rest) :
    ReadsAt ctx p us e :=
  fun m finish _ rest _ _ _ hrest hclimb => gives_expression (h m finish rest hrest) hclimb

/-- In front of something that ends it, a phrase is read whole. -/
theorem ReadsAt.gives {p : Phrase} (h : ReadsAt ctx p us e)
    (hleast : p.isBinary → least ≤ p.power) (hrest : Follows p.power (rest.map Token.lexeme))
    (hstops : Stops least (rest.map Token.lexeme)) (m : Relocation) (finish : Nat) :
    Gives (expression ctx finish least (us.map (Token.move m) ++ rest)) (e.move m) rest :=
  h m finish least rest _ _ hleast hrest (givesKept_of_stops hstops)

theorem ReadsAt.gives_symbol {p : Phrase} (h : ReadsAt ctx p us e) {d : Char}
    (hd : d = ',' ∨ d = ')') (hc : c.lexeme = .symbol d) (m : Relocation) (finish : Nat)
    (rest : List Token) :
    Gives (expression ctx finish 0 (us.map (Token.move m) ++ c :: rest)) (e.move m)
      (c :: rest) := by
  refine h.gives (fun _ => Nat.zero_le _) ?_ ?_ m finish
  · rw [List.map_cons, hc]
    exact follows_symbol hd _ _
  · rw [List.map_cons, hc]
    exact stops_symbol hd _ _

theorem stands_of_readsAt (hgrammar : ctx.grammar = .algebraic) {p : Phrase}
    (hull : Hull us e.span) (h : ReadsAt ctx p us e) : Stands ctx us e := by
  refine ⟨hull, fun m finish => ?_⟩
  have hread : Gives (expression ctx finish 0 (us.map (Token.move m) ++ [])) (e.move m) [] :=
    h.gives (fun _ => Nat.zero_le _) (follows_nil _) (by simp [Stops]) m finish
  rw [List.append_nil] at hread
  simpa only [Context.expression, hgrammar] using hread

/-- The tokens of a phrase that can be built are read as an expression that is anchored at them, and
what follows extends it. -/
def Standing (ctx : Context) (p : Phrase) : Prop :=
  ∀ ⦃us : List Token⦄ ⦃x : Expr⦄, us.map Token.lexeme = p.yield → p.build ctx = .ok x →
    InOrder us → ∃ e, e.erase = x ∧ Anchored ctx us e ∧ ReadsAt ctx p us e

/-- A phrase of one token, which becomes a node without operands. -/
theorem standing_token (hgrammar : ctx.grammar = .algebraic) {p : Phrase} {y : Lexeme}
    (hyield : p.yield = [y]) (hy : unary? y.token = none)
    (h : ∀ (u : Token) (x : Expr), u.lexeme = y → p.build ctx = .ok x → ∃ e : Expr, e.erase = x ∧
      e.span = u.span ∧ e.operands = [] ∧ ∀ m finish rest, Follows p.power (rest.map Token.lexeme) →
        Gives (primary ctx finish (u.move m :: rest)) (e.move m) rest) : Standing ctx p := by
  intro us x hus hx _
  obtain ⟨u, rfl, hu⟩ := List.map_eq_singleton_iff.1 (hus.trans hyield)
  obtain ⟨e, herase, hspan, hoperands, hprimary⟩ := h u x hu hx
  have hull : Hull [u] e.span := hspan ▸ .singleton u
  have hread : ReadsAt ctx p [u] e := readsAt_of_unary fun m finish rest hrest =>
    gives_unary_of_primary (hu ▸ hy) (hprimary m finish rest hrest)
  exact ⟨e, herase, .leaf (stands_of_readsAt hgrammar hull hread) hoperands, hread⟩

theorem standing_number (hgrammar : ctx.grammar = .algebraic) (digits : String) :
    Standing ctx (.number digits) := by
  refine standing_token hgrammar rfl (unary?_eq_none_of_kind (by simp) (by simp))
    fun u x hu hx => ?_
  obtain ⟨hkind, rfl⟩ := Lexeme.mk.inj hu
  obtain ⟨e, he, rfl⟩ :=
    unplaced_eq_ok_iff.1 ((Context.unplaced_number u.text u.span default).trans hx)
  obtain ⟨n, hn, rfl⟩ := Context.number_eq_ok_iff.1 he
  refine ⟨_, rfl, rfl, rfl, fun m finish rest _ => ?_⟩
  have hkind' : (u.move m).kind = .number := hkind
  have hread : Context.number (u.move m).text (u.move m).span = .ok _ := Context.number_move m he
  rw [primary, hkind']
  dsimp only
  rw [hread]
  exact ⟨_, rfl⟩

theorem standing_text (hgrammar : ctx.grammar = .algebraic) (content : String) :
    Standing ctx (.text content) := by
  refine standing_token hgrammar rfl (unary?_eq_none_of_kind (by simp) (by simp))
    fun u x hu hx => ?_
  obtain ⟨hkind, rfl⟩ := Lexeme.mk.inj hu
  cases hx
  refine ⟨.constant (.string u.text) u.span, by simp, rfl, rfl, fun m finish rest _ => ?_⟩
  have hkind' : (u.move m).kind = .string := hkind
  rw [primary, hkind', Expr.move_constant]
  exact ⟨_, rfl⟩

theorem standing_signal (hgrammar : ctx.grammar = .algebraic) (name : String) :
    Standing ctx (.signal name) := by
  refine standing_token hgrammar rfl (unary?_eq_none_of_kind (by simp) (by simp))
    fun u x hu hx => ?_
  obtain ⟨hkind, rfl⟩ := Lexeme.mk.inj hu
  obtain ⟨e, he, rfl⟩ :=
    unplaced_eq_ok_iff.1 ((ctx.unplaced_signal u.text u.span default).trans hx)
  obtain ⟨declaration, hs, rfl⟩ := Context.signal_eq_ok_iff.1 he
  refine ⟨_, rfl, rfl, rfl, fun m finish rest hrest => ?_⟩
  exact gives_signal hkind hrest.not_open (Context.signal_move m he)

theorem standing_negative (hgrammar : ctx.grammar = .algebraic) (digits : String) :
    Standing ctx (.negative digits) := by
  intro us x hus hx horder
  obtain ⟨t, us, rfl, ht, hus⟩ := List.map_eq_cons_iff.1 hus
  obtain ⟨n, rfl, hn⟩ := List.map_eq_singleton_iff.1 hus
  obtain ⟨hkind, rfl⟩ := Lexeme.mk.inj hn
  obtain ⟨e, he, rfl⟩ := unplaced_eq_ok_iff.1
    ((Context.unplaced_number ("-" ++ n.text) (t.span.merge n.span) default).trans hx)
  obtain ⟨value, hvalue, rfl⟩ := Context.number_eq_ok_iff.1 he
  have hread : ReadsAt ctx (.negative n.text) [t, n] _ :=
    readsAt_of_unary fun m finish rest _ => by
      have hmoved := Context.number_move m he
      rw [m.place_merge] at hmoved
      exact gives_unary_negative ht hkind hmoved
  have hull : Hull ([t] ++ [] ++ [n]) (t.span.merge n.span) :=
    .merge horder (.singleton t) (.singleton n)
  exact ⟨_, rfl, .leaf (stands_of_readsAt hgrammar hull hread) rfl, hread⟩

/-- Arguments that stand one by one are read together, up to the closing parenthesis. -/
theorem exists_anchoredItems {p : Phrase} {ps : List Phrase} (ih : ∀ q ∈ p :: ps, Standing ctx q)
    {us : List Token} {xs : List Expr}
    (hus : us.map Token.lexeme = Lexeme.listed ((p :: ps).map Phrase.yield))
    (hxs : Phrase.buildAll ctx (p :: ps) = .ok xs) (horder : InOrder us) :
    ∃ es, es.map Expr.erase = xs ∧ AnchoredList ctx us es ∧ ∀ m finish (c : Token) rest,
      c.lexeme = .symbol ')' →
        Gives (items ctx finish false (us.map (Token.move m) ++ c :: rest))
          (es.map (Expr.move m), c.span) rest := by
  induction ps generalizing p us xs with
  | nil =>
    obtain ⟨x, hx, hxs⟩ := bind_eq_ok_iff.1 hxs
    cases hxs
    obtain ⟨e, rfl, he, hread⟩ := ih p (by simp) hus hx horder
    refine ⟨[e], rfl, .singleton he, fun m finish c rest hc => ?_⟩
    exact gives_items_last hc (hread.gives_symbol (.inr rfl) hc m finish rest)
  | cons q qs ihs =>
    obtain ⟨vs, ws, rfl, hvs, hws⟩ := List.map_eq_append_iff.1 hus
    obtain ⟨k, ws, rfl, hk, hws⟩ := List.map_eq_cons_iff.1 hws
    obtain ⟨x, hx, hxs⟩ := bind_eq_ok_iff.1 hxs
    obtain ⟨xs', hxs', hxs⟩ := bind_eq_ok_iff.1 hxs
    cases hxs
    obtain ⟨hp, hqs⟩ := List.forall_mem_cons.1 ih
    have hlast : ws <:+: vs ++ k :: ws := ⟨vs ++ [k], [], by simp⟩
    obtain ⟨e, rfl, he, hread⟩ := hp hvs hx (horder.mono (List.prefix_append vs _).isInfix)
    obtain ⟨es, rfl, hes, hreads⟩ := ihs hqs hws hxs' (horder.mono hlast)
    have hlist : AnchoredList ctx (vs ++ [k] ++ ws) (e :: es) :=
      .cons (by simpa using horder) he hes
    refine ⟨e :: es, rfl, by simpa using hlist, fun m finish c rest hc => ?_⟩
    have hfirst := hread.gives_symbol (c := k.move m) (.inl rfl) hk m finish
      (ws.map (Token.move m) ++ c :: rest)
    have htokens : (vs ++ k :: ws).map (Token.move m) ++ c :: rest =
        vs.map (Token.move m) ++ k.move m :: (ws.map (Token.move m) ++ c :: rest) := by simp
    rw [htokens]
    exact gives_items_more (k := k.move m) hk hfirst (hreads m finish c rest hc)

/-- Names are read one by one, up to the closing parenthesis. -/
theorem exists_placedNames (ctx : Context) {name : String} {names : List String} {us : List Token}
    (hus : us.map Token.lexeme =
      Lexeme.listed ((name :: names).map fun n => [⟨.identifier, n⟩])) :
    ∃ es : List Expr, es.map Expr.erase = (name :: names).map (fun n => .symbol n default) ∧
      ∀ m finish (c : Token) rest, c.lexeme = .symbol ')' →
        Gives (items ctx finish true (us.map (Token.move m) ++ c :: rest))
          (es.map (Expr.move m), c.span) rest := by
  have hname {u : Token} {n : String} (hu : u.lexeme = ⟨.identifier, n⟩) (m : Relocation)
      (finish : Nat) (rest : List Token) :
      Gives (bareName finish (u.move m :: rest)) ((Expr.symbol n u.span).move m) rest := by
    obtain ⟨hkind, rfl⟩ := Lexeme.mk.inj hu
    have hkind' : (u.move m).kind = .identifier := hkind
    rw [bareName, if_pos hkind', Expr.move_symbol]
    exact ⟨_, rfl⟩
  induction names generalizing name us with
  | nil =>
    obtain ⟨u, rfl, hu⟩ := List.map_eq_singleton_iff.1 hus
    refine ⟨[.symbol name u.span], by simp, fun m finish c rest hc => ?_⟩
    exact gives_items_last hc (hname hu m finish (c :: rest))
  | cons next names ih =>
    obtain ⟨u, us, rfl, hu, hus⟩ := List.map_eq_cons_iff.1 hus
    obtain ⟨k, us, rfl, hk, hus⟩ := List.map_eq_cons_iff.1 hus
    obtain ⟨es, hes, hreads⟩ := ih hus
    refine ⟨.symbol name u.span :: es, by simp [hes], fun m finish c rest hc => ?_⟩
    exact gives_items_more (k := k.move m) hk (hname hu m finish _) (hreads m finish c rest hc)

/-- Tokens in parentheses. -/
theorem exists_enclosed {xs : List Lexeme} (hus : us.map Token.lexeme = Lexeme.enclosed xs) :
    ∃ o vs c, us = o :: (vs ++ [c]) ∧ o.lexeme = .symbol '(' ∧ vs.map Token.lexeme = xs ∧
      c.lexeme = .symbol ')' := by
  obtain ⟨o, us, rfl, ho, hus⟩ := List.map_eq_cons_iff.1 hus
  obtain ⟨vs, ws, rfl, hvs, hws⟩ := List.map_eq_append_iff.1 hus
  obtain ⟨c, rfl, hc⟩ := List.map_eq_singleton_iff.1 hws
  exact ⟨o, vs, c, rfl, ho, hvs, hc⟩

/-- Between two parentheses, there are no arguments or they are read one by one. -/
theorem gives_arguments_placed {o : Token} {vs : List Token} {names : Bool}
    {yss : List (List Lexeme)} (ho : o.lexeme = .symbol '(')
    (hvs : vs.map Token.lexeme = Lexeme.listed yss) (hc : c.lexeme = .symbol ')')
    (hyss : ∀ ys ∈ yss, ∃ x xs, ys = x :: xs ∧ x ≠ .symbol ')')
    (h : yss = [] ∧ es = [] ∨ yss ≠ [] ∧ ∀ m finish (c : Token) rest, c.lexeme = .symbol ')' →
      Gives (items ctx finish names (vs.map (Token.move m) ++ c :: rest))
        (es.map (Expr.move m), c.span) rest) (m : Relocation) (finish : Nat) (rest : List Token) :
    Gives (arguments ctx finish names ((o :: (vs ++ [c])).map (Token.move m) ++ rest))
      (es.map (Expr.move m), (c.move m).span) rest := by
  rcases h with ⟨rfl, rfl⟩ | ⟨hne, hitems⟩
  · obtain rfl := List.map_eq_nil_iff.1 hvs
    exact gives_arguments_nil (t := o.move m) (c := c.move m) ho hc names rest
  · obtain ⟨ys, yss, rfl⟩ := List.exists_cons_of_ne_nil hne
    obtain ⟨x, xs, rfl, hx⟩ := hyss ys (by simp)
    obtain ⟨zs, hzs⟩ := listed_cons x xs yss
    obtain ⟨v, vs, rfl, rfl, -⟩ := List.map_eq_cons_iff.1 (hvs.trans hzs)
    have hgives := gives_arguments (t := o.move m) (u := v.move m) ho hx
      (hitems m finish (c.move m) rest hc)
    have htokens : (o :: (v :: vs ++ [c])).map (Token.move m) ++ rest =
        o.move m :: v.move m :: (vs.map (Token.move m) ++ c.move m :: rest) := by simp
    rwa [htokens]

/-- Arguments in parentheses are read together with the parentheses. -/
theorem exists_anchoredArguments {ps : List Phrase} (ih : ∀ q ∈ ps, Standing ctx q)
    {us : List Token} {xs : List Expr}
    (hus : us.map Token.lexeme = Lexeme.enclosed (Lexeme.listed (ps.map Phrase.yield)))
    (hxs : Phrase.buildAll ctx ps = .ok xs) (horder : InOrder us) :
    ∃ o vs c es, us = o :: (vs ++ [c]) ∧ o.lexeme = .symbol '(' ∧ es.map Expr.erase = xs ∧
      AnchoredList ctx vs es ∧ ∀ m finish rest,
        Gives (arguments ctx finish false (us.map (Token.move m) ++ rest))
          (es.map (Expr.move m), (c.move m).span) rest := by
  obtain ⟨o, vs, c, rfl, ho, hvs, hc⟩ := exists_enclosed hus
  have hheads : ∀ ys ∈ ps.map Phrase.yield, ∃ x xs, ys = x :: xs ∧ x ≠ .symbol ')' :=
    List.forall_mem_map.2 fun p _ => p.yield_eq_cons
  cases ps with
  | nil =>
    cases hxs
    exact ⟨o, vs, c, [], rfl, ho, rfl, .nil,
      gives_arguments_placed ho hvs hc hheads (.inl ⟨rfl, rfl⟩)⟩
  | cons p ps =>
    have hpart : vs <:+: o :: (vs ++ [c]) := ⟨[o], [c], rfl⟩
    obtain ⟨es, rfl, hes, hreads⟩ := exists_anchoredItems ih hvs hxs (horder.mono hpart)
    exact ⟨o, vs, c, es, rfl, ho, rfl, hes,
      gives_arguments_placed ho hvs hc hheads (.inr ⟨by simp, hreads⟩)⟩

/-- Names in parentheses are read together with the parentheses. -/
theorem exists_placedArguments (ctx : Context) {names : List String}
    (hus : us.map Token.lexeme =
      Lexeme.enclosed (Lexeme.listed (names.map fun n => [⟨.identifier, n⟩]))) :
    ∃ (o : Token) (vs : List Token) (c : Token) (es : List Expr), us = o :: (vs ++ [c]) ∧
      es.map Expr.erase = names.map (fun n => .symbol n default) ∧ ∀ m finish rest,
        Gives (arguments ctx finish true (us.map (Token.move m) ++ rest))
          (es.map (Expr.move m), (c.move m).span) rest := by
  obtain ⟨o, vs, c, rfl, ho, hvs, hc⟩ := exists_enclosed hus
  have hheads : ∀ ys ∈ names.map fun n => [(⟨.identifier, n⟩ : Lexeme)],
      ∃ x xs, ys = x :: xs ∧ x ≠ .symbol ')' :=
    List.forall_mem_map.2 fun n _ => ⟨_, [], rfl, by simp [Lexeme.symbol]⟩
  cases names with
  | nil =>
    exact ⟨o, vs, c, [], rfl, rfl, gives_arguments_placed ho hvs hc hheads (.inl ⟨rfl, rfl⟩)⟩
  | cons name names =>
    obtain ⟨es, hes, hreads⟩ := exists_placedNames ctx hvs
    exact ⟨o, vs, c, es, rfl, hes,
      gives_arguments_placed ho hvs hc hheads (.inr ⟨by simp, hreads⟩)⟩

theorem standing_call (hgrammar : ctx.grammar = .algebraic) {op : Operator} (hop : op.isCall)
    {args : List Phrase} (ih : ∀ q ∈ args, Standing ctx q) : Standing ctx (.call op args) := by
  intro us x hus hx horder
  rw [Phrase.yield, Phrase.yieldAll_eq_map] at hus
  obtain ⟨k, us, rfl, hk, hus⟩ := List.map_eq_cons_iff.1 hus
  obtain ⟨xs, hxs, hx⟩ := bind_eq_ok_iff.1 hx
  obtain ⟨o, vs, c, es, rfl, -, rfl, hes, hreads⟩ :=
    exists_anchoredArguments ih hus hxs (horder.mono (List.suffix_cons k us).isInfix)
  obtain ⟨e, happly, rfl⟩ :=
    unplaced_eq_ok_iff.1 ((ctx.unplaced_apply op es (k.span.merge c.span) default).trans hx)
  obtain ⟨hkind, htext⟩ := Lexeme.mk.inj hk
  have hread : ReadsAt ctx (.call op args) (k :: o :: (vs ++ [c])) e :=
    readsAt_of_unary fun m finish rest _ => by
      have hmoved := Context.apply_move m happly
      rw [m.place_merge] at hmoved
      have hargs := hreads m finish rest
      rw [← takesNames_of_isCall op hop] at hargs
      refine gives_unary_of_primary (t := k.move m) ?_
        (gives_call (t := k.move m) hkind ?_ hargs hmoved)
      · rw [Token.lexeme_move, hk]
        exact unary?_eq_none_of_isCall op hop
      · exact htext ▸ Operator.ofCall?_infixed op hop
  have hmerge : Hull ([k] ++ (o :: vs) ++ [c]) (k.span.merge c.span) :=
    .merge horder (.singleton k) (.singleton c)
  have hull : Hull (k :: o :: (vs ++ [c])) e.span := Context.span_of_apply happly ▸ hmerge
  have hpart : vs <:+: k :: o :: (vs ++ [c]) := ⟨[k, o], [c], rfl⟩
  exact ⟨e, rfl, .apply horder hpart hes happly (stands_of_readsAt hgrammar hull hread), hread⟩

theorem standing_invoke (hgrammar : ctx.grammar = .algebraic) (name : String)
    {args : List Phrase} (ih : ∀ q ∈ args, Standing ctx q) : Standing ctx (.invoke name args) := by
  intro us x hus hx horder
  rw [Phrase.yield, Phrase.yieldAll_eq_map] at hus
  obtain ⟨k, us, rfl, hk, hus⟩ := List.map_eq_cons_iff.1 hus
  obtain ⟨xs, hxs, hx⟩ := bind_eq_ok_iff.1 hx
  obtain ⟨o, vs, c, es, rfl, ho, rfl, hes, hreads⟩ :=
    exists_anchoredArguments ih hus hxs (horder.mono (List.suffix_cons k us).isInfix)
  obtain ⟨hkind, rfl⟩ := Lexeme.mk.inj hk
  obtain ⟨e, haction, rfl⟩ := unplaced_eq_ok_iff.1
    ((ctx.unplaced_action k.text es (k.span.merge c.span) default).trans hx)
  have hread : ReadsAt ctx (.invoke k.text args) (k :: o :: (vs ++ [c])) e :=
    readsAt_of_unary fun m finish rest _ => by
      have hmoved := Context.action_move m haction
      rw [m.place_merge] at hmoved
      refine gives_unary_of_primary (t := k.move m) ?_
        (gives_invoke (t := k.move m) hkind ?_ (hreads m finish rest) hmoved)
      · rw [Token.lexeme_move, hk]
        exact unary?_eq_none_of_kind (by simp) (by simp)
      · exact Token.isSymbol_iff.2 ho
  have hmerge : Hull ([k] ++ (o :: vs) ++ [c]) (k.span.merge c.span) :=
    .merge horder (.singleton k) (.singleton c)
  have hull : Hull (k :: o :: (vs ++ [c])) e.span := Context.span_of_action haction ▸ hmerge
  have hpart : vs <:+: k :: o :: (vs ++ [c]) := ⟨[k, o], [c], rfl⟩
  exact ⟨e, rfl, .action horder hpart hes haction (stands_of_readsAt hgrammar hull hread), hread⟩

theorem standing_presence (hgrammar : ctx.grammar = .algebraic) (kind : Presence)
    (names : List String) : Standing ctx (.presence kind names) := by
  intro us x hus hx horder
  obtain ⟨k, us, rfl, hk, hus⟩ := List.map_eq_cons_iff.1 hus
  obtain ⟨o, vs, c, es, rfl, hes, hreads⟩ := exists_placedArguments ctx hus
  rw [Phrase.build, ← hes] at hx
  obtain ⟨e, happly, rfl⟩ := unplaced_eq_ok_iff.1
    ((ctx.unplaced_apply (.presence kind) es (k.span.merge c.span) default).trans hx)
  obtain ⟨hkind, htext⟩ := Lexeme.mk.inj hk
  have hread : ReadsAt ctx (.presence kind names) (k :: o :: (vs ++ [c])) e :=
    readsAt_of_unary fun m finish rest _ => by
      have hmoved := Context.apply_move m happly
      rw [m.place_merge] at hmoved
      have hop : Operator.ofCall? (k.move m).text = some (.presence kind) :=
        htext ▸ Operator.ofCall?_presence kind
      refine gives_unary_of_primary (t := k.move m) ?_
        (gives_call hkind hop (hreads m finish rest) hmoved)
      rw [Token.lexeme_move, hk]
      cases kind <;> decide
  have hmerge : Hull ([k] ++ (o :: vs) ++ [c]) (k.span.merge c.span) :=
    .merge horder (.singleton k) (.singleton c)
  have hull : Hull (k :: o :: (vs ++ [c])) e.span := Context.span_of_apply happly ▸ hmerge
  obtain ⟨head, es', hbuilt, rfl⟩ := Context.apply_eq_ok_iff.1 happly
  obtain ⟨-, -, -, -, hleaf⟩ := Built.presence_iff.1 hbuilt
  exact ⟨_, rfl, .leaf (stands_of_readsAt hgrammar hull hread) hleaf, hread⟩

theorem standing_group (hgrammar : ctx.grammar = .algebraic) {inner : Phrase}
    (ih : Standing ctx inner) : Standing ctx (.group inner) := by
  intro us x hus hx horder
  obtain ⟨o, vs, c, rfl, ho, hvs, hc⟩ := exists_enclosed hus
  have hpart : vs <:+: o :: (vs ++ [c]) := ⟨[o], [c], rfl⟩
  obtain ⟨e, rfl, he, hinner⟩ := ih hvs hx (horder.mono hpart)
  have hread : ReadsAt ctx (.group inner) (o :: (vs ++ [c])) (e.withSpan (o.span.merge c.span)) :=
    readsAt_of_unary fun m finish rest _ => by
      have hgives := hinner.gives_symbol (c := c.move m) (.inr rfl) hc m finish rest
      have hgroup := gives_group (t := o.move m) (c := c.move m) ho hc hgives
      have htokens : (o :: (vs ++ [c])).map (Token.move m) ++ rest =
          o.move m :: (vs.map (Token.move m) ++ c.move m :: rest) := by simp
      rw [htokens, Expr.move_withSpan, m.place_merge]
      refine gives_unary_of_primary ?_ hgroup
      rw [Token.lexeme_move, ho]
      decide
  have hmerge : Hull ([o] ++ vs ++ [c]) (o.span.merge c.span) :=
    .merge horder (.singleton o) (.singleton c)
  have hull : Hull (o :: (vs ++ [c])) (e.withSpan (o.span.merge c.span)).span := by
    rwa [Expr.span_withSpan]
  refine ⟨e.withSpan (o.span.merge c.span), by simp, ?_, hread⟩
  exact he.withSpan horder hpart (stands_of_readsAt hgrammar hull hread)

/-- A phrase with a unary operator in front, which takes its operand whole. -/
theorem standing_unary (hgrammar : ctx.grammar = .algebraic) {p operand : Phrase} {y : Lexeme}
    {op : Operator} (hyield : p.yield = y :: operand.yield)
    (hbuild : p.build ctx = operand.build ctx >>= fun e => unplaced (ctx.apply op [e] default))
    (hy : unary? y.token = some op) (ih : Standing ctx operand)
    (hneg : op = .arithmetic .neg → ∀ x ∈ operand.yield.head?, x.kind ≠ .number)
    (hleast : operand.isBinary → op.operandPrecedence ≤ operand.power)
    (hfollows : ∀ rest, Follows p.power rest →
      Follows operand.power rest ∧ Stops op.operandPrecedence rest) : Standing ctx p := by
  intro us x hus hx horder
  obtain ⟨t, us, rfl, ht, hus⟩ := List.map_eq_cons_iff.1 (hus.trans hyield)
  obtain ⟨x, hx', hx⟩ := bind_eq_ok_iff.1 (hbuild.symm.trans hx)
  have hpart : us <:+: t :: us := (List.suffix_cons t us).isInfix
  obtain ⟨a, rfl, ha, hoperand⟩ := ih hus hx' (horder.mono hpart)
  obtain ⟨e, happly, rfl⟩ :=
    unplaced_eq_ok_iff.1 ((ctx.unplaced_apply op [a] (t.span.merge a.span) default).trans hx)
  have hread : ReadsAt ctx p (t :: us) e :=
    readsAt_of_unary fun m finish rest hrest => by
      obtain ⟨hfollows, hstops⟩ := hfollows _ hrest
      have hmoved := Context.apply_move m happly
      rw [m.place_merge, ← Expr.span_move] at hmoved
      refine gives_unary_operator (t := t.move m) (ht ▸ hy) (fun hop u hu => ?_)
        (hoperand.gives hleast hfollows hstops m finish) hmoved
      obtain ⟨z, zs, hz, -⟩ := operand.yield_eq_cons
      obtain ⟨v, vs, rfl, hv, -⟩ := List.map_eq_cons_iff.1 (hus.trans hz)
      obtain rfl : v.move m = u := by simpa using hu
      exact hneg hop v.lexeme (by simp [hz, hv])
  have hmerge : Hull ([t] ++ [] ++ us) (t.span.merge a.span) :=
    .merge horder (.singleton t) ha.stands.hull
  have hull : Hull (t :: us) e.span := Context.span_of_apply happly ▸ hmerge
  exact ⟨e, rfl, .apply horder hpart (.singleton ha) happly (stands_of_readsAt hgrammar hull hread),
    hread⟩

theorem standing_minus (hgrammar : ctx.grammar = .algebraic) {operand : Phrase}
    (ih : Standing ctx operand)
    (hpower : (Operator.arithmetic .neg).operandPrecedence ≤ operand.power)
    (hbinary : ¬ operand.isBinary) (hnumber : ∀ digits, operand ≠ .number digits) :
    Standing ctx (.minus operand) := by
  refine standing_unary hgrammar rfl rfl (by decide) ih
    (fun _ => Phrase.head_yield_kind_ne hbinary hnumber) (fun _ => hpower) fun rest hrest => ?_
  exact ⟨hrest.mono hpower, stops_neg rest⟩

theorem standing_not (hgrammar : ctx.grammar = .algebraic) {operand : Phrase}
    (ih : Standing ctx operand)
    (hbinary : operand.isBinary → (Operator.connective .not).operandPrecedence ≤ operand.power)
    (hpower : (Operator.connective .not).precedence ≤ operand.power) :
    Standing ctx (.not operand) := by
  refine standing_unary hgrammar rfl rfl (by decide) ih (by simp) hbinary fun rest hrest => ?_
  exact ⟨hrest.mono hpower, hrest.stops⟩

/-- Between two operands, an operator takes the left one as it is and the right one up to the next
operator that binds as loosely. -/
theorem standing_binary (hgrammar : ctx.grammar = .algebraic) {op : Operator} (hop : op.isBinary)
    {left right : Phrase} (ihl : Standing ctx left) (ihr : Standing ctx right)
    (hl : op.precedence ≤ left.power) (hr : op.precedence < right.power) :
    Standing ctx (.binary op left right) := by
  intro us x hus hx horder
  obtain ⟨vs, ws, rfl, hvs, hws⟩ := List.map_eq_append_iff.1 hus
  obtain ⟨k, ws, rfl, hk, hws⟩ := List.map_eq_cons_iff.1 hws
  obtain ⟨x, hx', hx⟩ := bind_eq_ok_iff.1 hx
  obtain ⟨y, hy, hx⟩ := bind_eq_ok_iff.1 hx
  have hlast : ws <:+: vs ++ k :: ws := ⟨vs ++ [k], [], by simp⟩
  obtain ⟨a, rfl, ha, hleft⟩ := ihl hvs hx' (horder.mono (List.prefix_append vs _).isInfix)
  obtain ⟨b, rfl, hb, hright⟩ := ihr hws hy (horder.mono hlast)
  obtain ⟨e, happly, rfl⟩ :=
    unplaced_eq_ok_iff.1 ((ctx.unplaced_apply op [a, b] (a.span.merge b.span) default).trans hx)
  have hread : ReadsAt ctx (.binary op left right) (vs ++ k :: ws) e := by
    intro m finish least rest e' rest' hleast hrest hclimb
    have hle : least ≤ op.precedence := hleast rfl
    have hmoved := Context.apply_move m happly
    rw [m.place_merge, ← Expr.span_move, ← Expr.span_move] at hmoved
    -- The right operand is complete before the next operator that binds as loosely as `op`.
    have hgives := hright.gives (fun _ => hr) (hrest.mono (Nat.le_of_lt hr)) hrest.stops m finish
    have hfollows : Follows left.power
        ((k.move m :: (ws.map (Token.move m) ++ rest)).map Token.lexeme) := by
      rw [List.map_cons, Token.lexeme_move, hk]
      exact follows_lexeme hop hl _
    have htokens : (vs ++ k :: ws).map (Token.move m) ++ rest =
        vs.map (Token.move m) ++ k.move m :: (ws.map (Token.move m) ++ rest) := by simp
    rw [htokens]
    exact hleft m finish least _ _ _ (fun _ => Nat.le_trans hle hl) hfollows
      (givesKept_cons (t := k.move m) hop hk hle hgives hmoved hclimb)
  have horder' : InOrder (vs ++ [k] ++ ws) := by simpa using horder
  have hmerge : Hull (vs ++ [k] ++ ws) (a.span.merge b.span) :=
    .merge horder' ha.stands.hull hb.stands.hull
  have hull : Hull (vs ++ k :: ws) e.span := by simpa [Context.span_of_apply happly] using hmerge
  have hes : AnchoredList ctx (vs ++ [k] ++ ws) [a, b] := .cons horder' ha (.singleton hb)
  have hpart : vs ++ [k] ++ ws <:+: vs ++ k :: ws := ⟨[], [], by simp⟩
  exact ⟨e, rfl, .apply horder hpart hes happly (stands_of_readsAt hgrammar hull hread), hread⟩

/-- The tokens of a phrase that respects precedence are read as an expression that is anchored at
them. -/
theorem exists_anchored (hgrammar : ctx.grammar = .algebraic) {p : Phrase}
    (hp : p.RespectsPrecedence) : Standing ctx p := by
  induction hp with
  | number digits => exact standing_number hgrammar digits
  | negative digits => exact standing_negative hgrammar digits
  | text content => exact standing_text hgrammar content
  | signal name => exact standing_signal hgrammar name
  | presence kind names => exact standing_presence hgrammar kind names
  | call hop _ ih => exact standing_call hgrammar hop ih
  | invoke name _ ih => exact standing_invoke hgrammar name ih
  | group _ ih => exact standing_group hgrammar ih
  | minus hoperand hpower hnumber ih =>
    have hbinary := mt hoperand.power_lt_of_isBinary (Nat.not_lt.2 hpower)
    exact standing_minus hgrammar ih hpower hbinary hnumber
  | not _ hpower ih =>
    obtain ⟨hbinary, hpower⟩ := Phrase.power_of_not hpower
    exact standing_not hgrammar ih hbinary hpower
  | binary hop _ _ hl hr ihl ihr => exact standing_binary hgrammar hop ihl ihr hl hr

end SignalRules.Algebraic
