import SignalRules.Proofs.NodeSpans

/-!
# The Polish reader accepts exactly its grammar

The grammar derives lists of tokens:

    expression := NUMBER | TEXT | NAME | "(" KEYWORD expression* ")"

A derivation keeps the place of each token, so that an expression with all of its spans can be
built from it, from the leaves upwards. A source is read as an expression exactly if its tokens have
a derivation that builds the expression, and tokens have at most one derivation.

Up to places this is known of terms. What is left is to put a term at the tokens that it spells, and
to see that the reader, which builds as it goes, gives the nodes the spans that the derivation gives
them.

## Main definitions

* `Derivation`, `Derivation.yield`, `Derivation.build`.

## Main results

* `Derivation.determined`: tokens have at most one derivation.
* `Derivation.gives_yield`: the tokens of a derivation are read as what it builds.
* `Derivation.exists_of_term`: the tokens of a term have a derivation.
* `Derivation.parse_iff_derivation`: what a source is read as.
-/

namespace SignalRules

/-- A token for a lexeme, at a place. -/
def Lexeme.placed (x : Lexeme) (span : Span) : Token := ⟨x.kind, x.text, span⟩

@[simp] theorem Lexeme.lexeme_placed (x : Lexeme) (span : Span) : (x.placed span).lexeme = x := rfl

theorem Token.eq_placed {t : Token} {x : Lexeme} (h : t.lexeme = x) : t = x.placed t.span := by
  subst h
  rfl

theorem Lexeme.placed_inj {x y : Lexeme} {s t : Span} :
    x.placed s = y.placed t ↔ x = y ∧ s = t := by
  constructor
  · intro h
    exact ⟨congrArg Token.lexeme h, congrArg Token.span h⟩
  · rintro ⟨rfl, rfl⟩
    rfl

/-- A derivation of tokens from the Polish grammar. -/
inductive Derivation where
  /-- A number literal. -/
  | number (digits : String) (span : Span)
  /-- A text literal. -/
  | text (content : String) (span : Span)
  /-- A bare name. -/
  | name (name : String) (span : Span)
  /-- A keyword with operands, between parentheses. -/
  | form (opening : Span) (keyword : String) (place : Span) (args : List Derivation)
      (closing : Span)

/-- Induction over derivations, with one hypothesis for each operand. -/
@[induction_eliminator]
theorem Derivation.induction {P : Derivation → Prop}
    (number : ∀ digits span, P (.number digits span))
    (text : ∀ content span, P (.text content span)) (name : ∀ n span, P (.name n span))
    (form : ∀ opening keyword place args closing, (∀ d ∈ args, P d) →
      P (.form opening keyword place args closing)) : ∀ d, P d
  | .number digits span => number digits span
  | .text content span => text content span
  | .name n span => name n span
  | .form opening keyword place args closing =>
    form opening keyword place args closing fun d _ => induction number text name form d

namespace Derivation

mutual

/-- The tokens that are derived. -/
def yield : Derivation → List Token
  | number digits span => [Lexeme.placed ⟨.number, digits⟩ span]
  | text content span => [Lexeme.placed ⟨.string, content⟩ span]
  | name n span => [Lexeme.placed ⟨.identifier, n⟩ span]
  | form opening keyword place args closing =>
    (Lexeme.symbol '(').placed opening :: Lexeme.placed ⟨.keyword, keyword⟩ place ::
      (yieldAll args ++ [(Lexeme.symbol ')').placed closing])

/-- The tokens that several derivations derive, one after the other. -/
def yieldAll : List Derivation → List Token
  | [] => []
  | d :: ds => yield d ++ yieldAll ds

end

mutual

/-- The expression that a derivation stands for, built from its leaves upwards. -/
def build (ctx : Context) : Derivation → Except ParseError Expr
  | number digits span => Context.number digits span
  | text content span => .ok (.constant (.string content) span)
  | name n span => .ok (.symbol n span)
  | form opening keyword place args closing => do
    let operands ← buildAll ctx args
    match Operator.ofKeyword? keyword with
    | none => .error (.located (.unknownOperator keyword) place)
    | some op => ctx.apply op operands (opening.merge closing)

/-- The expressions that several derivations stand for, built from the left. -/
def buildAll (ctx : Context) : List Derivation → Except ParseError (List Expr)
  | [] => .ok []
  | d :: ds => do
    let e ← build ctx d
    let es ← buildAll ctx ds
    return e :: es

end

/-- A derivation starts with some token, and never with a closing parenthesis. -/
theorem yield_eq_cons (d : Derivation) :
    ∃ t ts, d.yield = t :: ts ∧ t.lexeme ≠ .symbol ')' := by
  cases d <;> exact ⟨_, _, by rw [yield], by simp [Lexeme.symbol]⟩

/-! ### Tokens have at most one derivation -/

/-- Operands up to a closing parenthesis are determined if each of them is. -/
theorem operands_determined {ds : List Derivation}
    (ih : ∀ d ∈ ds, ∀ d' rest rest', d.yield ++ rest = yield d' ++ rest' → d = d' ∧ rest = rest')
    {ds' : List Derivation} {closing closing' : Span} {rest rest' : List Token}
    (h : yieldAll ds ++ (Lexeme.symbol ')').placed closing :: rest =
      yieldAll ds' ++ (Lexeme.symbol ')').placed closing' :: rest') :
    ds = ds' ∧ closing = closing' ∧ rest = rest' := by
  induction ds generalizing ds' with
  | nil =>
    cases ds' with
    | nil =>
      obtain ⟨hclosing, hrest⟩ := List.cons.inj h
      exact ⟨rfl, (Lexeme.placed_inj.1 hclosing).2, hrest⟩
    | cons d' ds' =>
      obtain ⟨t, ts, hd', hne⟩ := d'.yield_eq_cons
      rw [yieldAll, yieldAll, hd', List.nil_append, List.append_assoc] at h
      rw [← (List.cons.inj h).1] at hne
      exact absurd rfl hne
  | cons d ds ihds =>
    cases ds' with
    | nil =>
      obtain ⟨t, ts, hd, hne⟩ := d.yield_eq_cons
      rw [yieldAll, yieldAll, hd, List.nil_append, List.append_assoc] at h
      rw [(List.cons.inj h).1] at hne
      exact absurd rfl hne
    | cons d' ds' =>
      rw [yieldAll, yieldAll, List.append_assoc, List.append_assoc] at h
      obtain ⟨rfl, hrest⟩ := ih d (by simp) d' _ _ h
      obtain ⟨rfl, hclosing, hrest⟩ := ihds (fun d hd => ih d (List.mem_cons_of_mem _ hd)) hrest
      exact ⟨rfl, hclosing, hrest⟩

/-- A derivation ends where it ends, whatever follows. -/
theorem determined (d d' : Derivation) (rest rest' : List Token)
    (h : d.yield ++ rest = d'.yield ++ rest') : d = d' ∧ rest = rest' := by
  induction d generalizing d' rest rest' with
  | number digits span | text content span | name n span =>
    cases d' <;> simp_all [yield, Lexeme.placed_inj, Lexeme.symbol]
  | form opening keyword place args closing ih =>
    cases d' with
    | form opening' keyword' place' args' closing' =>
      simp only [yield, List.cons_append, List.append_assoc, List.nil_append, List.cons.injEq,
        Lexeme.placed_inj, Lexeme.mk.injEq, true_and] at h
      obtain ⟨rfl, ⟨rfl, rfl⟩, hargs⟩ := h
      obtain ⟨rfl, rfl, rfl⟩ := operands_determined ih hargs
      exact ⟨rfl, rfl⟩
    | _ => simp [yield, Lexeme.placed_inj, Lexeme.symbol] at h

/-! ### What is derived is read -/

variable {ctx : Context}

/-- Operands that are read one by one are read together, up to the closing parenthesis. -/
theorem gives_operands {ds : List Derivation}
    (ih : ∀ d ∈ ds, ∀ {e}, d.build ctx = .ok e → ∀ finish rest,
      Gives (Polish.expression ctx finish (d.yield ++ rest)) e rest)
    {es : List Expr} (h : buildAll ctx ds = .ok es) (finish : Nat) (opening closing : Span)
    (rest : List Token) :
    Gives (Polish.operands ctx finish opening
      (yieldAll ds ++ (Lexeme.symbol ')').placed closing :: rest)) (es, closing) rest := by
  induction ds generalizing es with
  | nil =>
    cases h
    exact Polish.gives_operands_nil rfl rest
  | cons d ds ihds =>
    obtain ⟨e, he, h⟩ := bind_eq_ok_iff.1 h
    obtain ⟨es', hes, h⟩ := bind_eq_ok_iff.1 h
    cases h
    obtain ⟨t, ts, hd, hne⟩ := d.yield_eq_cons
    have hfirst := ih d (by simp) he finish
      (yieldAll ds ++ (Lexeme.symbol ')').placed closing :: rest)
    have hrest := ihds (fun d hd => ih d (List.mem_cons_of_mem _ hd)) hes
    rw [hd, List.cons_append] at hfirst
    rw [yieldAll, hd, List.append_assoc, List.cons_append]
    exact Polish.gives_operands_cons hne hfirst hrest

/-- The tokens of a derivation are read as what it builds, and what follows is left. -/
theorem gives_yield {d : Derivation} {e : Expr} (h : d.build ctx = .ok e) (finish : Nat)
    (rest : List Token) : Gives (Polish.expression ctx finish (d.yield ++ rest)) e rest := by
  induction d generalizing e finish rest with
  | number digits span =>
    rw [yield, List.singleton_append, Polish.expression]
    dsimp only [Lexeme.placed]
    rw [show Context.number digits span = .ok e from h]
    exact ⟨_, rfl⟩
  | text content span | name n span =>
    cases h
    rw [yield, List.singleton_append, Polish.expression]
    exact ⟨_, rfl⟩
  | form opening keyword place args closing ih =>
    obtain ⟨es, hes, happly⟩ := bind_eq_ok_iff.1 h
    cases hop : Operator.ofKeyword? keyword with
    | none => simp [hop] at happly
    | some op =>
      simp only [hop] at happly
      have hoperands := gives_operands (fun d hd _ he => ih d hd he) hes finish opening closing rest
      obtain rfl := Polish.keyword_of_ofKeyword? hop
      rw [yield, List.cons_append, List.cons_append, List.append_assoc, List.singleton_append]
      exact Polish.gives_form rfl rfl hoperands happly

/-- All tokens of a derivation together are read as what it builds. -/
theorem gives_yield_nil {d : Derivation} {e : Expr} (h : d.build ctx = .ok e) (finish : Nat) :
    Gives (Polish.expression ctx finish d.yield) e [] := by
  have hgives := gives_yield h finish []
  rwa [List.append_nil] at hgives

/-! ### What is read is derived -/

/-- Terms that have derivations at their tokens have them together. -/
theorem exists_of_terms {ts : List Term}
    (ih : ∀ t ∈ ts, ∀ {us : List Token}, us.map Token.lexeme = t.yield →
      ∃ d : Derivation, d.yield = us ∧ unplaced (d.build ctx) = t.build ctx)
    {us : List Token} (h : us.map Token.lexeme = Term.yieldAll ts) :
    ∃ ds : List Derivation, yieldAll ds = us ∧
      unplacedBy (List.map Expr.erase) (buildAll ctx ds) = Term.buildAll ctx ts := by
  induction ts generalizing us with
  | nil =>
    obtain rfl := List.map_eq_nil_iff.1 h
    exact ⟨[], rfl, rfl⟩
  | cons t ts ihts =>
    obtain ⟨vs, ws, rfl, hvs, hws⟩ := List.map_eq_append_iff.1 h
    obtain ⟨d, rfl, hd⟩ := ih t (by simp) hvs
    obtain ⟨ds, rfl, hds⟩ := ihts (fun t ht => ih t (List.mem_cons_of_mem _ ht)) hws
    refine ⟨d :: ds, rfl, ?_⟩
    rw [buildAll, Term.buildAll, ← hd, ← hds]
    refine unplacedBy_bind fun e => unplacedBy_bind fun es => ?_
    rfl

/-- The tokens of a term have a derivation, which builds what the term builds. -/
theorem exists_of_term (t : Term) {us : List Token} (h : us.map Token.lexeme = t.yield) :
    ∃ d : Derivation, d.yield = us ∧ unplaced (d.build ctx) = t.build ctx := by
  induction t generalizing us with
  | number digits =>
    obtain ⟨u, rfl, hu⟩ := List.map_eq_singleton_iff.1 h
    rw [Token.eq_placed hu]
    exact ⟨.number digits u.span, rfl, Context.unplaced_number digits u.span default⟩
  | text content =>
    obtain ⟨u, rfl, hu⟩ := List.map_eq_singleton_iff.1 h
    rw [Token.eq_placed hu]
    exact ⟨.text content u.span, rfl, by simp [build, Term.build]⟩
  | name n =>
    obtain ⟨u, rfl, hu⟩ := List.map_eq_singleton_iff.1 h
    rw [Token.eq_placed hu]
    exact ⟨.name n u.span, rfl, by simp [build, Term.build]⟩
  | form op args ih =>
    obtain ⟨o, us, rfl, ho, h⟩ := List.map_eq_cons_iff.1 h
    obtain ⟨k, us, rfl, hk, h⟩ := List.map_eq_cons_iff.1 h
    obtain ⟨vs, ws, rfl, hvs, hws⟩ := List.map_eq_append_iff.1 h
    obtain ⟨c, rfl, hc⟩ := List.map_eq_singleton_iff.1 hws
    obtain ⟨ds, rfl, hds⟩ := exists_of_terms ih hvs
    refine ⟨.form o.span op.keyword k.span ds c.span, ?_, ?_⟩
    · rw [yield, ← Token.eq_placed ho, ← Token.eq_placed hk, ← Token.eq_placed hc]
    · rw [build, Term.build, ← hds, Polish.ofKeyword?_keyword]
      exact unplacedBy_bind fun es => ctx.unplaced_apply op es _ default

/-- A source is read as an expression exactly if its tokens have a derivation from the grammar, with
no token left over, that builds the expression and if that is not a bare name. Spans included, the
expression is the one that is built from the leaves upwards. There is at most one derivation of the
tokens, whether it can be built or not. -/
theorem parse_iff_derivation (host : Host) (strict : Bool) (source : List Char) :
    {d : Derivation | (Lexicon.ofGrammar .polish).tokenize source = .ok d.yield}.Subsingleton ∧
    ∀ e : Expr, (Context.mk host strict .polish).parse source = .ok e ↔
      ∃ d : Derivation, (Lexicon.ofGrammar .polish).tokenize source = .ok d.yield ∧
        d.build ⟨host, strict, .polish⟩ = .ok e ∧ ∀ name, e.head ≠ .symbol name := by
  constructor
  · intro d hd d' hd'
    have hyield : d.yield = d'.yield := Except.ok.inj (hd.symm.trans hd')
    exact (determined d d' [] [] (by rw [hyield])).1
  · intro e
    rw [Context.parse, bind_eq_ok_iff]
    constructor
    · rintro ⟨tokens, htokens, h⟩
      obtain ⟨⟨hshort, hread⟩, hhead⟩ := Context.parseTokens_eq_ok_iff_gives.1 h
      -- The lexemes spell a term, which is put at the tokens.
      have hlexemes : Polish.readExpression ⟨host, strict, .polish⟩ (tokens.map Token.lexeme) =
          .ok (e.erase, []) := by
        rw [← Polish.seen_expression _ (Text.byteLength source)]
        exact congrArg seen hread
      obtain ⟨t, hyield, hbuild⟩ := Polish.readExpression_eq_ok_iff.1 hlexemes
      obtain ⟨d, rfl, hd⟩ := exists_of_term t hyield.symm
      rw [hbuild] at hd
      obtain ⟨e', hbuild', -⟩ := unplaced_eq_ok_iff.1 hd
      -- The reader has one answer, so the spans are those of the derivation.
      obtain ⟨hshort', hread'⟩ := gives_yield_nil hbuild' (Text.byteLength source)
      cases hread.symm.trans hread'
      exact ⟨d, htokens, hbuild', hhead⟩
    · rintro ⟨d, htokens, hbuild, hhead⟩
      exact ⟨d.yield, htokens, Context.parseTokens_eq_ok_iff_gives.2
        ⟨gives_yield_nil hbuild (Text.byteLength source), hhead⟩⟩

end Derivation

end SignalRules
