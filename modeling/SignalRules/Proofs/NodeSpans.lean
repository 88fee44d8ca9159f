import SignalRules.Proofs.Algebraic.Exactness
import SignalRules.Proofs.Algebraic.Standing
import SignalRules.Proofs.Checked
import SignalRules.Proofs.Layout
import SignalRules.Proofs.Polish.Standing
import SignalRules.Proofs.WellFormed

/-!
# The spans of nodes

The source at the span of a node is read, by itself, as that node. The tokenizer is local: what is
cut out of a source between the ends of tokens is made up of the tokens between them. The readers
are local as well, so that every node of what is read stands at its tokens.

A literal that is compared with a signal may have been put in the place of an outdated one. The
source at its span is read as the outdated literal.

## Main definitions

* `ReadsAlone`: the source at the span of a node is read as the node.

## Main results

* `Lexicon.tokenize_slice`: the source between the ends of tokens is made up of these tokens.
* `Context.parse_readsAlone`: every node of what is read from a source can be read by itself.
-/

namespace SignalRules

namespace Lexicon

variable {lx : Lexicon} {g : Grammar} {start : Nat} {cs : List Char} {t : Token}
  {ts vs : List Token}

/-- In a grammar, a text up to the end of a token is made up of the tokens up to it. -/
theorem Laid.exists_upTo {post : List Token} (h : (ofGrammar g).Laid start cs (vs ++ post))
    {last : Token} (hlast : last ∈ vs.getLast?) :
    ∃ lexeme after, cs = lexeme ++ after ∧ last.span.stop = start + Text.byteLength lexeme ∧
      (ofGrammar g).Laid start lexeme vs := by
  generalize hus : vs ++ post = us at h
  induction h generalizing vs with
  | nil =>
    obtain ⟨rfl, -⟩ := List.append_eq_nil_iff.1 hus
    cases hlast
  | @blank start c cs us hc _ ih =>
    obtain ⟨lexeme, after, rfl, hstop, hlaid⟩ := ih hlast hus
    refine ⟨c :: lexeme, after, rfl, ?_, .blank hc hlaid⟩
    rw [hstop, Text.byteLength_cons, Nat.add_assoc]
  | @token start c cs rest u us hc hstarts hspan h ih =>
    cases vs with
    | nil => cases hlast
    | cons v vs =>
      obtain ⟨rfl, htail⟩ := List.cons.inj hus
      cases vs with
      | nil =>
        obtain rfl : v = last := by simpa using hlast
        have hstarts' := hstarts.mayFollow (mayFollow_nil rest)
        have hlaid := Laid.token hc hstarts' hspan .nil
        rw [List.append_nil] at hlaid
        exact ⟨c :: cs, rest, rfl, by rw [hspan], hlaid⟩
      | cons w ws =>
        obtain ⟨lexeme, after, rfl, hstop, hlaid⟩ := ih (by simpa using hlast) htail
        -- What is left of the text starts as before.
        have hfollow : MayFollow (lexeme ++ after) lexeme := by
          intro d hd
          right
          rw [List.head?_append, Option.mem_def.1 hd]
          rfl
        refine ⟨c :: cs ++ lexeme, after, (List.append_assoc _ _ _).symm, ?_,
          .token hc (hstarts.mayFollow hfollow) hspan hlaid⟩
        rw [hstop, hspan, Text.byteLength_append, Nat.add_assoc]

/-- A text at another offset is made up of tokens at other places. -/
theorem Laid.move_back (h : lx.Laid start cs ts) {delta : Nat} (hdelta : delta ≤ start) :
    lx.Laid (start - delta) cs (ts.map (Token.move (.back delta))) := by
  induction h with
  | nil => exact .nil
  | @blank start c cs ts hc _ ih =>
    refine .blank hc ?_
    rw [← Nat.sub_add_comm hdelta]
    exact ih (by omega)
  | @token start c cs rest t ts hc hstarts hspan h ih =>
    refine .token hc hstarts ?_ (ih (by simp only [hspan]; omega))
    rw [Token.span_move, hspan, ← Nat.sub_add_comm hdelta]
    rfl

/-- The source between the ends of tokens is made up of the tokens between them. -/
theorem tokenize_slice {source : List Char} {tokens : List Token} {s : Span}
    (h : (ofGrammar g).tokenize source = .ok tokens) (hvs : vs <:+: tokens) (hull : Hull vs s) :
    s.Within source ∧
      (ofGrammar g).tokenize (Text.slice source s) = .ok (vs.map (Token.move (.back s.start))) := by
  obtain ⟨pre, post, rfl⟩ := hvs
  obtain ⟨first, hfirst, last, hlast, rfl⟩ := hull
  obtain ⟨vs, rfl⟩ := List.head?_eq_some_iff.1 hfirst
  rw [tokenize_eq_ok_iff_laid, List.append_assoc] at h
  obtain ⟨before, tail, rfl, hstart, htail⟩ := h.exists_from
  obtain ⟨lexeme, after, rfl, hstop, hlaid⟩ := Laid.exists_upTo htail hlast
  rw [Nat.zero_add] at hstart
  have hspan : (⟨first.span.start, last.span.stop⟩ : Span) =
      ⟨Text.byteLength before, Text.byteLength before + Text.byteLength lexeme⟩ := by
    rw [hstop, hstart]
  have hmoved := hlaid.move_back (Nat.le_refl _)
  rw [Nat.sub_self] at hmoved
  rw [hspan, ← List.append_assoc, Text.slice_append, tokenize_eq_ok_iff_laid, ← hstart]
  exact ⟨hstart ▸ .of_append before lexeme after, hmoved⟩

end Lexicon

variable {ctx : Context} {source : List Char} {us vs tokens : List Token} {e n x : Expr}

theorem Hull.start_lt (h : InOrder us) {s : Span} (hs : Hull us s) : s.start < s.stop := by
  obtain ⟨first, hfirst, last, hlast, rfl⟩ := hs
  exact Nat.lt_of_lt_of_le (h.nonempty first (List.mem_of_head? hfirst))
    (h.le_last hlast (List.mem_of_head? hfirst))

/-! ### Nodes of an expression -/

theorem Expr.Everywhere.contains {P : Head → List Head → Prop} (h : e.Everywhere P)
    (hn : e.Contains n) : n.Everywhere P := by
  induction hn with
  | root => exact h
  | operand hc _ ih => exact ih (h.operands _ hc)

/-- A node that spans some of the tokens, as do the nodes below it. -/
structure Rooted (ctx : Context) (us : List Token) (n : Expr) : Prop where
  hull : ∃ vs, vs <:+: us ∧ Hull vs n.span
  nodes : ∀ x, n.Contains x → AnchoredNode ctx us x

theorem Anchored.rooted (h : Anchored ctx us e) : Rooted ctx us e :=
  ⟨⟨us, List.infix_refl us, h.stands.hull⟩, h.nodes⟩

namespace Rooted

theorem operand (h : Rooted ctx us e) (hx : x ∈ e.operands) : Rooted ctx us x := by
  obtain ⟨vs, hvs, hbelow⟩ := (h.nodes e (.root e)).stands x hx
  exact ⟨⟨vs, hvs, hbelow.hull⟩, fun y hy => h.nodes y (.operand hx hy)⟩

theorem contains (h : Rooted ctx us e) (hn : e.Contains n) : Rooted ctx us n := by
  induction hn with
  | root => exact h
  | operand hc _ ih => exact ih (h.operand hc)

/-- No node below another one starts before it. -/
theorem start_le (h : Rooted ctx us e) (hn : e.Contains n) : e.span.start ≤ n.span.start := by
  induction hn with
  | root => exact Nat.le_refl _
  | @operand e c n hc _ ih =>
    have hinside := ((h.nodes e (.root e)).inside c hc).1
    exact Nat.le_trans hinside (ih (h.operand hc))

/-- A node and those below it can be moved to the front and back. -/
theorem move_back_move_ahead (horder : InOrder us) (h : Rooted ctx us e) :
    (e.move (.back e.span.start)).move (.ahead e.span.start) = e := by
  refine Expr.move_back_move_ahead fun n hn => ?_
  obtain ⟨vs, hvs, hull⟩ := (h.contains hn).hull
  have hstart := h.start_le hn
  have hstop := hull.start_lt (horder.mono hvs)
  exact ⟨hstart, by omega⟩

end Rooted

/-! ### Reading -/

namespace Context

/-- All tokens are read as one expression, which is not a bare name. -/
theorem parseTokens_eq_ok_iff_gives {finish : Nat} :
    ctx.parseTokens finish tokens = .ok e ↔
      Gives (ctx.expression finish tokens) e [] ∧ ∀ name, e.head ≠ .symbol name := by
  cases tokens with
  | nil =>
    constructor
    · intro h
      cases h
    · rintro ⟨⟨hshort, -⟩, -⟩
      exact absurd hshort (Nat.lt_irrefl 0)
  | cons u us =>
    rw [parseTokens, List.isEmpty_cons, if_neg Bool.false_ne_true, bind_eq_ok_iff]
    constructor
    · rintro ⟨⟨a, rest, hshort⟩, hread, h⟩
      cases rest with
      | nil =>
        obtain ⟨rfl, hhead⟩ := notBare_eq_ok_iff.1 h
        exact ⟨⟨hshort, hread⟩, hhead⟩
      | cons t rest => cases h
    · rintro ⟨⟨hshort, hread⟩, hhead⟩
      exact ⟨_, hread, notBare_eq_ok_iff.2 ⟨rfl, hhead⟩⟩

/-- What is read from a source is anchored at its tokens. -/
theorem exists_anchored_of_parse (h : ctx.parse source = .ok e) :
    ∃ tokens, (Lexicon.ofGrammar ctx.grammar).tokenize source = .ok tokens ∧ InOrder tokens ∧
      Anchored ctx tokens e := by
  obtain ⟨tokens, htokens, hparse⟩ := bind_eq_ok_iff.1 h
  obtain ⟨⟨hshort, hgives⟩, -⟩ := parseTokens_eq_ok_iff_gives.1 hparse
  have hlaid := Lexicon.tokenize_eq_ok_iff_laid.1 htokens
  have horder : InOrder tokens := ⟨fun t ht => (hlaid.start_le t ht).2, hlaid.pairwise⟩
  have hread : ctx.readLexemes (tokens.map Token.lexeme) = .ok (e.erase, []) := by
    rw [← ctx.seen_expression (Text.byteLength source), hgives]
    rfl
  have hstanding : ∃ a : Expr, a.erase = e.erase ∧ Anchored ctx tokens a := by
    cases hg : ctx.grammar with
    | polish =>
      simp only [readLexemes, hg] at hread
      obtain ⟨t, hyield, hbuild⟩ := Polish.readExpression_eq_ok_iff.1 hread
      obtain ⟨a, ha, hanchored, -⟩ := Polish.exists_anchored hg t hyield.symm hbuild horder
      exact ⟨a, ha, hanchored⟩
    | algebraic =>
      simp only [readLexemes, hg] at hread
      have hspells := Lexicon.tokenize_eq_ok_iff.1 ⟨tokens, htokens, rfl⟩
      have hregular := Algebraic.isRegular_of_spells (hg ▸ hspells)
      obtain ⟨p, hp, hyield, hbuild⟩ := (Algebraic.readExpression_eq_ok_iff hregular).1 hread
      obtain ⟨a, ha, hanchored, -⟩ := Algebraic.exists_anchored hg hp hyield.symm hbuild horder
      exact ⟨a, ha, hanchored⟩
  obtain ⟨a, -, hanchored⟩ := hstanding
  have hstay : tokens.map (Token.move .stay) = tokens :=
    (List.map_congr_left fun t _ => t.move_stay).trans (List.map_id tokens)
  have hsame := hanchored.stands.reads .stay (Text.byteLength source)
  rw [hstay, Expr.move_stay] at hsame
  obtain ⟨hshort', hsame⟩ := hsame
  rw [hgives] at hsame
  cases hsame
  exact ⟨tokens, htokens, horder, hanchored⟩

end Context

/-- The source at the span of a node is read, by itself, as the node, up to where it starts. -/
structure ReadsAlone (ctx : Context) (source : List Char) (n : Expr) : Prop where
  within : n.span.Within source
  reads : ∃ e, ctx.parse (Text.slice source n.span) = .ok e ∧ e.move (.ahead n.span.start) = n

/-- A node that stands at tokens of a source can be read by itself. -/
theorem Stands.readsAlone (htokens : (Lexicon.ofGrammar ctx.grammar).tokenize source = .ok tokens)
    (hvs : vs <:+: tokens) (h : Stands ctx vs n) (hhead : ∀ name, n.head ≠ .symbol name)
    (hmove : (n.move (.back n.span.start)).move (.ahead n.span.start) = n) :
    ReadsAlone ctx source n := by
  obtain ⟨hwithin, hslice⟩ := Lexicon.tokenize_slice htokens hvs h.hull
  refine ⟨hwithin, n.move (.back n.span.start), ?_, hmove⟩
  rw [Context.parse, hslice, ok_bind, Context.parseTokens_eq_ok_iff_gives]
  exact ⟨h.reads _ _, by simpa using hhead⟩

namespace Context

/-- The spans of nodes are faithful. The operands of each node of what is read from a source lie
inside the node, one after the other. The source at the span of a node is read, by itself, as the
node. For a literal that was put in the place of an outdated one, because it is compared with a
signal, it is read as the outdated literal. -/
theorem parse_readsAlone (h : ctx.parse source = .ok e) :
    ReadsAlone ctx source e ∧ ∀ n, e.Contains n →
      (∀ c ∈ n.operands, n.span.start ≤ c.span.start ∧ c.span.stop ≤ n.span.stop) ∧
      n.operands.Pairwise (fun a b => a.span.stop ≤ b.span.start) ∧
      ∀ c ∈ n.operands, ReadsAlone ctx source c ∨
        ∃ s v w, Beside s w n.head (n.operands.map Expr.head) ∧ c.head = .constant w ∧
          s.modern? v = some w ∧ ReadsAlone ctx source (.constant v c.span) := by
  obtain ⟨tokens, htokens, horder, hanchored⟩ := exists_anchored_of_parse h
  have hsound := (checked_of_parse h).sound
  have hrooted := hanchored.rooted
  refine ⟨hanchored.stands.readsAlone htokens (List.infix_refl tokens) hsound.head.head_ne_symbol
    (hrooted.move_back_move_ahead horder), fun n hn => ?_⟩
  have hnode := hanchored.nodes n hn
  refine ⟨hnode.inside, hnode.ordered, fun c hc => ?_⟩
  have hrootedBelow := (hrooted.contains hn).operand hc
  have hsoundBelow := (hsound.contains hn).operands c hc
  obtain ⟨vs, hvs, hstands | ⟨s, v, w, hbeside, hw, hmodern, hstands⟩⟩ := hnode.stands c hc
  · exact .inl (hstands.readsAlone htokens hvs hsoundBelow.head.head_ne_symbol
      (hrootedBelow.move_back_move_ahead horder))
  · have hstart : c.span.start < c.span.stop := hstands.hull.start_lt (horder.mono hvs)
    have hmove : ((Expr.constant v c.span).move (.back c.span.start)).move (.ahead c.span.start) =
        .constant v c.span := by
      rw [Expr.move_constant, Expr.move_constant,
        Relocation.ahead_back (Nat.le_refl _) (Nat.le_of_lt hstart)]
    exact .inr ⟨s, v, w, hbeside, hw, hmodern, hstands.readsAlone htokens hvs nofun hmove⟩

/-- In a group stands a comparison with an outdated literal: the group is read as the comparison,
and the literal as the outdated one. -/
theorem parse_readsAlone_outdated :
    parse ⟨doorHost, true, .algebraic⟩ "not (Door == 'ajar')".toList =
        .ok (.node ⟨0, 20⟩ (.connective .not) [.node ⟨4, 20⟩ (.comparison .eq)
          [.node ⟨5, 9⟩ (.signal doorSignal) [], .constant (.string "open") ⟨13, 19⟩]]) ∧
      ReadsAlone ⟨doorHost, true, .algebraic⟩ "not (Door == 'ajar')".toList
        (.node ⟨4, 20⟩ (.comparison .eq)
          [.node ⟨5, 9⟩ (.signal doorSignal) [], .constant (.string "open") ⟨13, 19⟩]) ∧
      ReadsAlone ⟨doorHost, true, .algebraic⟩ "not (Door == 'ajar')".toList
        (.constant (.string "ajar") ⟨13, 19⟩) := by
  have hparse : parse ⟨doorHost, true, .algebraic⟩ "not (Door == 'ajar')".toList =
      .ok (.node ⟨0, 20⟩ (.connective .not) [.node ⟨4, 20⟩ (.comparison .eq)
        [.node ⟨5, 9⟩ (.signal doorSignal) [], .constant (.string "open") ⟨13, 19⟩]]) := by
    cbv
  have hliteral : parse ⟨doorHost, true, .algebraic⟩
      (Text.slice "not (Door == 'ajar')".toList ⟨13, 19⟩) =
        .ok (.constant (.string "ajar") ⟨0, 6⟩) := by
    cbv
  obtain ⟨-, hnodes⟩ := parse_readsAlone hparse
  obtain ⟨-, -, hgroup⟩ := hnodes _ (.root _)
  obtain ⟨-, -, hoperands⟩ := hnodes _ (.operand List.mem_cons_self (.root _))
  refine ⟨hparse, ?_, ?_⟩
  · rcases hgroup _ List.mem_cons_self with hreads | ⟨s, v, w, hbeside, -⟩
    · exact hreads
    · cases hbeside
  · rcases hoperands _ (List.mem_cons_of_mem _ List.mem_cons_self) with
      ⟨-, e, he, hmove⟩ | ⟨s, v, w, hbeside, -, hmodern, hreads⟩
    · rw [Expr.span_constant, hliteral] at he
      cases he
      simp [Expr.constant] at hmove
    · cases hbeside
      obtain ⟨before, after, hlegacy, -⟩ := List.lookup_eq_some_iff.1 hmodern
      obtain rfl : v = .string "ajar" := by
        have hmem : (v, Value.string "open") ∈ doorSignal.legacy := by simp [hlegacy]
        simpa [doorSignal] using hmem
      exact hreads

end Context

end SignalRules
