import SignalRules.Proofs.Rebuilding
import SignalRules.Proofs.Verbatim

/-!
# The round trip of canonical text

Canonical text is read as the expression that is read back, exactly if every node of the expression
can be read back. If outdated literals are replaced once and for all, every node can be, and the
expression comes back as it was. The text may be written in either grammar: it is read in that
grammar as the same expression exactly if no name in it is reserved there.

## Main definitions

* `Signal.SettlesOnce`: the replacements for outdated literals can be read and are not outdated.

## Main results

* `Expr.parse_write`: what canonical text is read as.
* `Dialect.readIn_write_iff`: when an expression comes back in a grammar.
-/

namespace SignalRules

/-! ### Reading canonical text -/

section Reading

variable {ctx : Context} {e : Expr}

/-- The lexemes of the canonical text of an expression. -/
def Expr.yield (e : Expr) : Grammar → List Lexeme
  | .polish => e.term.yield
  | .algebraic => e.phrase.yield

theorem Expr.spells_write (hkeyed : ctx.host.Keyed) (h : e.Everywhere (Sound ctx)) :
    (Lexicon.ofGrammar ctx.grammar).Spells (e.write ctx.grammar).toList (e.yield ctx.grammar) := by
  cases hg : ctx.grammar with
  | polish => exact spells_polish hkeyed hg h
  | algebraic => exact spells_algebraic hkeyed hg h

/-- The lexemes of an expression are read as the expression that is read back, if it can be. -/
theorem Expr.readLexemes_yield (hkeyed : ctx.host.Keyed) (h : e.Everywhere (Sound ctx)) (x : Expr) :
    ctx.readLexemes (e.yield ctx.grammar) = .ok (x, []) ↔
      e.Everywhere (Rereads ctx.strict) ∧ x = e.reread := by
  have hspells := spells_write hkeyed h
  cases hg : ctx.grammar with
  | polish =>
    rw [Context.readLexemes, hg, ← build_term hkeyed h]
    refine Polish.readExpression_eq_ok_iff.trans ⟨?_, fun hbuild => ⟨e.term, rfl, hbuild⟩⟩
    rintro ⟨t, hyield, hbuild⟩
    rwa [← Polish.eq_of_yield_eq hyield]
  | algebraic =>
    rw [hg] at hspells
    have hregular := Algebraic.isRegular_of_spells hspells
    have hrespects := (isPlaced h).respects
    rw [Context.readLexemes, hg, ← build_phrase hkeyed h]
    refine (Algebraic.readExpression_eq_ok_iff hregular).trans
      ⟨?_, fun hbuild => ⟨e.phrase, hrespects, rfl, hbuild⟩⟩
    rintro ⟨p, hp, hyield, hbuild⟩
    rwa [← Algebraic.eq_of_yield_eq hp hrespects hyield]

/-- Canonical text is read as the expression that is read back, if it can be. -/
theorem Expr.parse_write (hkeyed : ctx.host.Keyed) (h : e.Everywhere (Sound ctx)) :
    SucceedsIff (unplaced (ctx.parse (e.write ctx.grammar).toList))
      (e.Everywhere (Rereads ctx.strict)) e.reread := by
  intro x
  rw [unplaced_eq_ok_iff, Context.parse_eq_ok_iff, ← readLexemes_yield hkeyed h]
  constructor
  · rintro ⟨xs, hspells, hread, -⟩
    rwa [← hspells.unique (spells_write hkeyed h)]
  · intro hread
    refine ⟨_, spells_write hkeyed h, hread, fun name hname => ?_⟩
    obtain ⟨-, rfl⟩ := (readLexemes_yield hkeyed h x).1 hread
    have hne := h.head.head_ne_symbol name
    rw [head_reread] at hname
    cases hhead : e.head with
    | symbol n => exact h.head.head_ne_symbol n hhead
    | _ => simp [hhead, Head.reread] at hname

end Reading

/-! ### Literals that settle -/

/-- Outdated literals of the type of a signal are replaced by literals of that type that a source
can hold and that are not replaced by others. -/
def Signal.SettlesOnce (s : Signal) : Prop :=
  ∀ v w, v.type? = some s.type → s.modern? v = some w →
    w.type? = some s.type ∧ w.Readable ∧ ∀ u, s.modern? w = some u → u = w

/-- What a literal is replaced by is final. -/
structure Signal.Final (s : Signal) (v : Value) : Prop where
  /-- It has the type of the signal. -/
  type : v.type? = some s.type
  /-- It can be written in a source. -/
  readable : v.Readable
  /-- It is not replaced again. -/
  settled : s.settled v = v

theorem Signal.SettlesOnce.final {s : Signal} (hs : s.SettlesOnce) {v : Value} (hv : v.Readable)
    (htype : v.type? = some s.type) : s.Final (s.settled v) := by
  cases hw : s.modern? v with
  | none =>
    have hsettled : s.settled v = v := by rw [settled, hw, Option.getD_none]
    rw [hsettled]
    exact ⟨htype, hv, hsettled⟩
  | some w =>
    obtain ⟨hwtype, hread, honce⟩ := hs v w htype hw
    have hsettled : s.settled v = w := by rw [settled, hw, Option.getD_some]
    rw [hsettled]
    refine ⟨hwtype, hread, ?_⟩
    rw [settled]
    cases hu : s.modern? w with
    | none => rfl
    | some u => exact honce u hu

theorem Signal.Final.rereads {s : Signal} {v : Value} {strict : Bool} (h : s.Final v)
    (hallowed : strict → s.allows v) : s.Rereads strict v := by
  rw [Signal.Rereads, h.readable.reread_eq, h.settled]
  exact ⟨h.type, hallowed⟩

section Settling

variable {ctx : Context} (hlegacy : ∀ name s, ctx.host.signal? name = .ok s → s.SettlesOnce)

include hlegacy

/-- A literal beside a signal is final. -/
theorem Sound.final {op : Comparison} {name : String} {s : Signal} {v : Value}
    (hs : ctx.host.signal? name = .ok s) (h : Comparable op (.signal s) (.constant v))
    (hv : v.Readable) : s.Final (s.settled v) := by
  obtain ⟨t, hst, hvt, -⟩ := h
  cases hst
  exact (hlegacy name s hs).final hv (hv.type?_eq hvt)

/-- Every literal can be written in a source. -/
theorem Sound.readable {head : Head} {operands : List Head} (h : Sound ctx head operands) :
    ∀ x ∈ operands, x.Readable := by
  by_cases hne : ∀ c, head ≠ .comparison c
  · exact h.readable_of_ne hne
  · obtain ⟨c, rfl⟩ : ∃ c, head = .comparison c := by simpa using hne
    cases h with
    | comparison _ _ _ ha hb => simpa using ⟨ha, hb⟩
    | signalLiteral hs h hv => simpa [Head.Readable] using (final hlegacy hs h hv).readable
    | literalSignal hs h hv => simpa [Head.Readable] using (final hlegacy hs h.symm hv).readable

/-- Every node can be read back. -/
theorem Sound.rereads {head : Head} {operands : List Head} (h : Sound ctx head operands)
    (hhead : head.Readable) : Rereads ctx.strict head operands := by
  cases h with
  | literal v => exact rereads_constant.2 (Value.Readable.legible hhead)
  | comparison _ hab hba =>
    exact rereads_of_not_beside (by simp) fun s v => not_beside_comparison hab hba
  | signalLiteral hs h hv hallowed =>
    exact rereads_signalLiteral.2 ((final hlegacy hs h hv).rereads hallowed)
  | literalSignal hs h hv hallowed =>
    exact rereads_literalSignal.2 ((final hlegacy hs h.symm hv).rereads hallowed)
  | _ => exact rereads_of_not_beside (by simp) fun s v => not_beside_of_ne (by simp)

/-- Literals have settled already. -/
theorem Sound.settle_erase {head : Head} {es : List Expr} (h : Sound ctx head (es.map Expr.head))
    (hes : ∀ e ∈ es, e.Everywhere (Sound ctx)) :
    head.settle (es.map Expr.erase) = es.map Expr.erase := by
  have hliteral {e : Expr} (he : e ∈ es) {v : Value} (hv : e.head = .constant v) :
      e.erase = .constant v default := by
    rw [Expr.eq_literal (hes e he) hv, Expr.erase_node]
    rfl
  generalize hheads : es.map Expr.head = heads at h
  cases h with
  | comparison _ hab hba =>
    obtain ⟨e, f, rfl, rfl, rfl⟩ := map_eq_pair hheads
    exact Head.settle_comparison (by simpa using hab) (by simpa using hba)
  | signalLiteral hs h hv =>
    obtain ⟨e, f, rfl, he, hf⟩ := map_eq_pair hheads
    simp [Head.settle, he, hliteral (by simp) hf, (final hlegacy hs h hv).settled]
  | literalSignal hs h hv =>
    obtain ⟨e, f, rfl, he, hf⟩ := map_eq_pair hheads
    simp [Head.settle, hf, hliteral (by simp) he, (final hlegacy hs h.symm hv).settled]
  | _ => rfl

/-- An expression comes back as it was. -/
theorem Expr.reread_eq_erase {e : Expr} (h : e.Everywhere (Sound ctx)) (hhead : e.head.Readable) :
    e.Everywhere (Rereads ctx.strict) ∧ e.reread = e.erase := by
  induction h with
  | @node span head es h hes ih =>
    have hread := h.readable hlegacy
    rw [List.forall_mem_map] at hread
    have hoperands : es.map reread = es.map erase :=
      List.map_congr_left fun e he => (ih e he (hread e he)).2
    refine ⟨.node (h.rereads hlegacy hhead) fun e he => (ih e he (hread e he)).1, ?_⟩
    have hsame : head.reread = head := Head.Readable.reread_eq hhead
    rw [reread_node, erase_node, hoperands, h.settle_erase hlegacy hes, hsame]

end Settling

/-- An expression that was read is written in a grammar and read again in that grammar as the same
expression, up to spans, exactly if none of its names is reserved there; and always in the grammar
that it was read in. -/
theorem Dialect.readIn_write_iff {d : Dialect} {h : Host} (hreachable : h.Reachable)
    (hlegacy : ∀ name s, h.signal? name = .ok s → s.SettlesOnce) {g : Grammar}
    {source : List Char} {script : Script} (hread : d.readIn h g source = .ok script) :
    (∀ target : Grammar,
      (∃ again, d.readIn h target (script.expr.write target).toList = .ok again ∧
        again.expr.erase = script.expr.erase) ↔
      ∀ n ∈ script.expr.names, n ∉ target.keywords) ∧
    ∃ again, d.readIn h script.grammar script.canonical.toList = .ok again ∧
      again.expr.erase = script.expr.erase := by
  obtain ⟨text, hparse⟩ := exists_parse_of_readIn hread
  have hchecked := Context.checked_of_parse hparse
  have hkeyed := hreachable.keyed
  have hback (target : Grammar) (hnames : ∀ n ∈ script.expr.names, n ∉ target.keywords) :
      ∃ again, d.readIn h target (script.expr.write target).toList = .ok again ∧
        again.expr.erase = script.expr.erase := by
    have hsound : script.expr.Everywhere (Sound (d.context h target)) :=
      Expr.everywhere_sound_of_names hchecked.sound hkeyed hnames
    have hverbatim := Expr.isVerbatim_write hkeyed hchecked.sound target
    obtain ⟨hrereads, hreread⟩ := Expr.reread_eq_erase hlegacy hsound hchecked.readable
    obtain ⟨e, he, herase⟩ :=
      unplaced_eq_ok_iff.1 ((Expr.parse_write hkeyed hsound _).2 ⟨hrereads, rfl⟩)
    exact ⟨⟨e, target⟩, (readIn_eq_ok_iff hverbatim).2 ⟨rfl, he⟩, herase.trans hreread⟩
  refine ⟨fun target => ⟨?_, hback target⟩, hback script.grammar ?_⟩
  · rintro ⟨again, hagain, herase⟩ n hn
    have hverbatim := Expr.isVerbatim_write hkeyed hchecked.sound target
    obtain ⟨-, hparse'⟩ := (readIn_eq_ok_iff hverbatim).1 hagain
    have hsound := (Context.checked_of_parse hparse').sound
    rw [← Expr.names_erase, ← herase, Expr.names_erase] at hn
    exact (Expr.isName_names hsound hkeyed n hn).2
  · exact fun n hn => (Expr.isName_names hchecked.sound hkeyed n hn).2

theorem settlesOnce_doorHost (name : String) (s : Signal) (hs : doorHost.signal? name = .ok s) :
    s.SettlesOnce := by
  rw [eq_doorSignal hs]
  intro v w _ hw
  obtain ⟨before, after, hlegacy, -⟩ := List.lookup_eq_some_iff.1 hw
  obtain rfl : w = .string "open" := by
    have hmem : (v, w) ∈ doorSignal.legacy := by simp [hlegacy]
    simp [doorSignal] at hmem
    exact hmem.2
  exact ⟨rfl, trivial, fun u hu => by cases hu⟩

theorem Dialect.readIn_write_doorHost :
    doorHost.Reachable ∧ (∀ name s, doorHost.signal? name = .ok s → s.SettlesOnce) ∧
    ∃ script, (⟨.algebraic, true, true⟩ : Dialect).readIn doorHost .algebraic
        "#!prefix (not (eq (sig Door) 'ajar'))".toList = .ok script ∧
      ∀ target : Grammar, ∃ again, (⟨.algebraic, true, true⟩ : Dialect).readIn doorHost target
        (script.expr.write target).toList = .ok again ∧ again.expr.erase = script.expr.erase := by
  have hreachable : doorHost.Reachable := .addSignal .empty _ _
  have hread : ((⟨.algebraic, true, true⟩ : Dialect).readIn doorHost .algebraic
      "#!prefix (not (eq (sig Door) 'ajar'))".toList).map (fun s => s.expr.names) =
        .ok ["Door"] := by
    cbv
  obtain ⟨script, hread, hnames⟩ := map_eq_ok_iff.1 hread
  refine ⟨hreachable, settlesOnce_doorHost, script, hread, fun target => ?_⟩
  refine ((readIn_write_iff hreachable settlesOnce_doorHost hread).1 target).2 ?_
  rw [hnames]
  cases target <;> decide

end SignalRules
