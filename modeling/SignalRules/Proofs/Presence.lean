import SignalRules.Proofs.Accessors
import SignalRules.Proofs.RoundTrip

/-!
# Checks for names

An expression can check whether a name resolves before another one relies on it. For a signal the
check looks up the very name that a read of the signal looks up. For an action it looks up the name
as it is written, while a call first drops the ending that asks for a single run. So the check and
the call agree on every name without that ending, and on a name with it only if the host happens to
treat both names alike.

## Main definitions

* `Grammar.presenceCheck`: how a check for a name is written.

## Main results

* `Context.exists_parse_presenceCheck`: a check is read as what it is written for.
* `Context.exists_signal_iff`, `Context.action_resolves_iff`: when names resolve.
* `Context.presence_agrees_iff`: when a check agrees with what it guards.
-/

namespace SignalRules

/-- A check whether a name resolves, as it is written in a grammar. -/
def Grammar.presenceCheck : Grammar → Presence → String → String
  | polish, .signal, name => "(?sig " ++ name ++ ")"
  | polish, .action, name => "(?act " ++ name ++ ")"
  | algebraic, .signal, name => "hassignal(" ++ name ++ ")"
  | algebraic, .action, name => "hasaction(" ++ name ++ ")"

/-- A check is written as the canonical text of its expression is. -/
theorem Expr.write_presence (g : Grammar) (kind : Presence) (name : String) (span : Span) :
    (Expr.node span (.presence kind [name]) []).write g = g.presenceCheck kind name := by
  apply String.toList_injective
  cases g <;> cases kind <;>
    simp [write, pieces, polish, algebraic, Piece.spacedNames, Piece.listedNames, Piece.chars,
      Grammar.presenceCheck, Operator.keyword, Operator.infixed, Operator.form,
      Form.spelling?]

/-! ### The ending of a name -/

/-- A name with the ending is split into the name before it and the wish for a single run. -/
theorem splitOnce_append {base : String} (hbase : base ≠ "") :
    splitOnce (base ++ ".once") = (base, true) := by
  have hsuffix : (base ++ ".once").toList = base.toList ++ onceSuffix := by
    rw [String.toList_append]
    rfl
  have hne : base.toList ≠ [] := fun hnil => hbase (String.toList_injective hnil)
  unfold splitOnce
  simp [hsuffix, hne]

/-- Every other name stands for itself. -/
theorem splitOnce_of_ne {name : String} (hname : ∀ base, base ≠ "" → name ≠ base ++ ".once") :
    splitOnce name = (name, false) := by
  unfold splitOnce
  dsimp only
  split_ifs with hsuffix
  · rw [Bool.and_eq_true, List.isSuffixOf_iff_suffix] at hsuffix
    obtain ⟨⟨base, hbase⟩, hne⟩ := hsuffix
    rw [← hbase, List.length_append, Nat.add_sub_cancel, List.take_left] at hne
    have hbase' : String.ofList base ≠ "" := by
      intro hempty
      rw [String.ofList_eq_empty_iff] at hempty
      simp [hempty] at hne
    refine absurd (String.toList_injective ?_) (hname (String.ofList base) hbase')
    rw [← hbase, String.toList_append, String.toList_ofList]
    rfl
  · rfl

namespace Context

variable {ctx : Context} {name : String}

/-! ### Reading a check -/

/-- A check is read as what it is written for. -/
theorem exists_parse_presenceCheck (ctx : Context) (hkeyed : ctx.host.Keyed)
    (hname : ctx.grammar.IsName name) (kind : Presence) :
    ∃ span, ctx.parse (ctx.grammar.presenceCheck kind name).toList =
      .ok (.node span (.presence kind [name]) []) := by
  have hsound : (Expr.node default (.presence kind [name]) []).Everywhere (Sound ctx) :=
    .node (.presence kind (by simp) (by simpa using hname)) (by simp)
  have hrereads : (Expr.node default (.presence kind [name]) []).Everywhere (Rereads ctx.strict) :=
    .node (rereads_of_not_beside (by simp) fun s v => not_beside_of_ne (by simp)) (by simp)
  obtain ⟨⟨span, head, es⟩, hparse, herase⟩ :=
    unplaced_eq_ok_iff.1 ((Expr.parse_write hkeyed hsound _).2 ⟨hrereads, rfl⟩)
  rw [Expr.write_presence] at hparse
  rw [Expr.erase_node, Expr.reread_node] at herase
  obtain ⟨-, rfl, hes⟩ := Expr.node.inj herase
  obtain rfl : es = [] := List.map_eq_nil_iff.1 hes
  exact ⟨span, hparse⟩

/-! ### When names resolve -/

theorem exists_signal_iff (span : Span) :
    (∃ e, ctx.signal name span = .ok e) ↔ ctx.host.hasSignal name := by
  rw [Host.hasSignal_eq_isOk, Host.signalSource, Host.isOk_capture]
  simp only [signal_eq_ok_iff]
  cases ctx.host.signal? name with
  | error notice => simp [Except.isOk, Except.toBool]
  | ok s => simp [Except.isOk, Except.toBool]

/-- An argument is refused for its type only. -/
theorem kind_of_argumentError? {a : Action} {args : List Expr} {err : ParseError}
    (h : argumentError? a name args = some err) : err.cause.kind = .type := by
  obtain ⟨⟨arg, i⟩, -, harg⟩ := List.exists_of_findSome?_eq_some h
  dsimp only at harg
  split at harg
  · cases harg
  · split_ifs at harg
    cases harg
    rfl

/-- A call resolves its action if the name without the ending is declared and not switched off;
otherwise it is refused whatever its arguments are. -/
theorem action_resolves_iff :
    (∀ args span err, ctx.action name args span = .error err → err.cause.kind ≠ .unresolved) ↔
      ctx.host.hasAction (splitOnce name).1 := by
  rw [Host.hasAction_eq_isOk, Host.actionExecutor, Host.isOk_capture]
  simp only [action_eq]
  cases ctx.host.action? (splitOnce name).1 with
  | error notice =>
    refine iff_of_false (fun hresolves => ?_) Bool.false_ne_true
    exact hresolves [] default _ rfl rfl
  | ok a =>
    refine iff_of_true (fun args span err herr => ?_) rfl
    dsimp only at herr
    split_ifs at herr
    · split at herr
      · rename_i hrefused
        cases herr
        simp [kind_of_argumentError? hrefused]
      · cases herr
    · cases herr
      simp [ParseError.located, Cause.kind]

/-! ### Checks and what they guard -/

theorem reachable_liftHost : liftHost.Reachable := Host.reachable_of_steps steps_liftHost .empty

/-- A check for a signal holds exactly if the signal can be read. A check for an action agrees with
calls of the action, written with the same name, on every name without the ending that asks for a
single run; on a name with the ending it agrees exactly if the host treats the name like the one
without it. -/
theorem presence_agrees_iff {h₀ : Host} (hreachable : h₀.Reachable) (strict : Bool) {g : Grammar}
    (hname : g.IsName name) :
    (∃ e, parse ⟨h₀, strict, g⟩ (g.presenceCheck .signal name).toList = .ok e ∧
      ∀ h : Host, ∃ b, e.test h = .ok b ∧
        (b = true ↔ ∀ span, ∃ read, signal ⟨h, strict, g⟩ name span = .ok read)) ∧
    ∃ e, parse ⟨h₀, strict, g⟩ (g.presenceCheck .action name).toList = .ok e ∧
      ∀ h : Host, ∃ b, e.test h = .ok b ∧
        ((b = true ↔ ∀ args span err, action ⟨h, strict, g⟩ name args span = .error err →
            err.cause.kind ≠ .unresolved) ↔
          ∀ base, base ≠ "" → name = base ++ ".once" → h.hasAction name = h.hasAction base) := by
  have hparse := exists_parse_presenceCheck ⟨h₀, strict, g⟩ hreachable.keyed hname
  obtain ⟨span, hsignal⟩ := hparse .signal
  obtain ⟨span', haction⟩ := hparse .action
  refine ⟨⟨_, hsignal, fun h => ⟨h.hasSignal name, ?_, ?_⟩⟩,
    ⟨_, haction, fun h => ⟨h.hasAction name, ?_, ?_⟩⟩⟩
  · simp [Expr.test]
  · simp only [exists_signal_iff, forall_const]
  · simp [Expr.test]
  · rw [action_resolves_iff]
    by_cases honce : ∃ base, base ≠ "" ∧ name = base ++ ".once"
    · obtain ⟨base, hbase, rfl⟩ := honce
      rw [splitOnce_append hbase, ← Bool.eq_iff_iff]
      refine ⟨fun hagree base' _ heq => ?_, fun hagree => hagree base hbase rfl⟩
      rwa [← (String.append_left_inj ".once").1 heq]
    · push Not at honce
      rw [splitOnce_of_ne honce]
      exact iff_of_true Iff.rfl fun base hbase heq => absurd heq (honce base hbase)

/-- Once the action is switched off, the check for a single run of it fails as the call does. -/
theorem presence_agrees_iff_liftHost :
    liftHost.Reachable ∧ Grammar.polish.IsName "Go.once" ∧
    ∃ e b, parse ⟨liftHost, true, .polish⟩ "(?act Go.once)".toList = .ok e ∧
      e.test (liftHost.setAvailable "Go" false) = .ok b ∧
      (b = true ↔ ∀ args span err,
        action ⟨liftHost.setAvailable "Go" false, true, .polish⟩ "Go.once" args span = .error err →
          err.cause.kind ≠ .unresolved) := by
  have hname : Grammar.polish.IsName "Go.once" := ⟨by decide, by decide⟩
  obtain ⟨-, e, hparse, htest⟩ := presence_agrees_iff reachable_liftHost true hname
  obtain ⟨b, hb, hagree⟩ := htest (liftHost.setAvailable "Go" false)
  refine ⟨reachable_liftHost, hname, e, b, hparse, hb, hagree.2 fun base _ heq => ?_⟩
  have hbase : "Go" ++ ".once" = base ++ ".once" := heq
  rw [← (String.append_left_inj ".once").1 hbase]
  decide

/-- While the action is available, the check for a single run of it fails although the call
resolves. -/
theorem presence_once_disagrees :
    ∃ e b, parse ⟨liftHost, false, .algebraic⟩ "hasaction(Go.once)".toList = .ok e ∧
      e.test liftHost = .ok b ∧
      ¬ (b = true ↔ ∀ args span err,
        action ⟨liftHost, false, .algebraic⟩ "Go.once" args span = .error err →
          err.cause.kind ≠ .unresolved) := by
  have hname : Grammar.algebraic.IsName "Go.once" := ⟨by decide, by decide⟩
  obtain ⟨span, hparse⟩ := exists_parse_presenceCheck ⟨liftHost, false, .algebraic⟩
    reachable_liftHost.keyed hname .action
  refine ⟨_, false, hparse, rfl, ?_⟩
  rw [action_resolves_iff]
  decide

end Context

end SignalRules
