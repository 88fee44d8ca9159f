import Mathlib.Data.List.Forall2
import Mathlib.Logic.Relation
import SignalRules.Proofs.Names
import SignalRules.Proofs.TypeSoundness
import SignalRules.Session.Agenda

/-!
# Executing an action

A computation in a session keeps what it changed when a later step of it fails. Executing an action
evaluates and validates all arguments before the host is told of the call, so on a host whose
actions do nothing more than record their calls there is nothing to be kept: either the call is
recorded, with every argument in place, or the session is as it was.

## Main definitions

* `Host.Quiet`: a host whose actions do nothing when they are called; `Host.Step`: what can happen
  to such a host.
* `Action.Passes`: the values that the operands of a call pass on to an action.
* `Grammar.Invokes`: a source that is a call, and the name as it is written there.

## Main results

* `Host.quiet_of_steps`: a quiet host stays quiet.
* `Expr.arguments_eq_ok_iff`: when the arguments of a call are accepted.
* `Session.execute_eq`: on a quiet host, a session executes an action in one step.
* `Context.exists_invokes_of_parse`: an action is written as a call.
* `Session.execute_records_or_keeps`: what executing an action does to a session.
-/

namespace SignalRules

/-! ### Hosts whose actions do nothing -/

namespace Host

/-- No action does anything when it is called. -/
def Quiet (h : Host) : Prop := ∀ name a rs, h.actions.get? name = some (a, rs) → rs = []

/-- What can happen to a host, apart from declaring an action that does something. -/
inductive Step : Host → Host → Prop
  | addSignal (h : Host) (s : Signal) (v : Value) : Step h (h.addSignal s v)
  | addAction (h : Host) (a : Action) : Step h (h.addAction a [])
  | addProperty (h : Host) (p : Property) (c : Contents) : Step h (h.addProperty p c)
  | setSignal {h h' : Host} {name : String} {v : Value} (hset : h.setSignal name v = .ok h') :
      Step h h'
  | setProperty {h h' : Host} {reference : String} {c : Contents}
      (hset : h.setProperty reference c = .ok h') : Step h h'
  | setAvailable (h : Host) (name : String) (available : Bool) :
      Step h (h.setAvailable name available)
  | record {h h' : Host} {name : String} {args : List Value} {rs : List Reaction}
      (hrecord : h.record name args = .ok (h', rs)) : Step h h'
  | clearCalls (h : Host) : Step h h.clearCalls

variable {h h' : Host}

theorem quiet_empty : Quiet empty := by
  intro name a rs hget
  simp [empty] at hget

/-- Only a declaration changes the actions, and it adds one that does nothing. -/
theorem Step.quiet (hstep : Step h h') (hquiet : h.Quiet) : h'.Quiet := by
  cases hstep with
  | addSignal | addProperty | clearCalls => exact hquiet
  | addAction => exact forall_get?_insert hquiet rfl
  | setSignal hset =>
    unfold Host.setSignal at hset
    split at hset
    · cases hset
    · cases hset
      exact hquiet
  | setProperty hset =>
    unfold Host.setProperty at hset
    split at hset
    · cases hset
    · cases hset
      exact hquiet
  | setAvailable name available =>
    unfold Host.setAvailable
    split_ifs <;> exact hquiet
  | record hrecord =>
    unfold Host.record at hrecord
    obtain ⟨_, -, hrecord⟩ := bind_eq_ok_iff.1 hrecord
    split at hrecord
    · cases hrecord
    · cases hrecord
      exact hquiet

theorem Step.reachable (hstep : Step h h') (hh : h.Reachable) : h'.Reachable := by
  cases hstep with
  | addSignal s v => exact hh.addSignal s v
  | addAction a => exact hh.addAction a []
  | addProperty p c => exact hh.addProperty p c
  | setSignal hset => exact hh.setSignal hset
  | setProperty hset => exact hh.setProperty hset
  | setAvailable name available => exact hh.setAvailable name available
  | record hrecord => exact hh.record hrecord
  | clearCalls => exact hh.clearCalls

/-- A quiet host stays quiet. -/
theorem quiet_of_steps (hsteps : Relation.ReflTransGen Step h h') (hquiet : h.Quiet) :
    h'.Quiet := by
  induction hsteps with
  | refl => exact hquiet
  | tail _ hstep ih => exact hstep.quiet ih

theorem reachable_of_steps (hsteps : Relation.ReflTransGen Step h h') (hh : h.Reachable) :
    h'.Reachable := by
  induction hsteps with
  | refl => exact hh
  | tail _ hstep ih => exact hstep.reachable ih

/-- The host after it received a call. -/
def recorded (h : Host) (call : Call) : Host := { h with log := call :: h.log }

theorem calls_recorded (call : Call) : (h.recorded call).calls = h.calls ++ [call] := by
  simp [recorded, calls]

/-- A quiet host records the calls of the actions that resolve, and refuses all others. -/
theorem record_eq (hquiet : h.Quiet) (name : String) (args : List Value) :
    (h.hasAction name ∧ h.record name args = .ok (h.recorded ⟨name, args⟩, [])) ∨
      h.hasAction name = false ∧ ∃ fault, h.record name args = .error fault := by
  unfold hasAction record checkAvailable NameMap.contains
  by_cases havailable : h.unavailable.contains name
  · rw [if_pos havailable]
    exact .inr ⟨by rw [havailable, Bool.not_true, Bool.and_false], _, rfl⟩
  · rw [if_neg havailable]
    cases hget : h.actions.get? name with
    | none => exact .inr ⟨by simp, _, rfl⟩
    | some found =>
      obtain ⟨a, rs⟩ := found
      obtain rfl := hquiet name a rs hget
      exact .inl ⟨by simpa using havailable, rfl⟩

end Host

/-! ### Arguments -/

/-- The arguments that an action receives for the operands of a call: each is the value of its
operand, is unset or of the type of its parameter, and is accepted by the validator there. -/
structure Action.Passes (a : Action) (h : Host) (operands : List Expr) (args : List Value) :
    Prop where
  values : List.Forall₂ (fun e v => e.value h = .ok v) operands args
  accepted : ∀ i v, args[i]? = some v → ∃ p, a.parameter? i = some p ∧
    (v = .unset ∨ v.type? = some p.type) ∧ p.validator.check p.name v = .ok ()

namespace Expr

variable {h : Host} {a : Action}

/-- The first argument is evaluated and validated, and then the others are. -/
theorem arguments_cons_eq_ok_iff {index : Nat} {e : Expr} {es : List Expr} {vs : List Value} :
    arguments h a index (e :: es) = .ok vs ↔ ∃ v rest, vs = v :: rest ∧ e.value h = .ok v ∧
      (∀ p, a.parameter? index = some p → p.validator.check p.name v = .ok ()) ∧
      arguments h a (index + 1) es = .ok rest := by
  rw [arguments]
  constructor
  · intro hvs
    obtain ⟨v, hv, hvs⟩ := bind_eq_ok_iff.1 hvs
    cases hp : a.parameter? index with
    | none =>
      rw [hp] at hvs
      obtain ⟨_, -, hvs⟩ := bind_eq_ok_iff.1 hvs
      obtain ⟨rest, hrest, hvs⟩ := bind_eq_ok_iff.1 hvs
      cases hvs
      exact ⟨v, rest, rfl, hv, by simp, hrest⟩
    | some p =>
      rw [hp] at hvs
      obtain ⟨_, hcheck, hvs⟩ := bind_eq_ok_iff.1 hvs
      obtain ⟨rest, hrest, hvs⟩ := bind_eq_ok_iff.1 hvs
      cases hvs
      exact ⟨v, rest, rfl, hv, by simpa using hcheck, hrest⟩
  · rintro ⟨v, rest, rfl, hv, hcheck, hrest⟩
    rw [hv, hrest]
    cases hp : a.parameter? index with
    | none => rfl
    | some p =>
      simp only [ok_bind, hcheck p hp]
      rfl

/-- The arguments from an index on are the values of the operands, if the validators of their
parameters accept them. -/
theorem arguments_eq_ok_iff {index : Nat} {es : List Expr} {vs : List Value} :
    arguments h a index es = .ok vs ↔ List.Forall₂ (fun e v => e.value h = .ok v) es vs ∧
      ∀ i v p, vs[i]? = some v → a.parameter? (index + i) = some p →
        p.validator.check p.name v = .ok () := by
  induction es generalizing index vs with
  | nil =>
    constructor
    · intro h
      cases h
      exact ⟨.nil, by simp⟩
    · rintro ⟨hvalues, -⟩
      cases hvalues
      rfl
  | cons e es ih =>
    rw [arguments_cons_eq_ok_iff]
    constructor
    · rintro ⟨v, rest, rfl, hv, hcheck, hrest⟩
      obtain ⟨hvalues, hchecks⟩ := ih.1 hrest
      refine ⟨.cons hv hvalues, fun i w p hw hp => ?_⟩
      cases i with
      | zero =>
        cases hw
        exact hcheck p hp
      | succ i => exact hchecks i w p hw (by rwa [Nat.add_right_comm])
    · rintro ⟨hvalues, hchecks⟩
      cases hvalues with
      | @cons _ v _ rest hv hvalues =>
        refine ⟨v, rest, rfl, hv, fun p hp => hchecks 0 v p rfl hp, ih.2 ⟨hvalues, ?_⟩⟩
        intro i w p hw hp
        exact hchecks (i + 1) w p hw (by rwa [Nat.add_right_comm] at hp)

/-- The arguments of a call that was checked are what its operands pass on. -/
theorem arguments_eq_ok_iff_passes {ctx : Context} {written : String} {es : List Expr}
    (hcalled : Called ctx written (es.map Expr.head) a) {args : List Value} :
    arguments h a 0 es = .ok args ↔ a.Passes h es args := by
  rw [arguments_eq_ok_iff]
  constructor
  · rintro ⟨hvalues, hchecks⟩
    refine ⟨hvalues, fun i v hv => ?_⟩
    obtain ⟨hi, rfl⟩ := List.getElem?_eq_some_iff.1 hv
    have hlt : i < es.length := hvalues.length_eq ▸ hi
    have hvalue : (es.get ⟨i, hlt⟩).value h = .ok (args.get ⟨i, hi⟩) := hvalues.get hlt hi
    obtain ⟨p, hp⟩ := hcalled.exists_parameter (i := i) (by simpa using hlt)
    have htype : (es.get ⟨i, hlt⟩).type = .value p.type :=
      hcalled.types i _ p (by rw [List.getElem?_map, List.getElem?_eq_getElem hlt]; rfl) hp
    exact ⟨p, hp, isOf_of_value htype hvalue, hchecks i _ p hv (by rwa [Nat.zero_add])⟩
  · rintro ⟨hvalues, haccepted⟩
    refine ⟨hvalues, fun i v p hv hp => ?_⟩
    obtain ⟨p', hp', -, hcheck⟩ := haccepted i v hv
    rw [Nat.zero_add, hp'] at hp
    cases hp
    exact hcheck

end Expr

/-! ### Executing in a session -/

namespace Session

section Run

variable {α β : Type} {s s' : Session} {x : Run α} {k : α → Run β}

theorem bind_of_ok {a : α} (hx : x s = some (.ok a, s')) : (x >>= k) s = k a s' := by
  simp only [bind, ExceptT.bind, ExceptT.mk, StateT.bind, hx, Option.bind_some, ExceptT.bindCont]

theorem bind_of_error {fault : Fault} (hx : x s = some (.error fault, s')) :
    (x >>= k) s = some (.error fault, s') := by
  simp only [bind, ExceptT.bind, ExceptT.mk, StateT.bind, hx, Option.bind_some, ExceptT.bindCont]
  rfl

theorem ofHost_apply (f : Host → Except Fault α) (s : Session) :
    ofHost f s = some (f s.host, s) := by
  have hget : (get : Run Session) s = some (.ok s, s) := rfl
  rw [ofHost, bind_of_ok hget]
  cases f s.host <;> rfl

end Run

theorem finish_nil (limit : Nat) (s : Session) : finish limit [] s = some (.ok (), s) := by
  cases limit <;> rfl

section Perform

variable {s : Session} {e : Expr} {call : Call} {once : Bool} {fault : Fault}

theorem ofHost_of_eq {α : Type} (f : Host → Except Fault α) {result : Except Fault α}
    (h : f s.host = result) : ofHost f s = some (result, s) := by
  rw [ofHost_apply, h]

theorem perform_of_refused (hrequest : e.request s.host = .error fault) :
    perform e s = some (.error fault, s) :=
  bind_of_error (ofHost_of_eq (fun h => e.request h) hrequest)

theorem perform_of_unrecorded (hrequest : e.request s.host = .ok (call, once))
    (hrecord : s.host.record call.name call.args = .error fault) :
    perform e s = some (.error fault, s) := by
  rw [perform, bind_of_ok (ofHost_of_eq (fun h => e.request h) hrequest)]
  exact bind_of_error (ofHost_of_eq (·.record call.name call.args) hrecord)

theorem perform_of_recorded {host : Host} {reactions : List Reaction}
    (hrequest : e.request s.host = .ok (call, once))
    (hrecord : s.host.record call.name call.args = .ok (host, reactions)) :
    perform e s =
      some (.ok (⟨once⟩, reactions.map (.react call.args)), { s with host := host }) := by
  rw [perform, bind_of_ok (ofHost_of_eq (fun h => e.request h) hrequest)]
  exact bind_of_ok (ofHost_of_eq (·.record call.name call.args) hrecord)

end Perform

/-- On a quiet host, a session executes an action in one step: it takes over the new host, or it
stays as it was. -/
theorem execute_eq {s : Session} (hquiet : s.host.Quiet) (script : Script) :
    execute script s = some (match script.expr.execute s.host with
      | .ok (host, outcome) => (.ok outcome, { s with host := host })
      | .error fault => (.error fault, s)) := by
  unfold Expr.execute
  cases hrequest : script.expr.request s.host with
  | error fault => exact bind_of_error (perform_of_refused hrequest)
  | ok request =>
    obtain ⟨call, once⟩ := request
    simp only [ok_bind]
    rcases Host.record_eq hquiet call.name call.args with ⟨-, hrecord⟩ | ⟨-, fault, hrecord⟩
    · rw [execute, bind_of_ok (perform_of_recorded hrequest hrecord), hrecord]
      -- A quiet host leaves no reactions to the call.
      exact bind_of_ok (finish_nil _ _)
    · rw [execute, bind_of_error (perform_of_unrecorded hrequest hrecord), hrecord]
      rfl

end Session

theorem Expr.execute_action (h : Host) (span : Span) (a : Action) (once : Bool)
    (es : List Expr) : execute h (.node span (.action a once) es) =
      arguments h a 0 es >>= fun args =>
        h.record a.name args >>= fun recorded => .ok (recorded.1, ⟨once⟩) := by
  simp only [execute, request, bind_assoc, ok_bind, pure, Except.pure]

/-- An action on a quiet host makes its call, if its operands pass arguments on and the action
resolves; otherwise it fails. -/
theorem Expr.execute_cases {ctx : Context} {h : Host} (hquiet : h.Quiet) {a : Action}
    {written : String} {es : List Expr} (hcalled : Called ctx written (es.map Expr.head) a)
    (span : Span) (once : Bool) :
    (∃ args, a.Passes h es args ∧ h.hasAction a.name ∧
      execute h (.node span (.action a once) es) = .ok (h.recorded ⟨a.name, args⟩, ⟨once⟩)) ∨
    (∀ args, a.Passes h es args → h.hasAction a.name = false) ∧
      ∃ fault, execute h (.node span (.action a once) es) = .error fault := by
  rw [execute_action]
  cases harguments : arguments h a 0 es with
  | error fault =>
    refine .inr ⟨fun args hargs => ?_, fault, rfl⟩
    rw [(arguments_eq_ok_iff_passes hcalled).2 hargs] at harguments
    cases harguments
  | ok args =>
    have hpasses := (arguments_eq_ok_iff_passes hcalled).1 harguments
    rw [ok_bind]
    rcases Host.record_eq hquiet a.name args with ⟨hname, hrecord⟩ | ⟨hname, fault, hrecord⟩
    · exact .inl ⟨args, hpasses, hname, by rw [hrecord, ok_bind]⟩
    · exact .inr ⟨fun _ _ => hname, fault, by rw [hrecord, error_bind]⟩

/-! ### How a call is written -/

/-- A phrase is a call of an action by the name that is written, perhaps in parentheses. -/
inductive Phrase.Invokes (written : String) : Phrase → Prop
  | invoke (args : List Phrase) : Invokes written (.invoke written args)
  | group {inner : Phrase} (h : Invokes written inner) : Invokes written (.group inner)

/-- A source of the grammar is a call of an action by the name that is written. -/
def Grammar.Invokes (source : List Char) (written : String) : Grammar → Prop
  | polish => ∃ args, (Lexicon.ofGrammar .polish).Spells source
      (Term.form .action (.name written :: args)).yield
  | algebraic => ∃ p : Phrase, p.Invokes written ∧ p.RespectsPrecedence ∧
      (Lexicon.ofGrammar .algebraic).Spells source p.yield

section Written

variable {ctx : Context} {a : Action} {once : Bool}

/-- Only the operator for actions builds one, from a bare name and the arguments. -/
theorem Built.eq_action {op : Operator} {es es' : List Expr}
    (h : Built ctx op es (.action a once) es') : op = .action ∧ ∃ e written, es = e :: es' ∧
      e.head = .symbol written ∧ ctx.host.action? (splitOnce written).1 = .ok a ∧
      once = (splitOnce written).2 := by
  cases h with
  | action he ha => exact ⟨rfl, _, _, rfl, he, ha.resolves, rfl⟩

theorem Term.eq_name_of_build {t : Term} {e : Expr} {n : String} (h : t.build ctx = .ok e)
    (hhead : e.head = .symbol n) : t = .name n := by
  cases t with
  | number digits =>
    obtain ⟨e', he', rfl⟩ := unplaced_eq_ok_iff.1 h
    obtain ⟨v, -, rfl⟩ := Context.number_eq_ok_iff.1 he'
    cases hhead
  | text content =>
    cases h
    cases hhead
  | name m =>
    cases h
    cases hhead
    rfl
  | form op args =>
    obtain ⟨es, -, h⟩ := bind_eq_ok_iff.1 h
    obtain ⟨head, es', hbuilt, rfl⟩ := Context.unplaced_apply_eq_ok_iff.1 h
    exact absurd hhead (hbuilt.head_ne_symbol n)

/-- A term that builds an action is a form for actions that begins with a name. -/
theorem Term.exists_name_of_build {t : Term} {e : Expr} (h : t.build ctx = .ok e)
    (hhead : e.head = .action a once) : ∃ written args, t = .form .action (.name written :: args) ∧
      ctx.host.action? (splitOnce written).1 = .ok a ∧ once = (splitOnce written).2 := by
  cases t with
  | number digits =>
    obtain ⟨e', he', rfl⟩ := unplaced_eq_ok_iff.1 h
    obtain ⟨v, -, rfl⟩ := Context.number_eq_ok_iff.1 he'
    cases hhead
  | text | name =>
    cases h
    cases hhead
  | form op args =>
    obtain ⟨es, hes, h⟩ := bind_eq_ok_iff.1 h
    obtain ⟨head, es', hbuilt, rfl⟩ := Context.unplaced_apply_eq_ok_iff.1 h
    cases hhead
    obtain ⟨rfl, e, written, rfl, he, hwritten⟩ := hbuilt.eq_action
    cases args with
    | nil => cases hes
    | cons t ts =>
      obtain ⟨e', he', hes⟩ := bind_eq_ok_iff.1 hes
      obtain ⟨rest, -, hes⟩ := bind_eq_ok_iff.1 hes
      cases hes
      exact ⟨written, ts, by rw [eq_name_of_build he' he], hwritten⟩

/-- A phrase that builds an action is a call of it. -/
theorem Phrase.exists_invokes_of_build {p : Phrase} {e : Expr} (hp : p.RespectsPrecedence)
    (h : p.build ctx = .ok e) (hhead : e.head = .action a once) :
    ∃ written, p.Invokes written ∧ ctx.host.action? (splitOnce written).1 = .ok a ∧
      once = (splitOnce written).2 := by
  -- Operators that are written between, before or in front of parentheses build no action.
  have happly {op : Operator} {es : List Expr} (hop : op ≠ .action)
      (h : unplaced (ctx.apply op es default) = .ok e) : False := by
    obtain ⟨head, es', hbuilt, rfl⟩ := Context.unplaced_apply_eq_ok_iff.1 h
    cases hhead
    exact hop hbuilt.eq_action.1
  induction hp with
  | number | negative =>
    obtain ⟨e', he', rfl⟩ := unplaced_eq_ok_iff.1 h
    obtain ⟨v, -, rfl⟩ := Context.number_eq_ok_iff.1 he'
    cases hhead
  | text =>
    cases h
    cases hhead
  | signal =>
    obtain ⟨e', he', rfl⟩ := unplaced_eq_ok_iff.1 h
    obtain ⟨s, -, rfl⟩ := Context.signal_eq_ok_iff.1 he'
    cases hhead
  | presence => exact (happly (by simp) h).elim
  | call hop =>
    obtain ⟨_, -, h⟩ := bind_eq_ok_iff.1 h
    exact (happly (by rintro rfl; cases hop) h).elim
  | invoke name hargs =>
    obtain ⟨es, -, h⟩ := bind_eq_ok_iff.1 h
    obtain ⟨e', he', rfl⟩ := unplaced_eq_ok_iff.1 h
    obtain ⟨b, hcalled, rfl⟩ := Context.action_eq_ok_iff.1 he'
    cases hhead
    exact ⟨name, .invoke _, hcalled.resolves, rfl⟩
  | group _ ih =>
    obtain ⟨written, hinvokes, hwritten⟩ := ih h
    exact ⟨written, hinvokes.group, hwritten⟩
  | minus | not =>
    obtain ⟨_, -, h⟩ := bind_eq_ok_iff.1 h
    exact (happly (by simp) h).elim
  | binary hop =>
    obtain ⟨_, -, h⟩ := bind_eq_ok_iff.1 h
    obtain ⟨_, -, h⟩ := bind_eq_ok_iff.1 h
    exact (happly (by rintro rfl; cases hop) h).elim

/-- A source that is read as an action is a call of it, by its name or its name and the ending
that asks for a single run. -/
theorem Context.exists_invokes_of_parse {source : List Char} {e : Expr}
    (h : ctx.parse source = .ok e) (hhead : e.head = .action a once) :
    ∃ written, ctx.grammar.Invokes source written ∧
      ctx.host.action? (splitOnce written).1 = .ok a ∧ once = (splitOnce written).2 := by
  obtain ⟨xs, hspells, hread, -⟩ := parse_eq_ok_iff.1 ⟨e, h, rfl⟩
  rw [← Expr.head_erase] at hhead
  cases hg : ctx.grammar with
  | polish =>
    simp only [readLexemes, hg] at hread
    obtain ⟨t, rfl, hbuild⟩ := Polish.readExpression_eq_ok_iff.1 hread
    obtain ⟨written, args, rfl, hwritten⟩ := Term.exists_name_of_build hbuild hhead
    exact ⟨written, ⟨args, hg ▸ hspells⟩, hwritten⟩
  | algebraic =>
    simp only [readLexemes, hg] at hread
    have hregular := Algebraic.isRegular_of_spells (hg ▸ hspells)
    obtain ⟨p, hp, rfl, hbuild⟩ := (Algebraic.readExpression_eq_ok_iff hregular).1 hread
    obtain ⟨written, hinvokes, hwritten⟩ := Phrase.exists_invokes_of_build hp hbuild hhead
    exact ⟨written, ⟨p, hinvokes, hp, hg ▸ hspells⟩, hwritten⟩

end Written

/-- The ending is written exactly if it was split off. -/
theorem Action.once_iff {a : Action} {written : String} (h : a.name = (splitOnce written).1) :
    ((splitOnce written).2 = true ↔ written = a.name ++ ".once") ∧
      ((splitOnce written).2 = false ↔ written = a.name) := by
  have hwritten := written_splitOnce h
  have hlonger : a.name ++ ".once" ≠ a.name := fun heq => by
    simpa using congrArg String.length heq
  cases honce : (splitOnce written).2 with
  | true =>
    rw [honce, Action.written, if_pos rfl] at hwritten
    simp [← hwritten, hlonger]
  | false =>
    rw [honce, Action.written, if_neg (by simp)] at hwritten
    simp [← hwritten, hlonger.symm]

/-! ### What executing an action does -/

/-- Executing an action that was read either records one call, or fails and leaves the session as
it was. It records the call exactly if the operands pass arguments on and the action resolves. The
call comes last, under the name of the action and with those arguments, and the rule is to be
retired exactly if the call was written with the ending that asks for it. -/
theorem Session.execute_records_or_keeps {ctx : Context} {source : List Char} {script : Script}
    {s : Session} (hhost : Relation.ReflTransGen Host.Step .empty ctx.host)
    (hparse : ctx.parse source = .ok script.expr) (htype : script.expr.type = .action)
    (hlater : Relation.ReflTransGen Host.Step ctx.host s.host) :
    ∃ a once written, script.expr.head = .action a once ∧ ctx.host.action? a.name = .ok a ∧
      ctx.grammar.Invokes source written ∧ (once = true ↔ written = a.name ++ ".once") ∧
      (once = false ↔ written = a.name) ∧
      ((∃ args host, a.Passes s.host script.expr.operands args ∧ s.host.hasAction a.name ∧
          host = { s.host with log := ⟨a.name, args⟩ :: s.host.log } ∧
          host.calls = s.host.calls ++ [⟨a.name, args⟩] ∧
          execute script s = some (.ok ⟨once⟩, { s with host := host })) ∨
        (∀ args, a.Passes s.host script.expr.operands args → s.host.hasAction a.name = false) ∧
          ∃ fault, execute script s = some (.error fault, s)) := by
  have hquiet := Host.quiet_of_steps hlater (Host.quiet_of_steps hhost Host.quiet_empty)
  have hkeyed := (Host.reachable_of_steps hhost .empty).keyed
  have hsound := (Context.checked_of_parse hparse).sound.head
  rw [execute_eq hquiet]
  obtain ⟨⟨span, head, es⟩, grammar⟩ := script
  simp only [Expr.head, Expr.operands] at hsound ⊢
  cases head with
  | action a once =>
    obtain ⟨_, hcalled⟩ := hsound.exists_called
    obtain ⟨written, hinvokes, hresolves, rfl⟩ := Context.exists_invokes_of_parse hparse rfl
    have hname := hkeyed.name_action hresolves
    obtain ⟨hwith, hwithout⟩ := Action.once_iff hname
    refine ⟨a, _, written, rfl, hname ▸ hresolves, hinvokes, hwith, hwithout, ?_⟩
    rcases Expr.execute_cases hquiet hcalled span (splitOnce written).2 with
      ⟨args, hpasses, haction, hexecute⟩ | ⟨hrefused, fault, hexecute⟩
    · exact .inl ⟨args, _, hpasses, haction, rfl, Host.calls_recorded _, by rw [hexecute]; rfl⟩
    · exact .inr ⟨hrefused, fault, by rw [hexecute]⟩
  | _ => cases htype

theorem steps_liftHost : Relation.ReflTransGen Host.Step .empty liftHost :=
  .tail (.single (.addSignal _ _ _)) (.addAction _ _)

/-- An action that is called once, after the signal that it is called with was set to a text. -/
theorem Session.execute_records_or_keeps_liftHost :
    Relation.ReflTransGen Host.Step .empty liftHost ∧
    ∃ (script : Script) (h : Host) (a : Action) (args : List Value),
      (⟨liftHost, true, .polish⟩ : Context).parse
        "(act Go.once (sig Lift) 'up')".toList = .ok script.expr ∧
      script.expr.type = .action ∧ liftHost.setSignal "Lift" (.string "7") = .ok h ∧
      a.Passes h script.expr.operands args ∧
      execute script (start h default .english) =
        some (.ok ⟨true⟩, start (h.recorded ⟨a.name, args⟩) default .english) := by
  have hrun : ((⟨liftHost, true, .polish⟩ : Context).parse
      "(act Go.once (sig Lift) 'up')".toList).map (fun e => (e.type,
        (liftHost.setSignal "Lift" (.string "7")).map fun h =>
          (e.execute h).map fun r => r.2.deactivate)) = .ok (.action, .ok (.ok true)) := by
    cbv
  obtain ⟨e, he, hrun⟩ := map_eq_ok_iff.1 hrun
  obtain ⟨htype, hrun⟩ := Prod.mk.inj hrun
  obtain ⟨h, hh, hrun⟩ := map_eq_ok_iff.1 hrun
  obtain ⟨⟨host, outcome⟩, hreceived, honce⟩ := map_eq_ok_iff.1 hrun
  have hscript : (⟨liftHost, true, .polish⟩ : Context).parse
      "(act Go.once (sig Lift) 'up')".toList = .ok (Script.mk e .polish).expr := he
  have hsteps : Relation.ReflTransGen Host.Step liftHost h := .single (.setSignal hh)
  have hexecuted : execute ⟨e, .polish⟩ (start h default .english) =
      some (.ok outcome, start host default .english) := by
    rw [execute_eq (Host.quiet_of_steps (steps_liftHost.trans hsteps) Host.quiet_empty)]
    simp only [start, hreceived]
  obtain ⟨a, once, -, -, -, -, -, -, hexecute⟩ := execute_records_or_keeps
    (s := start h default .english) steps_liftHost hscript htype hsteps
  rw [hexecuted] at hexecute
  rcases hexecute with ⟨args, _, hpasses, -, rfl, -, hexecute⟩ | ⟨-, fault, hexecute⟩
  · have houtcome := (Prod.mk.inj (Option.some.inj hexecute)).1
    obtain rfl : outcome = ⟨once⟩ := Except.ok.inj houtcome
    obtain rfl : once = true := honce
    exact ⟨steps_liftHost, ⟨e, .polish⟩, h, a, args, he, htype, hh, hpasses,
      hexecuted.trans hexecute⟩
  · cases hexecute

end SignalRules
