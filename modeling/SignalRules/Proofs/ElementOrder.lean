import SignalRules.Proofs.Execution
import SignalRules.Proofs.HostDependence

/-!
# The order of unordered collections

A host may list the elements of an unordered collection in any order. Evaluation sees them sorted,
and values that the order of values cannot tell apart are equal, so sorting undoes every
rearrangement. Two hosts that differ by such rearrangements only give every expression the same
value and the same truth. Executing an action in one of them goes step by step as in the other: the
same calls are made, the same faults occur, and the hosts keep differing in the order of elements
only.

What happens after a call has been received is up to a handler. Any handler that goes alike in such
sessions keeps the order without effect. The reactions that a host has to its calls are one of them,
to any depth.

## Main definitions

* `Contents.SameButOrder`, `Host.SameButOrder`, `Session.SameButOrder`: equal but for the order of
  elements whose order does not count.
* `Session.Alike`: two computations that go alike in sessions that differ in this way.
* `Session.Handler`, `Session.executeWith`: executing an action with any handler of its call;
  `Session.Handler.IgnoresOrder`: a handler that goes alike.

## Main results

* `Contents.SameButOrder.observed`: sorting undoes rearrangements.
* `Session.alike_advance`, `Session.alike_finish`: tasks and agendas are done alike.
* `Session.execute_eq_executeWith`: executing a rule is executing it with the reactions as handler.
* `Session.order_unobservable`: the order of elements has no effect.
-/

namespace SignalRules

/-! ### Sorting values -/

namespace Value

theorem le_total (v w : Value) : (v.le w || w.le v) = true := by
  cases v with
  | unset => rfl
  | string s =>
    cases w with
    | string t =>
      simp only [le, Bool.or_eq_true, Bool.not_eq_true', decide_eq_false_iff_not, not_lt]
      exact LinearOrder.le_total s t
    | _ => rfl
  | number m =>
    cases w with
    | number n => simpa [le] using Int.le_total m.hundredths n.hundredths
    | _ => rfl

theorem le_trans (u v w : Value) (huv : u.le v = true) (hvw : v.le w = true) : u.le w = true := by
  cases u with
  | unset => rfl
  | string r =>
    cases v with
    | unset => cases huv
    | string s =>
      cases w with
      | string t =>
        simp only [le, Bool.not_eq_true', decide_eq_false_iff_not, not_lt] at huv hvw ⊢
        exact huv.trans hvw
      | unset => cases hvw
      | number n => rfl
    | number n =>
      cases w with
      | number k => rfl
      | _ => cases hvw
  | number m =>
    cases v with
    | number n =>
      cases w with
      | number k =>
        simp only [le, decide_eq_true_eq] at huv hvw ⊢
        exact Int.le_trans huv hvw
      | _ => cases hvw
    | _ => cases huv

/-- Values that are not greater than each other are equal. -/
theorem le_antisymm {v w : Value} (hvw : v.le w = true) (hwv : w.le v = true) : v = w := by
  cases v with
  | unset =>
    cases w with
    | unset => rfl
    | _ => cases hwv
  | string s =>
    cases w with
    | string t =>
      simp only [le, Bool.not_eq_true', decide_eq_false_iff_not, not_lt] at hvw hwv
      rw [hvw.antisymm hwv]
    | unset => cases hvw
    | number n => cases hwv
  | number m =>
    cases w with
    | number n =>
      simp only [le, decide_eq_true_eq] at hvw hwv
      rw [Fixed.eq_of_hundredths (Int.le_antisymm hvw hwv)]
    | _ => cases hvw

/-- Sorting undoes every rearrangement. -/
theorem mergeSort_eq_of_perm {vs ws : List Value} (h : vs.Perm ws) :
    vs.mergeSort le = ws.mergeSort le := by
  have hsame : (vs.mergeSort le).Perm (ws.mergeSort le) :=
    (List.mergeSort_perm vs le).trans (h.trans (List.mergeSort_perm ws le).symm)
  exact hsame.eq_of_pairwise (fun _ _ _ _ => le_antisymm)
    (List.pairwise_mergeSort le_trans le_total vs) (List.pairwise_mergeSort le_trans le_total ws)

end Value

/-! ### Related results -/

/-- Results that are the same failure, or values that are related. -/
inductive ResultRel {ε α : Type} (R : α → α → Prop) : Except ε α → Except ε α → Prop
  | ok {a b : α} (h : R a b) : ResultRel R (.ok a) (.ok b)
  | error (e : ε) : ResultRel R (.error e) (.error e)

theorem resultRel_eq_iff {ε α : Type} {r r' : Except ε α} :
    ResultRel (· = ·) r r' ↔ r = r' := by
  constructor
  · rintro (rfl | _) <;> rfl
  · rintro rfl
    cases r with
    | ok a => exact .ok rfl
    | error e => exact .error e

/-! ### Hosts that differ in the order of elements -/

/-- Contents that are equal but for the order of values whose order does not count. -/
inductive Contents.SameButOrder : Contents → Contents → Prop
  | scalar (v : Value) : SameButOrder (.scalar v) (.scalar v)
  | sequence (vs : List Value) : SameButOrder (.sequence vs) (.sequence vs)
  | unordered {vs ws : List Value} (h : vs.Perm ws) : SameButOrder (.unordered vs) (.unordered ws)

/-- Evaluation does not see the order of values whose order does not count. -/
theorem Contents.SameButOrder.observed {c d : Contents} (h : c.SameButOrder d) :
    c.observed = d.observed := by
  cases h with
  | scalar | sequence => rfl
  | unordered h =>
    simp only [Contents.observed, Contents.single, Contents.elements,
      Value.mergeSort_eq_of_perm h]

namespace Host

/-- Hosts that are equal but for the order of elements whose order does not count. -/
structure SameButOrder (h h' : Host) : Prop where
  signals : h.signals = h'.signals
  actions : h.actions = h'.actions
  properties : ∀ reference, Option.Rel (fun p q => p.1 = q.1 ∧ p.2.SameButOrder q.2)
    (h.properties.get? reference) (h'.properties.get? reference)
  unavailable : h.unavailable = h'.unavailable
  log : h.log = h'.log

namespace SameButOrder

variable {h h' : Host} (hsame : h.SameButOrder h')

include hsame

theorem checkAvailable (name : String) : h.checkAvailable name = h'.checkAvailable name := by
  rw [Host.checkAvailable, Host.checkAvailable, hsame.unavailable]

theorem readSignal (name : String) : h.readSignal name = h'.readSignal name := by
  rw [Host.readSignal, Host.readSignal, hsame.checkAvailable, hsame.signals]

theorem readProperty (reference : String) :
    (h.readProperty reference).map Contents.observed =
      (h'.readProperty reference).map Contents.observed := by
  have hfound := hsame.properties reference
  rw [Host.readProperty, Host.readProperty, hsame.checkAvailable]
  cases h'.checkAvailable reference with
  | error notice => rfl
  | ok _ =>
    generalize h.properties.get? reference = found at hfound
    generalize h'.properties.get? reference = found' at hfound
    cases hfound with
    | none => rfl
    | some hentry => exact congrArg Except.ok hentry.2.observed

theorem hasSignal (name : String) : h.hasSignal name = h'.hasSignal name := by
  rw [Host.hasSignal, Host.hasSignal, hsame.signals, hsame.unavailable]

theorem hasAction (name : String) : h.hasAction name = h'.hasAction name := by
  rw [Host.hasAction, Host.hasAction, hsame.actions, hsame.unavailable]

/-- A signal is set in both or in neither. -/
theorem setSignal (name : String) (v : Value) :
    ResultRel SameButOrder (h.setSignal name v) (h'.setSignal name v) := by
  rw [Host.setSignal, Host.setSignal, hsame.signals]
  cases h'.signals.get? name with
  | none => exact .error _
  | some found =>
    exact .ok ⟨rfl, hsame.actions, hsame.properties, hsame.unavailable, hsame.log⟩

theorem setAvailable (name : String) (available : Bool) :
    (h.setAvailable name available).SameButOrder (h'.setAvailable name available) := by
  unfold Host.setAvailable
  rw [hsame.unavailable]
  split_ifs
  · exact ⟨hsame.signals, hsame.actions, hsame.properties, rfl, hsame.log⟩
  · exact hsame
  · exact ⟨hsame.signals, hsame.actions, hsame.properties, rfl, hsame.log⟩

/-- A call is recorded in both or in neither, and meets the same reactions. -/
theorem record (name : String) (args : List Value) :
    ResultRel (fun r r' => r.1.SameButOrder r'.1 ∧ r.2 = r'.2) (h.record name args)
      (h'.record name args) := by
  rw [Host.record, Host.record, hsame.checkAvailable, hsame.actions]
  cases h'.checkAvailable name with
  | error notice => exact .error _
  | ok _ =>
    cases h'.actions.get? name with
    | none => exact .error _
    | some found =>
      exact .ok ⟨⟨hsame.signals, rfl, hsame.properties, hsame.unavailable,
        congrArg (List.cons _) hsame.log⟩, rfl⟩

end SameButOrder

end Host

/-- A call that is recorded meets the reactions that the host keeps for its action. -/
theorem Host.get?_actions_of_record {h h' : Host} {name : String} {args : List Value}
    {reactions : List Reaction} (hrecord : h.record name args = .ok (h', reactions)) :
    ∃ a, h'.actions.get? name = some (a, reactions) := by
  unfold record at hrecord
  obtain ⟨_, -, hrecord⟩ := bind_eq_ok_iff.1 hrecord
  split at hrecord
  · cases hrecord
  · next hget =>
    cases hrecord
    exact ⟨_, hget⟩

/-! ### Evaluation -/

section Evaluation

variable {h h' : Host}

/-- Hosts that differ in the order of elements answer alike at every node. -/
theorem Head.agrees_of_sameButOrder (hsame : h.SameButOrder h') (head : Head) :
    head.Agrees h h' := by
  cases head with
  | signal s => exact hsame.readSignal s.name
  | property mode p => exact hsame.readProperty p.reference
  | presence kind names =>
    cases kind with
    | signal => exact List.all_congr rfl hsame.hasSignal
    | action => exact List.all_congr rfl hsame.hasAction
  | _ => trivial

namespace Expr

theorem agrees_of_sameButOrder (hsame : h.SameButOrder h') (e : Expr) :
    e.Everywhere fun head _ => head.Agrees h h' :=
  everywhere_iff_contains.2 fun n _ => n.head.agrees_of_sameButOrder hsame

theorem arguments_congr {a : Action} {es : List Expr} (hes : ∀ e ∈ es, value h e = value h' e)
    (index : Nat) : arguments h a index es = arguments h' a index es := by
  induction es generalizing index with
  | nil => rfl
  | cons e es ih =>
    rw [List.forall_mem_cons] at hes
    rw [arguments, arguments, hes.1, ih hes.2]

/-- An action expression makes the same call. -/
theorem request_congr (hsame : h.SameButOrder h') (e : Expr) : request h e = request h' e := by
  obtain ⟨span, head, es⟩ := e
  cases head with
  | action a once =>
    rw [request, request, arguments_congr fun e _ => value_congr (agrees_of_sameButOrder hsame e)]
  | _ => rfl

/-- The call of an action expression is made on both hosts or on neither. -/
theorem execute_congr (hsame : h.SameButOrder h') (e : Expr) :
    ResultRel (fun r r' => r.1.SameButOrder r'.1 ∧ r.2 = r'.2) (execute h e) (execute h' e) := by
  unfold execute
  rw [request_congr hsame]
  cases request h' e with
  | error fault => exact .error fault
  | ok requested =>
    obtain ⟨call, once⟩ := requested
    have hrecord := hsame.record call.name call.args
    simp only [ok_bind]
    generalize h.record call.name call.args = recorded at hrecord
    generalize h'.record call.name call.args = recorded' at hrecord
    cases hrecord with
    | ok hhost => exact .ok ⟨hhost.1, rfl⟩
    | error fault => exact .error fault

end Expr

end Evaluation

/-! ### Computations in sessions -/

namespace Session

/-- Sessions that are equal but for the order of elements whose order does not count. -/
structure SameButOrder (s s' : Session) : Prop where
  host : s.host.SameButOrder s'.host
  dialect : s.dialect = s'.dialect
  rules : s.rules = s'.rules
  board : s.board = s'.board
  lastFault : s.lastFault = s'.lastFault

/-- Two computations go alike: in sessions that differ in the order of elements only, both end or
neither does, with results that are related and sessions that differ in this way again. -/
def Alike {α : Type} (R : α → α → Prop) (x y : Run α) : Prop :=
  ∀ s s', s.SameButOrder s' →
    Option.Rel (fun r r' => ResultRel R r.1 r'.1 ∧ r.2.SameButOrder r'.2) (x s) (y s')

section Rules

variable {α β : Type} {R : α → α → Prop} {S : β → β → Prop} {x y : Run α}

theorem alike_pure {a b : α} (h : R a b) : Alike R (pure a) (pure b) :=
  fun _ _ hs => .some ⟨.ok h, hs⟩

theorem alike_throw (fault : Fault) : Alike R (throw fault) (throw fault) :=
  fun _ _ hs => .some ⟨.error fault, hs⟩

theorem alike_get : Alike SameButOrder get get := fun _ _ hs => .some ⟨.ok hs, hs⟩

theorem alike_set {s s' : Session} (h : s.SameButOrder s') : Alike (· = ·) (set s) (set s') :=
  fun _ _ _ => .some ⟨.ok rfl, h⟩

theorem Alike.bind {k l : α → Run β} (hx : Alike R x y) (hk : ∀ a b, R a b → Alike S (k a) (l b)) :
    Alike S (x >>= k) (y >>= l) := by
  intro s s' hs
  have hfirst := hx s s' hs
  simp only [Bind.bind, ExceptT.bind, ExceptT.mk, StateT.bind]
  generalize x s = r at hfirst
  generalize y s' = r' at hfirst
  cases hfirst with
  | none => exact .none
  | @some p q hpq =>
    obtain ⟨result, t⟩ := p
    obtain ⟨result', t'⟩ := q
    obtain ⟨hresult, ht⟩ := hpq
    cases hresult with
    | ok hab => exact hk _ _ hab t t' ht
    | error fault => exact .some ⟨.error fault, ht⟩

theorem Alike.tryCatch {k l : Fault → Run α} (hx : Alike R x y)
    (hk : ∀ fault, Alike R (k fault) (l fault)) :
    Alike R (MonadExcept.tryCatch x k) (MonadExcept.tryCatch y l) := by
  intro s s' hs
  have hfirst := hx s s' hs
  simp only [MonadExcept.tryCatch, tryCatchThe, MonadExceptOf.tryCatch, ExceptT.tryCatch,
    ExceptT.mk, Bind.bind, StateT.bind]
  generalize x s = r at hfirst
  generalize y s' = r' at hfirst
  cases hfirst with
  | none => exact .none
  | @some p q hpq =>
    obtain ⟨result, t⟩ := p
    obtain ⟨result', t'⟩ := q
    obtain ⟨hresult, ht⟩ := hpq
    cases hresult with
    | ok hab => exact .some ⟨.ok hab, ht⟩
    | error fault => exact hk fault t t' ht

/-- What is computed on related hosts goes alike if the results are related. -/
theorem alike_ofHost {f : Host → Except Fault α}
    (hf : ∀ h h', h.SameButOrder h' → ResultRel R (f h) (f h')) :
    Alike R (ofHost f) (ofHost f) := by
  intro s s' hs
  rw [ofHost_apply, ofHost_apply]
  exact .some ⟨hf _ _ hs.host, hs⟩

theorem alike_modifyHost {f g : Host → Host}
    (hf : ∀ h h', h.SameButOrder h' → (f h).SameButOrder (g h')) :
    Alike (· = ·) (modifyHost f) (modifyHost g) :=
  fun _ _ hs => .some ⟨.ok rfl, hf _ _ hs.host, hs.dialect, hs.rules, hs.board, hs.lastFault⟩

theorem alike_updateHost {f : Host → Except Notice Host}
    (hf : ∀ h h', h.SameButOrder h' → ResultRel Host.SameButOrder (f h) (f h')) :
    Alike (· = ·) (updateHost f) (updateHost f) := by
  refine alike_get.bind fun s s' hs => ?_
  have hupdated := hf s.host s'.host hs.host
  generalize f s.host = updated at hupdated
  generalize f s'.host = updated' at hupdated
  cases hupdated with
  | ok h => exact alike_modifyHost fun _ _ _ => h
  | error notice => exact alike_throw _

end Rules

/-! ### Running rules -/

/-- The call of an action expression is made alike. -/
theorem alike_perform (e : Expr) : Alike (· = ·) (perform e) (perform e) := by
  refine (alike_ofHost fun h h' hsame =>
    resultRel_eq_iff.2 (Expr.request_congr hsame e)).bind fun request request' hrequest => ?_
  subst hrequest
  refine (alike_ofHost fun h h' hsame =>
    hsame.record request.1.name request.1.args).bind fun r r' hr => ?_
  refine (alike_modifyHost fun _ _ _ => hr.1).bind fun _ _ _ => alike_pure ?_
  rw [hr.2]

/-- A rule is run alike. -/
theorem alike_runRule (e : Expr) : Alike (· = ·) (runRule e) (runRule e) := by
  have hagrees {h h' : Host} (hsame : h.SameButOrder h') := Expr.agrees_of_sameButOrder hsame e
  unfold runRule
  split
  · refine (alike_ofHost fun h h' hsame =>
      resultRel_eq_iff.2 (Expr.test_congr (hagrees hsame))).bind fun _ _ _ => alike_pure rfl
  · refine (alike_perform e).bind fun r r' hr => alike_pure ?_
    rw [hr]
  · refine (alike_ofHost fun h h' hsame =>
      resultRel_eq_iff.2 (Expr.value_congr (hagrees hsame))).bind fun _ _ _ => alike_pure rfl

/-- A task is done alike. -/
theorem alike_advance (task : Task) : Alike (· = ·) (advance task) (advance task) := by
  cases task with
  | checked rule => exact alike_pure rfl
  | react args reaction =>
    cases reaction with
    | store name | setSignal name value =>
      exact (alike_updateHost fun _ _ hsame => hsame.setSignal _ _).bind fun _ _ _ =>
        alike_pure rfl
    | setAvailable name available =>
      exact (alike_modifyHost fun _ _ hsame => hsame.setAvailable name available).bind
        fun _ _ _ => alike_pure rfl
    | run rule =>
      refine alike_get.bind fun s s' hs => ?_
      rw [hs.rules]
      cases s'.rules.get? rule with
      | none => exact alike_pure rfl
      | some script => exact alike_runRule script.expr
    | check rule => exact alike_pure rfl
    | fail fault => exact alike_throw fault

theorem alike_post (rule : String) (fault : Fault) :
    Alike (· = ·) (post rule fault) (post rule fault) := by
  refine alike_get.bind fun s s' hs => ?_
  rw [hs.board]
  refine (alike_set ?_).bind fun _ _ _ => alike_pure rfl
  exact ⟨hs.host, hs.dialect, hs.rules, rfl, hs.lastFault⟩

/-- An agenda is given up alike. -/
theorem alike_abandon (agenda : List Task) (fault : Fault) :
    Alike (· = ·) (abandon agenda fault) (abandon agenda fault) := by
  induction agenda generalizing fault with
  | nil => exact alike_pure rfl
  | cons task rest ih =>
    cases task with
    | react args reaction => exact ih fault
    | checked rule =>
      refine (alike_post rule fault).bind fun posted posted' hposted => ?_
      rw [hposted]
      exact ih posted'

theorem alike_before (rest : List Task) {x : Run (List Task)} (hx : Alike (· = ·) x x) :
    Alike (· = ·) (before rest x) (before rest x) := by
  refine hx.tryCatch fun fault => (alike_abandon rest fault).bind fun shown shown' hshown => ?_
  rw [hshown]
  exact alike_throw shown'

/-- An agenda is worked off alike, by induction on the number of tasks. -/
theorem alike_finish (n : Nat) (agenda : List Task) :
    Alike (· = ·) (finish n agenda) (finish n agenda) := by
  induction n generalizing agenda with
  | zero =>
    cases agenda with
    | nil => exact alike_pure rfl
    | cons task rest => exact fun _ _ _ => .none
  | succ n ih =>
    cases agenda with
    | nil => exact alike_pure rfl
    | cons task rest =>
      refine (alike_before rest (alike_advance task)).bind fun next next' hnext => ?_
      rw [hnext]
      exact ih (next' ++ rest)

/-! ### Handlers -/

/-- What happens after a call has been received. -/
def Handler := Call → Run Unit

/-- A handler goes alike in sessions that differ in the order of elements only. -/
def Handler.IgnoresOrder (handle : Handler) : Prop :=
  ∀ call, Alike (· = ·) (handle call) (handle call)

/-- Make the call of an action rule and have it handled. -/
def executeWith (handle : Handler) (script : Script) : Run Expr.Outcome := do
  let (call, once) ← ofHost fun h => script.expr.request h
  let (host, _) ← ofHost fun h => h.record call.name call.args
  modifyHost fun _ => host
  handle call
  return ⟨once⟩

/-- The handler that works off the reactions of the host to a call. -/
def reactions : Handler := fun call => do
  match (← get).host.actions.get? call.name with
  | none => return ()
  | some (_, reactions) => finish taskLimit (reactions.map (.react call.args))

theorem reactions_apply {s : Session} {call : Call} {a : Action} {agenda : List Reaction}
    (hactions : s.host.actions.get? call.name = some (a, agenda)) :
    reactions call s = finish taskLimit (agenda.map (.react call.args)) s := by
  have hget : (get : Run Session) s = some (.ok s, s) := rfl
  rw [reactions, bind_of_ok hget]
  simp only [hactions]

/-- A rule is executed as with the reactions as the handler of its call. -/
theorem execute_eq_executeWith (script : Script) :
    execute script = executeWith reactions script := by
  funext s
  rw [execute, executeWith]
  cases hrequest : script.expr.request s.host with
  | error fault =>
    have hrequested := ofHost_of_eq (fun h => script.expr.request h) hrequest
    rw [bind_of_error (perform_of_refused hrequest), bind_of_error hrequested]
  | ok request =>
    obtain ⟨call, once⟩ := request
    rw [bind_of_ok (ofHost_of_eq (fun h => script.expr.request h) hrequest)]
    cases hrecord : s.host.record call.name call.args with
    | error fault =>
      rw [bind_of_error (perform_of_unrecorded hrequest hrecord)]
      exact (bind_of_error (ofHost_of_eq (·.record call.name call.args) hrecord)).symm
    | ok recorded =>
      obtain ⟨host, agenda⟩ := recorded
      obtain ⟨a, hactions⟩ := Host.get?_actions_of_record hrecord
      have hreactions : reactions call { s with host := host } =
          finish taskLimit (agenda.map (.react call.args)) { s with host := host } :=
        reactions_apply hactions
      have hhandled : (reactions call >>= fun _ => pure ⟨once⟩ : Run Expr.Outcome)
          { s with host := host } =
          (finish taskLimit (agenda.map (.react call.args)) >>= fun _ => pure ⟨once⟩ :
            Run Expr.Outcome) { s with host := host } := by
        simp only [bind, ExceptT.bind, ExceptT.mk, StateT.bind, hreactions]
      rw [bind_of_ok (perform_of_recorded hrequest hrecord)]
      refine hhandled.symm.trans (Eq.symm ?_)
      exact bind_of_ok (ofHost_of_eq (·.record call.name call.args) hrecord)

/-- The reactions of a host go alike. -/
theorem ignoresOrder_reactions : reactions.IgnoresOrder := by
  intro call
  refine alike_get.bind fun s s' hs => ?_
  rw [hs.host.actions]
  cases s'.host.actions.get? call.name with
  | none => exact alike_pure rfl
  | some found => exact alike_finish taskLimit _

/-- With a handler that goes alike, a rule is executed alike. -/
theorem Handler.IgnoresOrder.alike_executeWith {handle : Handler} (hhandle : handle.IgnoresOrder)
    (script : Script) : Alike (· = ·) (executeWith handle script) (executeWith handle script) := by
  refine (alike_ofHost fun h h' hsame =>
    resultRel_eq_iff.2 (Expr.request_congr hsame script.expr)).bind fun request _ hrequest => ?_
  subst hrequest
  refine (alike_ofHost fun h h' hsame =>
    hsame.record request.1.name request.1.args).bind fun r r' hr => ?_
  refine (alike_modifyHost fun _ _ _ => hr.1).bind fun _ _ _ => ?_
  exact (hhandle request.1).bind fun _ _ _ => alike_pure rfl

/-- The order of elements whose order does not count has no effect. In sessions that differ in it
only, an expression has the same value and the same truth, its call is received in both or fails
alike, and executing it has the same outcome, with any handler of the call that goes alike and so
with all that follows from the reactions of the host. What is left differs in that order only, so
the same calls were received. -/
theorem order_unobservable {s s' : Session} (hsame : s.SameButOrder s') (script : Script) :
    script.expr.value s.host = script.expr.value s'.host ∧
    script.expr.test s.host = script.expr.test s'.host ∧
    ResultRel (fun r r' => r.1.SameButOrder r'.1 ∧ r.2 = r'.2)
      (script.expr.execute s.host) (script.expr.execute s'.host) ∧
    (∀ handle : Handler, handle.IgnoresOrder →
      Option.Rel (fun r r' => r.1 = r'.1 ∧ r.2.SameButOrder r'.2)
        (executeWith handle script s) (executeWith handle script s')) ∧
    Option.Rel (fun r r' => r.1 = r'.1 ∧ r.2.SameButOrder r'.2)
      (execute script s) (execute script s') := by
  have hagrees := Expr.agrees_of_sameButOrder hsame.host script.expr
  have hhandled (handle : Handler) (hhandle : handle.IgnoresOrder) :
      Option.Rel (fun r r' => r.1 = r'.1 ∧ r.2.SameButOrder r'.2)
        (executeWith handle script s) (executeWith handle script s') := by
    have hexecute := hhandle.alike_executeWith script s s' hsame
    simpa only [resultRel_eq_iff] using hexecute
  refine ⟨Expr.value_congr hagrees, Expr.test_congr hagrees,
    Expr.execute_congr hsame.host script.expr, hhandled, ?_⟩
  rw [execute_eq_executeWith]
  exact hhandled reactions ignoresOrder_reactions

end Session

/-- A collection whose order does not count. -/
def shelfProperty : Property := ⟨"Shelf", "Shelf", .string, .unordered⟩

/-- An action that keeps its argument in a signal. -/
def takeAction : Action := ⟨"Take", "Take", [⟨"item", .string, .nonEmpty⟩], none, none⟩

/-- A host that lists the elements of the collection in the given order. -/
def shelfHost (vs : List Value) : Host :=
  ((Host.empty.addSignal (.plain "Hand" .string) .unset).addAction takeAction
    [.store "Hand"]).addProperty shelfProperty (.unordered vs)

/-- Call the action with the first element. -/
def takeFirst : Script :=
  ⟨.node ⟨0, 24⟩ (.action takeAction false)
    [.node ⟨5, 23⟩ (.property (.element .string) shelfProperty)
      [.constant (.number 0) ⟨21, 22⟩]], .algebraic⟩

theorem sameButOrder_shelfHost {vs ws : List Value} (h : vs.Perm ws) :
    (shelfHost vs).SameButOrder (shelfHost ws) where
  signals := rfl
  actions := rfl
  properties reference := by
    simp only [shelfHost, Host.addProperty, NameMap.get?_insert]
    split_ifs
    · exact .some ⟨rfl, .unordered h⟩
    · exact .none
  unavailable := rfl
  log := rfl

namespace Session

/-- A session with such a host. -/
def shelfSession (vs : List Value) : Session := start (shelfHost vs) default .english

/-- The action is called with the least element, although it is listed last. -/
theorem exists_execute_takeFirst :
    ∃ r, execute takeFirst (shelfSession [.string "b", .string "a"]) = some r ∧
      r.2.host.calls = [⟨"Take", [.string "a"]⟩] := by
  have hrequest : takeFirst.expr.request (shelfHost [.string "b", .string "a"]) =
      .ok (⟨"Take", [.string "a"]⟩, false) := by
    cbv
  have hperformed : perform takeFirst.expr (shelfSession [.string "b", .string "a"]) = _ :=
    perform_of_recorded hrequest rfl
  obtain ⟨s, hfinish, hcalls⟩ : ∃ s, finish 1 [.react [.string "a"] (.store "Hand")]
      { shelfSession [.string "b", .string "a"] with
        host := (shelfHost [.string "b", .string "a"]).recorded ⟨"Take", [.string "a"]⟩ } =
        some (.ok (), s) ∧ s.host.calls = [⟨"Take", [.string "a"]⟩] := ⟨_, rfl, rfl⟩
  rw [execute, bind_of_ok hperformed]
  exact ⟨_, bind_of_ok (finish_of_le (by decide) hfinish), hcalls⟩

/-- Whichever element is listed first, the action is called with the least one. -/
theorem order_unobservable_shelfHost :
    [Value.string "b", .string "a"].Perm [.string "a", .string "b"] ∧
    ∃ r r', execute takeFirst (shelfSession [.string "b", .string "a"]) = some r ∧
      execute takeFirst (shelfSession [.string "a", .string "b"]) = some r' ∧
      r.2.host.calls = [⟨"Take", [.string "a"]⟩] ∧ r.1 = r'.1 ∧ r.2.SameButOrder r'.2 := by
  have hperm : [Value.string "b", .string "a"].Perm [.string "a", .string "b"] := .swap ..
  have hsame : (shelfSession [.string "b", .string "a"]).SameButOrder
      (shelfSession [.string "a", .string "b"]) :=
    ⟨sameButOrder_shelfHost hperm, rfl, rfl, rfl, rfl⟩
  obtain ⟨r, hr, hcalls⟩ := exists_execute_takeFirst
  have hrel := (order_unobservable hsame takeFirst).2.2.2.2
  rw [hr] at hrel
  cases hr' : execute takeFirst (shelfSession [.string "a", .string "b"]) with
  | none =>
    rw [hr'] at hrel
    cases hrel
  | some r' =>
    rw [hr'] at hrel
    cases hrel with
    | some h => exact ⟨hperm, r, r', hr, rfl, hcalls, h.1, h.2⟩

end Session

end SignalRules
