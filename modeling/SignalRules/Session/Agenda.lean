import SignalRules.Session

/-!
# Running rules in a session

An action rule makes a call, and the reactions of the action can run further rules, to any depth.
What is still to be done is kept as an agenda. Running a rule puts the reactions to its call in
front of the agenda, so that they all happen before what comes after the rule. A fault ends the
run: the agenda is given up, and the rules on it that are being checked put the fault on the board.

Rules can call each other without end, so an agenda is worked off within a number of tasks. A run
that uses them up does not count as ended.

## Main definitions

* `Task`: an entry of an agenda.
* `Session.perform`, `Session.runRule`: run an expression up to the reactions to its call.
* `Session.finish`: work off an agenda.
* `Session.execute`, `Session.check`, `Session.attempt`: run a rule to its end.

## Main results

* `Session.finish_of_le`: a run that has ended gives the same for any greater number of tasks.
-/

namespace SignalRules

/-- Something that is still to be done. -/
inductive Task where
  /-- A reaction to a call with these arguments. -/
  | react (args : List Value) (reaction : Reaction)
  /-- The end of a rule that is being checked. -/
  | checked (rule : String)

namespace Session

/-- Make the call of an action expression: the outcome, and what is to be done before it holds. -/
def perform (e : Expr) : Run (Expr.Outcome × List Task) := do
  let (call, once) ← ofHost fun h => e.request h
  let (host, reactions) ← ofHost fun h => h.record call.name call.args
  modifyHost fun _ => host
  return (⟨once⟩, reactions.map (.react call.args))

/-- Run an expression by its type: what is to be done before the run is over. -/
def runRule (e : Expr) : Run (List Task) :=
  match e.type with
  | .boolean => do
    let _ ← ofHost fun h => e.test h
    return []
  | .action => Prod.snd <$> perform e
  | _ => do
    let _ ← ofHost fun h => e.value h
    return []

/-- Do a task: what is to be done next, before the rest of the agenda. -/
def advance : Task → Run (List Task)
  | .react args (.store signal) => do
    updateHost fun h => h.setSignal signal (args.headD .unset)
    return []
  | .react _ (.setSignal signal value) => do
    updateHost fun h => h.setSignal signal value
    return []
  | .react _ (.setAvailable name available) => do
    modifyHost fun h => h.setAvailable name available
    return []
  | .react _ (.run rule) => do
    match (← get).rules.get? rule with
    | none => return []
    | some script => runRule script.expr
  | .react args (.check rule) => return [.react args (.run rule), .checked rule]
  | .react _ (.fail fault) => throw fault
  | .checked _ => return []

/-- Give up an agenda: the rules on it that are being checked put the fault on the board, the
innermost first. -/
def abandon : List Task → Fault → Run Fault
  | [], fault => return fault
  | .checked rule :: rest, fault => do abandon rest (← post rule fault)
  | .react _ _ :: rest, fault => abandon rest fault

/-- A computation before the rest of an agenda, which its fault brings to an end. -/
def before {α : Type} (rest : List Task) (run : Run α) : Run α := do
  try run
  catch fault => throw (← abandon rest fault)

/-- Work off an agenda within a number of tasks. -/
def finish : Nat → List Task → Run Unit
  | _, [] => return ()
  | 0, _ :: _ => endless
  | n + 1, task :: rest => do
    let next ← before rest (advance task)
    finish n (next ++ rest)

/-- How many tasks a run may take: more than can be done in any time, so that only a run that goes
on forever reaches it. -/
def taskLimit : Nat := 1000000000000000000

/-- Make the call of an action rule. -/
def execute (script : Script) : Run Expr.Outcome := do
  let (outcome, agenda) ← perform script.expr
  finish taskLimit agenda
  return outcome

/-- Run a rule, put its fault on the board and keep it. -/
def check (name : String) (script : Script) : Run Unit :=
  kept do
    let agenda ← before [.checked name] (runRule script.expr)
    finish taskLimit (agenda ++ [.checked name])

/-- Run a rule and keep its fault. -/
def attempt (script : Script) : Run Unit :=
  kept do finish taskLimit (← runRule script.expr)

theorem finish_of_le {m n : Nat} (h : m ≤ n) {agenda : List Task} {s : Session}
    {r : Except Fault Unit × Session} (hr : finish m agenda s = some r) :
    finish n agenda s = some r := by
  induction m generalizing n agenda s with
  | zero =>
    cases agenda with
    | nil => cases n <;> exact hr
    | cons task rest => simp [finish, endless] at hr
  | succ m ih =>
    obtain ⟨n, rfl⟩ : ∃ k, n = k + 1 := ⟨n - 1, by omega⟩
    cases agenda with
    | nil => exact hr
    | cons task rest =>
      simp only [finish, bind, ExceptT.bind, ExceptT.mk, StateT.bind] at hr ⊢
      cases hb : before rest (advance task) s with
      | none => simp [hb] at hr
      | some p =>
        obtain ⟨result, s'⟩ := p
        cases result with
        | error fault => simpa [hb, ExceptT.bindCont] using hr
        | ok next =>
          simp only [hb, Option.bind_some, ExceptT.bindCont] at hr ⊢
          exact ih (by omega) hr

end Session

end SignalRules
