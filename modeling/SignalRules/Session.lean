import SignalRules.Dialect
import SignalRules.StatusBoard

/-!
# Sessions

A session keeps a host, a dialect, rules under names, and a status board. Computations in a session
change it step by step, and what was changed stays changed when a later step fails.

## Main definitions

* `Session`, and `Session.Run`: a computation in a session that can fail.
* `Session.define`: keep a source as a rule.
* `Session.report`: put the last fault on the board.
-/

namespace SignalRules

/-- A host with rules. -/
structure Session where
  /-- The host. -/
  host : Host
  /-- How sources are read. -/
  dialect : Dialect
  /-- The rules, by name. -/
  rules : NameMap Script
  /-- The faults that are shown. -/
  board : StatusBoard
  /-- The fault that was met last. -/
  lastFault : Option Fault

namespace Session

/-- The session without rules. -/
def start (host : Host) (dialect : Dialect) (catalog : Catalog) : Session :=
  ⟨host, dialect, .empty, .empty catalog, none⟩

/-- A computation in a session. A fault does not undo what happened before it; a computation that
does not end has neither a result nor a fault. -/
abbrev Run (α : Type) := ExceptT Fault (StateT Session Option) α

/-- The computation that does not end. -/
def endless {α : Type} : Run α := fun _ => none

/-- Change the host. -/
def modifyHost (f : Host → Host) : Run Unit :=
  modify fun s => { s with host := f s.host }

/-- Change the host, if the change is possible. -/
def updateHost (f : Host → Except Notice Host) : Run Unit := do
  match f (← get).host with
  | .ok host => modifyHost fun _ => host
  | .error notice => throw (Fault.ofState notice)

/-- A result that was computed on the present host. -/
def ofHost {α : Type} (f : Host → Except Fault α) : Run α := do
  match f (← get).host with
  | .ok a => return a
  | .error fault => throw fault

/-- Put a fault on the board, under the name of a rule. -/
def post (rule : String) (fault : Fault) : Run Fault := do
  let s ← get
  let (board, fault, _) := s.board.report rule fault
  set { s with board := board }
  return fault

/-- Keep the fault of a computation as the last one. -/
def kept {α : Type} (run : Run α) : Run α := do
  try run
  catch fault =>
    modify fun s => { s with lastFault := some fault }
    throw fault

/-- Put the last fault on the board: the new line, if there is one, or `none` if no fault was
kept. -/
def report (rule : String) : StateM Session (Option (Option Status)) := do
  let s ← get
  match s.lastFault with
  | none => return none
  | some fault =>
    let (board, fault, line) := s.board.report rule fault
    set { s with board := board, lastFault := some fault }
    return some line

/-- Read a source and keep it as the rule of a name; a source that is refused leaves the old rule
in place. -/
def define (name : String) (purpose : Purpose) (source : List Char) :
    StateM Session (Except SourceError Script) := do
  let s ← get
  match s.dialect.readFor s.host purpose source with
  | .error e => return .error e
  | .ok script =>
    set { s with rules := s.rules.insert name script }
    return .ok script

end Session

end SignalRules
