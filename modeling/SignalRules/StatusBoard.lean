import SignalRules.Fault

/-!
# Status boards

A board shows the faults of rules to people, in the words of a catalog. A fault can cross several
layers that all want to show it; the first one does, and marks the fault so that the others leave
it alone.

## Main definitions

* `Status`, `StatusBoard`.
* `StatusBoard.report`: show a fault under the name of a rule, unless it is marked.

## Main results

* `StatusBoard.report_report`: a fault that was reported is not shown again.
-/

namespace SignalRules

/-- A line on the board. -/
structure Status where
  /-- The rule that failed. -/
  rule : String
  /-- The localization key of the fault. -/
  key : String
  /-- What is shown. -/
  message : String
deriving DecidableEq, Inhabited

/-- The faults that are shown. -/
structure StatusBoard where
  /-- The words to show them in. -/
  catalog : Catalog
  /-- The lines, the oldest first. -/
  statuses : List Status

namespace StatusBoard

/-- The board without lines. -/
def empty (catalog : Catalog) : StatusBoard := ⟨catalog, []⟩

/-- The line for a fault of a rule. -/
def status (board : StatusBoard) (rule : String) (fault : Fault) : Status :=
  ⟨rule, fault.notice.key, fault.notice.render board.catalog⟩

/-- Show a fault of a rule unless it is marked: the board, the marked fault, and the new line. -/
def report (board : StatusBoard) (rule : String) (fault : Fault) :
    StatusBoard × Fault × Option Status :=
  if fault.reported then (board, fault, none)
  else
    let line := board.status rule fault
    ({ board with statuses := board.statuses ++ [line] }, { fault with reported := true },
      some line)

/-- Take all lines off. -/
def clear (board : StatusBoard) : StatusBoard := { board with statuses := [] }

theorem reported_report (board : StatusBoard) (rule : String) (fault : Fault) :
    (board.report rule fault).2.1.reported = true := by
  unfold report
  split <;> simp_all

theorem report_report (board : StatusBoard) (rule other : String) (fault : Fault) :
    (board.report rule fault).1.report other (board.report rule fault).2.1 =
      ((board.report rule fault).1, (board.report rule fault).2.1, none) := by
  generalize hr : board.report rule fault = r
  have h := reported_report board rule fault
  rw [hr] at h
  simp [report, h]

end StatusBoard

end SignalRules
