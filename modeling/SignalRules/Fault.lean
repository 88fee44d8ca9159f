import SignalRules.Message

/-!
# Faults

A fault is what evaluation reports instead of a value. It has a kind, a notice for people, and a
mark that tells whether it has already been put on a status board, so that a fault which crosses
several layers is shown once.

## Main definitions

* `FaultKind`, `Fault`.
* `Notice.unknownSignal` and the like: the notices about names that do not resolve.
* One function per other cause, such as `Fault.divisionByZero` and `Fault.indexOutOfRange`.
-/

namespace SignalRules

namespace Notice

/-- No signal has this name. -/
def unknownSignal (name : String) : Notice := ⟨.unknownSignal, [name]⟩

/-- No action has this name. -/
def unknownAction (name : String) : Notice := ⟨.unknownAction, [name]⟩

/-- No property has this reference. -/
def unknownProperty (reference : String) : Notice := ⟨.unknownProperty, [reference]⟩

/-- The name exists and is switched off. -/
def unavailable (name : String) : Notice := ⟨.unavailable, [name]⟩

end Notice

/-- The kinds of faults. -/
inductive FaultKind where
  /-- A value lies outside what is representable or permitted. -/
  | outOfRange
  /-- A value cannot be used for this purpose. -/
  | badValue
  /-- A name does not resolve in the present state of the host. -/
  | badState
deriving DecidableEq, Inhabited

/-- Why an evaluation gave no result. -/
structure Fault where
  /-- The kind of the fault. -/
  kind : FaultKind
  /-- What is shown to people. -/
  notice : Notice
  /-- Whether the fault is already on a status board. -/
  reported : Bool := false
deriving DecidableEq, Inhabited

namespace Fault

/-- The English text of a fault. -/
def text (fault : Fault) : String := fault.notice.text

/-- A name that does not resolve, as a fault. -/
def ofState (notice : Notice) : Fault := { kind := .badState, notice := notice }

/-- The text is not a decimal number. -/
def notANumber (text : String) : Fault := { kind := .badValue, notice := ⟨.notANumber, [text]⟩ }

/-- A value is needed and there is none. -/
def unsetValue : Fault := { kind := .badValue, notice := ⟨.unsetValue, []⟩ }

/-- A divisor is zero. -/
def divisionByZero : Fault := { kind := .badValue, notice := ⟨.divisionByZero, []⟩ }

/-- A number leaves the range. -/
def overflow : Fault := { kind := .outOfRange, notice := ⟨.numericOverflow, []⟩ }

/-- The expression has no result of the wanted sort. -/
def notA (what : String) : Fault := { kind := .badValue, notice := ⟨.notAValue, [what]⟩ }

/-- An index outside a collection. -/
def indexOutOfRange (index : Int) (reference : String) (length : Nat) : Fault :=
  { kind := .outOfRange
    notice := ⟨.indexOutOfRange, [toString index, reference, toString length]⟩ }

/-- A number outside its declared bounds, with the three texts. -/
def outOfBounds (found least greatest : String) : Fault :=
  { kind := .outOfRange, notice := ⟨.valueOutOfBounds, [found, least, greatest]⟩ }

/-- A text that has to have characters has none. -/
def valueEmpty (subject : String) : Fault :=
  { kind := .badValue, notice := ⟨.valueEmpty, [subject]⟩ }

/-- A value that is not in a list of permitted ones. -/
def notAllowed (found subject : String) : Fault :=
  { kind := .badValue, notice := ⟨.valueNotAllowed, [found, subject]⟩ }

end Fault

end SignalRules
