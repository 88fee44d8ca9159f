import SignalRules.Host.Definition
import SignalRules.Host.NameMap

/-!
# Hosts

The state of a host: what it declares, the present values of signals and properties, which names
are switched off, and the calls that its actions have received. Expressions keep the declarations
that they were checked against and look up everything else here by name whenever they are
evaluated.

Looking up a declaration reports an unknown name before a switched-off one; reading a value or
making a call reports a switched-off name first.

## Main definitions

* `Reaction`: a step of what an action does when it is called.
* `Host`, with look-up (`Host.signal?`, `Host.readSignal`, …) and updates.
* `Host.record`: a call reaches an action; `Host.calls`: the calls that were recorded.

## Main results

* `Host.calls_record`: a recorded call comes after the earlier ones.
-/

namespace SignalRules

/-- A step of what an action does when it is called. -/
inductive Reaction where
  /-- Set a signal to the first argument of the call. -/
  | store (signal : String)
  /-- Set a signal to a value. -/
  | setSignal (signal : String) (value : Value)
  /-- Switch a name on or off. -/
  | setAvailable (name : String) (available : Bool)
  /-- Run a named rule, if there is one. -/
  | run (rule : String)
  /-- Run a named rule and put its fault on the status board. -/
  | check (rule : String)
  /-- Fail. -/
  | fail (fault : Fault)
deriving DecidableEq, Inhabited

/-- A call that an action received. -/
structure Call where
  /-- The name of the action. -/
  name : String
  /-- The arguments. -/
  args : List Value
deriving DecidableEq, Inhabited

/-- The state of a host. -/
structure Host where
  /-- The signals with their present values. -/
  signals : NameMap (Signal × Value)
  /-- The actions with what they do when called. -/
  actions : NameMap (Action × List Reaction)
  /-- The properties with what they hold. -/
  properties : NameMap (Property × Contents)
  /-- The names that are switched off. -/
  unavailable : List String
  /-- The calls received, the latest first. -/
  log : List Call

namespace Host

/-- The host that declares nothing. -/
def empty : Host := ⟨.empty, .empty, .empty, [], []⟩

instance : Inhabited Host := ⟨empty⟩

/-! ### Look-up -/

/-- A name must not be switched off. -/
def checkAvailable (h : Host) (name : String) : Except Notice Unit :=
  if h.unavailable.contains name then .error (.unavailable name) else .ok ()

/-- The declaration of a signal. -/
def signal? (h : Host) (name : String) : Except Notice Signal :=
  match h.signals.get? name with
  | none => .error (.unknownSignal name)
  | some (signal, _) => do
    h.checkAvailable name
    return signal

/-- The declaration of an action. -/
def action? (h : Host) (name : String) : Except Notice Action :=
  match h.actions.get? name with
  | none => .error (.unknownAction name)
  | some (action, _) => do
    h.checkAvailable name
    return action

/-- The declaration of a property. -/
def property? (h : Host) (reference : String) : Except Notice Property :=
  match h.properties.get? reference with
  | none => .error (.unknownProperty reference)
  | some (property, _) => do
    h.checkAvailable reference
    return property

/-- Whether a signal resolves. -/
def hasSignal (h : Host) (name : String) : Bool :=
  h.signals.contains name && !h.unavailable.contains name

/-- Whether an action resolves. -/
def hasAction (h : Host) (name : String) : Bool :=
  h.actions.contains name && !h.unavailable.contains name

/-- The present value of a signal. -/
def readSignal (h : Host) (name : String) : Except Fault Value := do
  (h.checkAvailable name).mapError Fault.ofState
  match h.signals.get? name with
  | none => .error (Fault.ofState (.unknownSignal name))
  | some (_, value) => return value

/-- What a property holds at present. -/
def readProperty (h : Host) (reference : String) : Except Fault Contents := do
  (h.checkAvailable reference).mapError Fault.ofState
  match h.properties.get? reference with
  | none => .error (Fault.ofState (.unknownProperty reference))
  | some (_, contents) => return contents

/-- The calls received, the earliest first. -/
def calls (h : Host) : List Call := h.log.reverse

/-- A call reaches an action: it is recorded, and what the action does is returned. -/
def record (h : Host) (name : String) (args : List Value) :
    Except Fault (Host × List Reaction) := do
  (h.checkAvailable name).mapError Fault.ofState
  match h.actions.get? name with
  | none => .error (Fault.ofState (.unknownAction name))
  | some (_, reactions) => return ({ h with log := ⟨name, args⟩ :: h.log }, reactions)

/-- A recorded call comes after the earlier ones. -/
theorem calls_record {h h' : Host} {name : String} {args : List Value} {reactions : List Reaction}
    (hr : h.record name args = .ok (h', reactions)) : h'.calls = h.calls ++ [⟨name, args⟩] := by
  unfold record at hr
  cases ha : h.checkAvailable name with
  | error notice =>
    rw [ha] at hr
    cases hr
  | ok _ =>
    cases hg : h.actions.get? name with
    | none =>
      rw [ha, hg] at hr
      cases hr
    | some found =>
      rw [ha, hg] at hr
      cases hr
      simp [calls]

/-- The names of the signals, in order. -/
def signalNames (h : Host) : List String := h.signals.names

/-- The names of the actions, in order. -/
def actionNames (h : Host) : List String := h.actions.names

/-! ### Updates -/

/-- Declare a signal, with its value. -/
def addSignal (h : Host) (signal : Signal) (value : Value) : Host :=
  { h with signals := h.signals.insert signal.name (signal, value) }

/-- Declare an action, with what it does when called. -/
def addAction (h : Host) (action : Action) (reactions : List Reaction) : Host :=
  { h with actions := h.actions.insert action.name (action, reactions) }

/-- Declare a property, with what it holds. -/
def addProperty (h : Host) (property : Property) (contents : Contents) : Host :=
  { h with properties := h.properties.insert property.reference (property, contents) }

/-- Give a signal a new value. -/
def setSignal (h : Host) (name : String) (value : Value) : Except Notice Host :=
  match h.signals.get? name with
  | none => .error (.unknownSignal name)
  | some (signal, _) => .ok { h with signals := h.signals.insert name (signal, value) }

/-- Give a property new contents. -/
def setProperty (h : Host) (reference : String) (contents : Contents) : Except Notice Host :=
  match h.properties.get? reference with
  | none => .error (.unknownProperty reference)
  | some (property, _) =>
    .ok { h with properties := h.properties.insert reference (property, contents) }

/-- Switch a name on or off. -/
def setAvailable (h : Host) (name : String) (available : Bool) : Host :=
  if available then { h with unavailable := h.unavailable.filter fun n => n != name }
  else if h.unavailable.contains name then h
  else { h with unavailable := name :: h.unavailable }

/-- Forget the calls received. -/
def clearCalls (h : Host) : Host := { h with log := [] }

end Host

end SignalRules
