import SignalRules.Host
import SignalRules.Json.Reader

/-!
# Host fixtures

A fixture describes the signals, actions and properties of a host in a JSON text. First its shape
is checked as a whole; then the values in it are read, in the order signals, actions, properties.
For each signal the options come first, then the outdated literals by name, then the value.

Every record of a fixture is an object without unknown or repeated fields, or an array of its
fields in order. In an array only fields at the end that have a default may be missing.

## Main definitions

* `Fixture` and the entries in it; `Fixture.parse?` reads a text.
* `FixtureError`: why a fixture describes no host.
* `Fixture.host`: the host that is described.
* `Host.ofFixture`: the host of a fixture text.
-/

namespace SignalRules

/-- The entry of a signal. -/
structure SignalEntry where
  /-- The name. -/
  name : String
  /-- The type of the values. -/
  type : ValueType
  /-- The present value. -/
  value : Json
  /-- The name shown to people. -/
  display : Option String
  /-- The limits, in whole units. -/
  range : Option (Int × Int)
  /-- The values to compare with. -/
  options : Option (List Json)
  /-- The outdated literals. -/
  legacy : NameMap Json

/-- The entry of a parameter. -/
structure ParameterEntry where
  /-- The name. -/
  name : String
  /-- The type of the argument. -/
  type : ValueType
  /-- The limits, in whole units. -/
  range : Option (Int × Int)

/-- The entry of an action. -/
structure ActionEntry where
  /-- The name. -/
  name : String
  /-- The name shown to people. -/
  display : Option String
  /-- The template for descriptions. -/
  format : Option String
  /-- The parameters. -/
  arguments : List ParameterEntry
  /-- The parameter for any further arguments. -/
  variadic : Option ParameterEntry

/-- The entry of a property. -/
structure PropertyEntry where
  /-- The reference. -/
  reference : String
  /-- The type of the values. -/
  type : ValueType
  /-- The shape. -/
  shape : Shape
  /-- What the property holds. -/
  value : Json
  /-- The name shown to people. -/
  display : Option String

/-- The description of a host. -/
structure Fixture where
  /-- The signals. -/
  signals : List SignalEntry
  /-- The actions. -/
  actions : List ActionEntry
  /-- The properties. -/
  properties : List PropertyEntry
  /-- The names that are switched off. -/
  unavailable : List String

/-! ### Records -/

/-- The fields of a record, each under its name, as far as they are given. -/
structure Record where
  /-- The fields that are given. -/
  fields : List (String × Json)
  /-- Whether the record is an array. -/
  positional : Bool

namespace Record

/-- Read a record with the given field names. -/
def ofJson? (names : List String) : Json → Option Record
  | .object fields =>
    let given := fields.map Prod.fst
    if given.all names.contains && given.eraseDups.length == given.length then some ⟨fields, false⟩
    else none
  | .array items => if items.length ≤ names.length then some ⟨names.zip items, true⟩ else none
  | _ => none

variable {α : Type}

/-- A field that must be given. -/
def required (r : Record) (name : String) (read? : Json → Option α) : Option α :=
  r.fields.lookup name >>= read?

/-- A field that is absent or null if there is nothing to say. An array has to hold the null. -/
def optional (r : Record) (name : String) (read? : Json → Option α) : Option (Option α) :=
  match r.fields.lookup name with
  | none => if r.positional then none else some none
  | some .null => some none
  | some j => (read? j).map some

/-- A field that has a default. -/
def defaulted (r : Record) (name : String) (read? : Json → Option α) (default : α) : Option α :=
  match r.fields.lookup name with
  | none => some default
  | some j => read? j

end Record

/-! ### Reading entries -/

namespace Fixture

variable {α : Type}

/-- Read an array, item by item. -/
def list? (read? : Json → Option α) (j : Json) : Option (List α) := do
  let items ← j.array?
  items.mapM read?

/-- Read one of several words. A word may also be written as an object with the word for its only
field, which holds null. -/
def word? (choices : List (String × α)) : Json → Option α
  | .string word => choices.lookup word
  | .object [(word, .null)] => choices.lookup word
  | _ => none

/-- Read a type. -/
def type? : Json → Option ValueType :=
  word? [("string", .string), ("number", .number)]

/-- Read a shape. -/
def shape? : Json → Option Shape :=
  word? [("scalar", .scalar), ("sequence", .sequence), ("unordered", .unordered)]

/-- Read a bound of a range: a whole number that fits a machine word with a sign. -/
def bound? (j : Json) : Option Int := do
  let n ← j.integer?
  if n ≤ greatestCount then some n else none

/-- Read the two bounds of a range. -/
def range? : Json → Option (Int × Int)
  | .array [least, greatest] => do
    let least ← bound? least
    let greatest ← bound? greatest
    return (least, greatest)
  | _ => none

/-- Read an object as a map; of repeated fields the last one counts. -/
def map? : Json → Option (NameMap Json)
  | .object fields => some (fields.foldl (fun m field => m.insert field.1 field.2) .empty)
  | _ => none

/-- Read the entry of a signal. -/
def signal? (j : Json) : Option SignalEntry := do
  let r ← Record.ofJson? ["name", "type", "value", "display", "range", "options", "legacy"] j
  return {
    name := ← r.required "name" Json.string?
    type := ← r.required "type" type?
    value := ← r.defaulted "value" some .null
    display := ← r.optional "display" Json.string?
    range := ← r.optional "range" range?
    options := ← r.optional "options" Json.array?
    legacy := ← r.defaulted "legacy" map? .empty }

/-- Read the entry of a parameter. -/
def parameter? (j : Json) : Option ParameterEntry := do
  let r ← Record.ofJson? ["name", "type", "range"] j
  return {
    name := ← r.required "name" Json.string?
    type := ← r.required "type" type?
    range := ← r.optional "range" range? }

/-- Read the entry of an action. -/
def action? (j : Json) : Option ActionEntry := do
  let r ← Record.ofJson? ["name", "display", "format", "arguments", "variadic"] j
  return {
    name := ← r.required "name" Json.string?
    display := ← r.optional "display" Json.string?
    format := ← r.optional "format" Json.string?
    arguments := ← r.defaulted "arguments" (list? parameter?) []
    variadic := ← r.optional "variadic" parameter? }

/-- Read the entry of a property. -/
def property? (j : Json) : Option PropertyEntry := do
  let r ← Record.ofJson? ["reference", "type", "shape", "value", "display"] j
  return {
    reference := ← r.required "reference" Json.string?
    type := ← r.required "type" type?
    shape := ← r.defaulted "shape" shape? .scalar
    value := ← r.defaulted "value" some .null
    display := ← r.optional "display" Json.string? }

/-- Read a fixture. -/
def ofJson? (j : Json) : Option Fixture := do
  let r ← Record.ofJson? ["signals", "actions", "properties", "unavailable"] j
  return {
    signals := ← r.defaulted "signals" (list? signal?) []
    actions := ← r.defaulted "actions" (list? action?) []
    properties := ← r.defaulted "properties" (list? property?) []
    unavailable := ← r.defaulted "unavailable" (list? Json.string?) [] }

/-- Read the text of a fixture. -/
def parse? (text : String) : Option Fixture := Json.parse? text >>= ofJson?

end Fixture

/-! ### The described host -/

/-- Why a value in a fixture is refused. -/
inductive ValueDefect where
  /-- The number does not fit, or has too many digits to be written out. -/
  | outOfRange
  /-- Neither a text nor a number nor null. -/
  | notAValue
  /-- A collection is not given as an array. -/
  | notAnArray
deriving DecidableEq, Inhabited

/-- The text of a defect. -/
def ValueDefect.message : ValueDefect → String
  | outOfRange => "number out of range"
  | notAValue => "expected a string, a number or null"
  | notAnArray => "expected an array"

/-- Why a fixture describes no host. -/
inductive FixtureError where
  /-- The text is not JSON, or not of the shape of a fixture. -/
  | malformed
  /-- A value of the named signal or property is refused. -/
  | invalidValue (name : String) (defect : ValueDefect)
deriving DecidableEq, Inhabited

/-- The text of a fixture error. -/
def FixtureError.message : FixtureError → String
  | malformed => "invalid host fixture"
  | invalidValue name defect => "invalid value for " ++ name ++ ": " ++ defect.message

/-- The decimal literal of a JSON number. -/
def Json.literal? : Json → Option (List Char)
  | .integer n => some (toString n).toList
  | .real x => some (x.literal .fixture)
  | _ => none

/-- Read a value of the named signal or property. Numbers keep two decimals. -/
def Value.ofJson (name : String) (j : Json) : Except FixtureError Value :=
  match j with
  | .null => .ok .unset
  | .string s => .ok (.string s)
  | j =>
    match j.literal? with
    | none => .error (.invalidValue name .notAValue)
    | some literal =>
      match Fixed.parse? literal with
      | some n => .ok (.number n)
      | none => .error (.invalidValue name .outOfRange)

/-- Read the values of the named property's collection; null is an empty collection. -/
def Contents.valuesOfJson (name : String) : Json → Except FixtureError (List Value)
  | .array items => items.mapM (Value.ofJson name)
  | .null => .ok []
  | _ => .error (.invalidValue name .notAnArray)

/-- Read what the named property holds. -/
def Contents.ofJson (name : String) (shape : Shape) (j : Json) : Except FixtureError Contents :=
  match shape with
  | .scalar => .scalar <$> Value.ofJson name j
  | .sequence => .sequence <$> valuesOfJson name j
  | .unordered => .unordered <$> valuesOfJson name j

/-- The limit that a range sets. -/
def Validator.ofRange? : Option (Int × Int) → Validator
  | some (least, greatest) => .ofUnits least greatest
  | none => .any

/-- The declaration and the value of a signal. -/
def SignalEntry.declare (e : SignalEntry) : Except FixtureError (Signal × Value) := do
  let options ← e.options.mapM fun options => options.mapM (Value.ofJson e.name)
  let legacy ← e.legacy.entries.mapM fun (literal, modern) => do
    return (Value.string literal, ← Value.ofJson e.name modern)
  let value ← Value.ofJson e.name e.value
  let signal : Signal := {
    name := e.name
    display := e.display.getD e.name
    type := e.type
    validator := .ofRange? e.range
    options := options
    legacy := legacy }
  return (signal, value)

/-- The declaration of a parameter. -/
def ParameterEntry.declare (e : ParameterEntry) : Parameter := ⟨e.name, e.type, .ofRange? e.range⟩

/-- The declaration of an action. -/
def ActionEntry.declare (e : ActionEntry) : Action where
  name := e.name
  display := e.display.getD e.name
  parameters := e.arguments.map ParameterEntry.declare
  variadic := e.variadic.map ParameterEntry.declare
  template := e.format

/-- The declaration and the contents of a property. -/
def PropertyEntry.declare (e : PropertyEntry) : Except FixtureError (Property × Contents) := do
  let contents ← Contents.ofJson e.reference e.shape e.value
  return (⟨e.reference, e.display.getD e.reference, e.type, e.shape⟩, contents)

/-- The host that a fixture describes. Its actions do nothing but record their calls. -/
def Fixture.host (f : Fixture) : Except FixtureError Host := do
  let signals ← f.signals.mapM SignalEntry.declare
  let properties ← f.properties.mapM PropertyEntry.declare
  let host := signals.foldl (fun h s => h.addSignal s.1 s.2) Host.empty
  let host := f.actions.foldl (fun h a => h.addAction a.declare []) host
  let host := properties.foldl (fun h p => h.addProperty p.1 p.2) host
  return f.unavailable.foldl (fun h name => h.setAvailable name false) host

/-- The host that a fixture text describes. -/
def Host.ofFixture (text : String) : Except FixtureError Host :=
  match Fixture.parse? text with
  | none => .error .malformed
  | some fixture => fixture.host

end SignalRules
