import SignalRules.Json.Literal

/-!
# Reading JSON text

A text holds one value with blanks around it. Arrays and objects may be nested to a fixed depth.

## Main definitions

* `Json.parse?`: read a text.
-/

namespace SignalRules.Json

/-- The blanks between the parts of a value. -/
def isSpace (c : Char) : Bool := c == ' ' || c == '\n' || c == '\t' || c == '\r'

/-- The text without the blanks before it. -/
def skip (cs : List Char) : List Char := cs.dropWhile isSpace

theorem length_skip_le (cs : List Char) : (skip cs).length ≤ cs.length :=
  (List.dropWhile_suffix isSpace).length_le

/-- Read a given word. -/
def word (w : List Char) (result : Json) (cs : List Char) : Option (Taken Json cs) :=
  if w.isPrefixOf cs then
    let rest := cs.drop w.length
    if h : rest.length < cs.length then some ⟨result, rest, h⟩ else none
  else none

/-- Read a value that is neither an array nor an object. -/
def leaf (cs : List Char) : Option (Taken Json cs) :=
  match cs with
  | [] => none
  | c :: rest =>
    if c == '"' then
      (stringBody rest).map fun content =>
        ⟨string (String.ofList content.result), content.rest, Nat.lt_succ_of_lt content.shorter⟩
    else if c == 'n' then word "null".toList null (c :: rest)
    else if c == 't' then word "true".toList (bool true) (c :: rest)
    else if c == 'f' then word "false".toList (bool false) (c :: rest)
    else number (c :: rest)

/-- Read one given character behind blanks. -/
def mark (c : Char) (cs : List Char) : Option (Taken Unit cs) :=
  match h : skip cs with
  | [] => none
  | first :: rest =>
    if first == c then some ⟨(), rest, by
      have := length_skip_le cs
      rw [h] at this
      exact this⟩
    else none

/-- Read the name of a field and the colon behind it. -/
def fieldName (cs : List Char) : Option (Taken String cs) := do
  let ⟨_, rest₁, h₁⟩ ← mark '"' cs
  let ⟨name, rest₂, h₂⟩ ← stringBody rest₁
  let ⟨_, rest₃, h₃⟩ ← mark ':' rest₂
  some ⟨String.ofList name, rest₃, Nat.lt_trans h₃ (Nat.lt_trans h₂ h₁)⟩

mutual

/-- Read a value in which arrays and objects are nested at most `depth` times. -/
def value (depth : Nat) (cs : List Char) : Option (Taken Json cs) :=
  match mark '[' cs with
  | some ⟨_, rest, h⟩ =>
    match depth with
    | 0 => none
    | depth + 1 =>
      match mark ']' rest with
      | some ⟨_, rest', h'⟩ => some ⟨array [], rest', Nat.lt_trans h' h⟩
      | none => do
        let ⟨items, rest', h'⟩ ← itemsFrom depth rest
        some ⟨array items, rest', Nat.lt_trans h' h⟩
  | none =>
    match mark '\x7b' cs with
    | some ⟨_, rest, h⟩ =>
      match depth with
      | 0 => none
      | depth + 1 =>
        match mark '\x7d' rest with
        | some ⟨_, rest', h'⟩ => some ⟨object [], rest', Nat.lt_trans h' h⟩
        | none => do
          let ⟨fields, rest', h'⟩ ← fieldsFrom depth rest
          some ⟨object fields, rest', Nat.lt_trans h' h⟩
    | none => do
      let ⟨j, rest, h⟩ ← leaf (skip cs)
      some ⟨j, rest, Nat.lt_of_lt_of_le h (length_skip_le cs)⟩
termination_by (cs.length, 0)

/-- Read the items of an array up to its closing bracket. -/
def itemsFrom (depth : Nat) (cs : List Char) : Option (Taken (List Json) cs) := do
  let ⟨j, rest, h⟩ ← value depth cs
  match mark ']' rest with
  | some ⟨_, rest', h'⟩ => some ⟨[j], rest', Nat.lt_trans h' h⟩
  | none => do
    let ⟨_, rest₁, h₁⟩ ← mark ',' rest
    let ⟨items, rest₂, h₂⟩ ← itemsFrom depth rest₁
    some ⟨j :: items, rest₂, Nat.lt_trans h₂ (Nat.lt_trans h₁ h)⟩
termination_by (cs.length, 1)

/-- Read the fields of an object up to its closing brace. -/
def fieldsFrom (depth : Nat) (cs : List Char) : Option (Taken (List (String × Json)) cs) := do
  let ⟨name, rest₀, h₀⟩ ← fieldName cs
  let ⟨j, rest, h⟩ ← value depth rest₀
  match mark '\x7d' rest with
  | some ⟨_, rest', h'⟩ => some ⟨[(name, j)], rest', Nat.lt_trans h' (Nat.lt_trans h h₀)⟩
  | none => do
    let ⟨_, rest₁, h₁⟩ ← mark ',' rest
    let ⟨fields, rest₂, h₂⟩ ← fieldsFrom depth rest₁
    some ⟨(name, j) :: fields, rest₂,
      Nat.lt_trans h₂ (Nat.lt_trans h₁ (Nat.lt_trans h h₀))⟩
termination_by (cs.length, 1)

end

/-- How deep arrays and objects may be nested. -/
def depthLimit : Nat := 127

/-- Read a text as one value. -/
def parse? (text : String) : Option Json := do
  let ⟨j, rest, _⟩ ← value depthLimit text.toList
  if (skip rest).isEmpty then some j else none

end SignalRules.Json
