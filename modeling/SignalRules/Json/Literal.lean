import SignalRules.Json
import SignalRules.Taken

/-!
# JSON literals

Reading the characters of a string and the parts of a number. A string holds no control
characters, and its escapes spell whole characters: two escapes that form a surrogate pair are one
character, and half a pair is refused. A number has no superfluous leading zero, and it must not
be too large for a double.

## Main definitions

* `Json.stringBody`: the content of a string and its closing quote.
* `Json.number`: a number.
-/

namespace SignalRules.Json

/-! ### Strings -/

/-- The value of a hexadecimal digit. -/
def hexValue? (c : Char) : Option Nat :=
  if '0' ≤ c && c ≤ '9' then some (c.toNat - 48)
  else if 'a' ≤ c && c ≤ 'f' then some (c.toNat - 87)
  else if 'A' ≤ c && c ≤ 'F' then some (c.toNat - 55)
  else none

/-- Read an escape that gives a code unit by four hexadecimal digits. -/
def codeUnit (cs : List Char) : Option (Taken Nat cs) :=
  match cs with
  | '\\' :: 'u' :: a :: b :: c :: d :: rest => do
    let a ← hexValue? a
    let b ← hexValue? b
    let c ← hexValue? c
    let d ← hexValue? d
    some ⟨((a * 16 + b) * 16 + c) * 16 + d, rest, by simp only [List.length_cons]; omega⟩
  | _ => none

/-- Whether a code unit is the first half of a surrogate pair. -/
def isLeading (unit : Nat) : Bool := 0xD800 ≤ unit && unit < 0xDC00

/-- Whether a code unit is the second half of a surrogate pair. -/
def isTrailing (unit : Nat) : Bool := 0xDC00 ≤ unit && unit < 0xE000

/-- The character of a surrogate pair. -/
def paired (leading trailing : Nat) : Char :=
  Char.ofNat (0x10000 + (leading - 0xD800) * 0x400 + (trailing - 0xDC00))

/-- The character that one letter behind a backslash stands for. -/
def escaped? (c : Char) : Option Char :=
  match c with
  | '"' => some '"'
  | '\\' => some '\\'
  | '/' => some '/'
  | 'b' => some '\x08'
  | 'f' => some '\x0c'
  | 'n' => some '\n'
  | 'r' => some '\r'
  | 't' => some '\t'
  | _ => none

/-- Read one character of a string, perhaps escaped. -/
def character (cs : List Char) : Option (Taken Char cs) :=
  match codeUnit cs with
  | some ⟨unit, rest, h⟩ =>
    if isLeading unit then do
      let ⟨trailing, rest', h'⟩ ← codeUnit rest
      if isTrailing trailing then some ⟨paired unit trailing, rest', Nat.lt_trans h' h⟩ else none
    else if isTrailing unit then none
    else some ⟨Char.ofNat unit, rest, h⟩
  | none =>
    match cs with
    | '\\' :: c :: rest => do
      let plain ← escaped? c
      some ⟨plain, rest, by simp only [List.length_cons]; omega⟩
    | c :: rest => if c < ' ' || c == '\\' then none else some (.first c c rest)
    | [] => none

/-- Read the content of a string behind its opening quote, and its closing quote. -/
def stringBody (cs : List Char) : Option (Taken (List Char) cs) :=
  match cs with
  | [] => none
  | first :: rest =>
    if first == '"' then some (.first [] first rest)
    else do
      let ⟨c, rest₁, h₁⟩ ← character (first :: rest)
      let ⟨content, rest₂, h₂⟩ ← stringBody rest₁
      some ⟨c :: content, rest₂, Nat.lt_trans h₂ h₁⟩
termination_by cs.length
decreasing_by exact h₁

/-! ### Numbers -/

/-- The decimal digits. -/
def isDigit (c : Char) : Bool := '0' ≤ c && c ≤ '9'

/-- The number that decimal digits spell. -/
def digitsValue (cs : List Char) : Nat := cs.foldl (fun total c => total * 10 + (c.toNat - 48)) 0

/-- Read at least one digit. -/
def digits (cs : List Char) : Option (Taken (List Char) cs) :=
  match cs with
  | [] => none
  | c :: rest =>
    if isDigit c then
      some ⟨c :: rest.takeWhile isDigit, rest.dropWhile isDigit,
        Nat.lt_succ_of_le (List.dropWhile_suffix isDigit).length_le⟩
    else none

/-- Read the digits before the point: a lone zero, or digits that do not start with one. -/
def wholeDigits (cs : List Char) : Option (Taken (List Char) cs) := do
  let taken ← digits cs
  match taken.result with
  | '0' :: _ :: _ => none
  | _ => some taken

/-- Read a point with digits, if there is a point. -/
def fraction (cs : List Char) : Option (Kept (Option (List Char)) cs) :=
  match cs with
  | '.' :: rest => do
    let ⟨ds, rest', h⟩ ← digits rest
    some ⟨some ds, rest', Nat.le_of_lt (Nat.lt_succ_of_lt h)⟩
  | cs => some ⟨none, cs, Nat.le_refl _⟩

/-- Read the sign of an exponent, if there is one, and tell whether it is a minus. -/
def exponentSign (cs : List Char) : Kept Bool cs :=
  match cs with
  | '-' :: rest => ⟨true, rest, Nat.le_succ _⟩
  | '+' :: rest => ⟨false, rest, Nat.le_succ _⟩
  | cs => ⟨false, cs, Nat.le_refl _⟩

/-- Read an exponent, if there is one. -/
def exponent (cs : List Char) : Option (Kept (Option Int) cs) :=
  match cs with
  | [] => some ⟨none, [], Nat.le_refl _⟩
  | c :: rest =>
    if c == 'e' || c == 'E' then do
      let sign := exponentSign rest
      let ⟨ds, rest', h⟩ ← digits sign.rest
      let size : Int := digitsValue ds
      have hs := sign.notLonger
      some ⟨some (if sign.result then -size else size), rest', by
        simp only [List.length_cons]; omega⟩
    else some ⟨none, c :: rest, Nat.le_refl _⟩

/-- The number of a literal from its parts. A literal with a point or an exponent is a double. -/
def ofParts (negative : Bool) (whole : List Char) (fraction : Option (List Char))
    (exponent : Option Int) : Option Json :=
  let result :=
    match fraction, exponent with
    | none, none => ofInteger negative (digitsValue whole)
    | _, _ =>
      let behind := fraction.getD []
      let shift := exponent.getD 0 - (behind.length : Int)
      real (Binary64.ofDecimal negative (digitsValue (whole ++ behind)) shift)
  match result with
  | real (.infinite _) => none
  | _ => some result

/-- Read the magnitude of a number behind its sign. -/
def unsigned (negative : Bool) (cs : List Char) : Option (Taken Json cs) := do
  let ⟨whole, rest₁, h₁⟩ ← wholeDigits cs
  let ⟨behind, rest₂, h₂⟩ ← fraction rest₁
  let ⟨power, rest₃, h₃⟩ ← exponent rest₂
  let n ← ofParts negative whole behind power
  some ⟨n, rest₃, Nat.lt_of_le_of_lt (Nat.le_trans h₃ h₂) h₁⟩

/-- Read a number. -/
def number (cs : List Char) : Option (Taken Json cs) :=
  match cs with
  | '-' :: rest => do
    let ⟨n, rest', h⟩ ← unsigned true rest
    some ⟨n, rest', Nat.lt_succ_of_lt h⟩
  | cs => unsigned false cs

end SignalRules.Json
