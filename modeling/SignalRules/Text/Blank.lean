/-!
# White space and byte lengths

Two notions of white space are used. A *blank* separates tokens: a space, a tab or a line break.
*White space* in the wide sense is the Unicode property `White_Space`; it ends a grammar marker
and is dropped at both ends of a text that is read as a number or quoted in a notice.

Source positions are byte offsets of the UTF-8 form, so the length of a piece of text is the sum
of the sizes of its characters.

## Main definitions

* `Text.isBlank`, `Text.isWhite`: the two character classes.
* `Text.trim`: a text without white space at its ends.
* `Text.byteLength`: the number of bytes of a text.
-/

namespace SignalRules.Text

/-- The characters that separate tokens. -/
def isBlank (c : Char) : Bool :=
  c == ' ' || c == '\t' || c == '\n' || c == '\r'

/-- The ranges of code points with the Unicode property `White_Space`, both ends included. -/
def whiteRanges : List (Nat × Nat) :=
  [(0x09, 0x0d), (0x20, 0x20), (0x85, 0x85), (0xa0, 0xa0), (0x1680, 0x1680), (0x2000, 0x200a),
    (0x2028, 0x2029), (0x202f, 0x202f), (0x205f, 0x205f), (0x3000, 0x3000)]

/-- White space in the wide sense. -/
def isWhite (c : Char) : Bool :=
  whiteRanges.any fun r => r.1 ≤ c.toNat && c.toNat ≤ r.2

/-- Drop white space at the end of a text. -/
def trimEnd (cs : List Char) : List Char :=
  (cs.reverse.dropWhile isWhite).reverse

/-- Drop white space at both ends of a text. -/
def trim (cs : List Char) : List Char :=
  trimEnd (cs.dropWhile isWhite)

/-- The number of bytes that a text takes in UTF-8. -/
def byteLength (cs : List Char) : Nat :=
  cs.foldr (fun c n => c.utf8Size + n) 0

@[simp] theorem byteLength_nil : byteLength [] = 0 := rfl

@[simp] theorem byteLength_cons (c : Char) (cs : List Char) :
    byteLength (c :: cs) = c.utf8Size + byteLength cs := rfl

@[simp] theorem byteLength_append (as bs : List Char) :
    byteLength (as ++ bs) = byteLength as + byteLength bs := by
  induction as with
  | nil => simp
  | cons a as ih => simp [ih, Nat.add_assoc]

/-- Put `separator` between the given texts. -/
def join (separator : String) : List String → String
  | [] => ""
  | [s] => s
  | s :: t :: rest => s ++ separator ++ join separator (t :: rest)

/-- Remove `opening` from the front of a text, if it stands there. -/
def stripStart? : (opening cs : List Char) → Option (List Char)
  | [], cs => some cs
  | _ :: _, [] => none
  | o :: opening, c :: cs => if o = c then stripStart? opening cs else none

/-- Cut a text at the first place where `mark` stands: the part before it and the part after. -/
def cutAt? (mark : List Char) : List Char → Option (List Char × List Char)
  | [] => (stripStart? mark []).map fun rest => ([], rest)
  | c :: cs =>
    match stripStart? mark (c :: cs) with
    | some rest => some ([], rest)
    | none => (cutAt? mark cs).map fun parts => (c :: parts.1, parts.2)

theorem eq_append_of_stripStart? {opening cs rest : List Char}
    (h : stripStart? opening cs = some rest) : cs = opening ++ rest := by
  induction opening generalizing cs with
  | nil => simpa [stripStart?] using h
  | cons o opening ih =>
    cases cs with
    | nil => simp [stripStart?] at h
    | cons c cs =>
      by_cases hc : o = c
      · simp only [stripStart?, hc, if_true] at h
        simp [hc, ih h]
      · simp [stripStart?, hc] at h

theorem eq_append_of_cutAt? {mark cs before after : List Char}
    (h : cutAt? mark cs = some (before, after)) : cs = before ++ mark ++ after := by
  induction cs generalizing before after with
  | nil =>
    simp only [cutAt?, Option.map_eq_some_iff] at h
    obtain ⟨rest, hr, heq⟩ := h
    obtain ⟨rfl, rfl⟩ := Prod.mk.inj heq
    simpa using eq_append_of_stripStart? hr
  | cons c cs ih =>
    simp only [cutAt?] at h
    split at h
    · next rest hr =>
      obtain ⟨rfl, rfl⟩ := Prod.mk.inj (Option.some.inj h)
      simpa using eq_append_of_stripStart? hr
    · next =>
      simp only [Option.map_eq_some_iff] at h
      obtain ⟨⟨b, a⟩, hba, heq⟩ := h
      obtain ⟨rfl, rfl⟩ := Prod.mk.inj heq
      simp [ih hba]

end SignalRules.Text
