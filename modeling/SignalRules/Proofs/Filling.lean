import SignalRules.Message.Template
import SignalRules.Proofs.Numerals

/-!
# Filling a template

A template that is put together from literal text and numbered slots is filled part by part. A slot
whose number has an argument becomes that argument, and everything else stays as it is. Nothing that
comes from an argument is looked at again, and no part runs into the next: the brace that closes a
slot is the first one behind its digits, whatever closing braces stand elsewhere.

## Main definitions

* `Template.Part`: literal text or a slot, with `Part.written` and `Part.filled`.

## Main results

* `Template.fillChars_written`: filling takes one part off the front of a template.
* `Template.fill_join`: a template is filled part by part.
-/

namespace SignalRules.Template

/-- A part of a template. -/
inductive Part where
  /-- Literal text, which may hold closing braces but no opening ones. -/
  | literal (text : String) (plain : '\x7b' ∉ text.toList)
  /-- A slot with a number of any length. -/
  | slot (numeral : String) (digits : IsDigits numeral.toList)

namespace Part

/-- The part as it stands in the template. -/
def written : Part → String
  | literal text _ => text
  | slot numeral _ => "\x7b" ++ numeral ++ "\x7d"

/-- What the part becomes: a slot becomes the argument with its number, if there is one. -/
def filled (args : List String) : Part → String
  | literal text _ => text
  | slot numeral digits =>
    args.getD (Nat.ofDigitChars 10 numeral.toList 0) (slot numeral digits).written

end Part

variable {cs : List Char}

/-! ### Slots -/

/-- Digits have the number that they denote. -/
theorem slotNumber?_of_isDigits (h : IsDigits cs) :
    slotNumber? cs = some (Nat.ofDigitChars 10 cs 0) := by
  obtain ⟨hne, hdigits⟩ := h
  have hsign : ∀ tail, cs ≠ '+' :: tail := by
    rintro tail rfl
    exact absurd (hdigits '+' (by simp)) (by decide)
  have hall : (cs.all fun c => '0' ≤ c && c ≤ '9') = true := List.all_eq_true.2 hdigits
  have hdecide : (!cs.isEmpty && cs.all fun c => '0' ≤ c && c ≤ '9') = true := by
    rw [hall, Bool.and_true, Bool.not_eq_true', List.isEmpty_eq_false_iff]
    exact hne
  unfold slotNumber?
  split
  · exact absurd rfl (hsign _)
  · rw [if_pos hdecide]
    rfl

/-- A digit is no closing brace. -/
theorem bne_brace_of_isDigit {c : Char} (h : c.isDigit) : (c != '\x7d') = true := by
  rw [bne_iff_ne]
  rintro rfl
  exact absurd h (by decide)

/-- A slot ends at the first closing brace, which stands right behind its digits. -/
theorem slot?_of_isDigits (args : List String) (h : IsDigits cs) (rest : List Char) :
    slot? args (cs ++ '\x7d' :: rest) =
      args[Nat.ofDigitChars 10 cs 0]?.map fun arg => (arg, rest) := by
  have hbefore : ∀ c ∈ cs, (c != '\x7d') = true := fun c hc => bne_brace_of_isDigit (h.2 c hc)
  have hdrop : (cs ++ '\x7d' :: rest).dropWhile (· != '\x7d') = '\x7d' :: rest := by
    rw [List.dropWhile_append_of_pos hbefore]
    rfl
  have htake : (cs ++ '\x7d' :: rest).takeWhile (· != '\x7d') = cs := by
    rw [List.takeWhile_append_of_pos hbefore, List.takeWhile_cons_of_neg (by simp),
      List.append_nil]
  rw [slot?, hdrop, htake, slotNumber?_of_isDigits h, Option.map_eq_bind]
  rfl

/-! ### One part after the other -/

section Parts

variable (args : List String)

theorem fillChars_cons_of_ne {c : Char} (hc : c ≠ '\x7b') (rest : List Char) :
    fillChars args (c :: rest) = c :: fillChars args rest := by
  rw [fillChars, if_neg hc]

/-- Text without opening braces is kept. -/
theorem fillChars_append (h : '\x7b' ∉ cs) (rest : List Char) :
    fillChars args (cs ++ rest) = cs ++ fillChars args rest := by
  induction cs with
  | nil => rfl
  | cons c cs ih =>
    rw [List.mem_cons, not_or] at h
    rw [List.cons_append, fillChars_cons_of_ne args (Ne.symm h.1), ih h.2, List.cons_append]

/-- Behind an opening brace, a slot with an argument is replaced; otherwise the brace is kept. -/
theorem fillChars_brace (rest : List Char) :
    fillChars args ('\x7b' :: rest) = (slot? args rest).elim ('\x7b' :: fillChars args rest)
      fun found => found.1.toList ++ fillChars args found.2 := by
  rw [fillChars, if_pos rfl]
  split <;> rename_i h <;> rw [h] <;> rfl

/-- Digits and the brace behind them hold no opening brace. -/
theorem not_mem_of_isDigits (h : IsDigits cs) : '\x7b' ∉ cs ++ ['\x7d'] := by
  rw [List.mem_append, List.mem_singleton, not_or]
  exact ⟨fun hmem => absurd (h.2 _ hmem) (by decide), by decide⟩

theorem Part.toList_written_slot (numeral : String) (digits : IsDigits numeral.toList) :
    (slot numeral digits).written.toList = '\x7b' :: (numeral.toList ++ ['\x7d']) := by
  simp [written]

/-- Filling takes one part off the front of a template and goes on behind it. -/
theorem fillChars_written (part : Part) (rest : List Char) :
    fillChars args (part.written.toList ++ rest) =
      (part.filled args).toList ++ fillChars args rest := by
  cases part with
  | literal text plain => exact fillChars_append args plain rest
  | slot numeral digits =>
    have hwritten := Part.toList_written_slot numeral digits
    have hslot := slot?_of_isDigits args digits rest
    rw [Part.filled, List.getD_eq_getElem?_getD, hwritten, List.cons_append, List.append_assoc,
      List.singleton_append, fillChars_brace, hslot]
    cases args[Nat.ofDigitChars 10 numeral.toList 0]? with
    | some arg => rfl
    | none =>
      -- The braces of a slot without an argument are kept, and nothing else in it is a brace.
      have hkept := fillChars_append args (not_mem_of_isDigits digits) rest
      rw [List.append_assoc, List.singleton_append] at hkept
      simp only [Option.map_none, Option.elim_none, hkept, Option.getD_none, hwritten,
        List.cons_append]

end Parts

/-- A template is filled part by part, all parts at once: every slot that has an argument becomes
that argument as it is, and every other part stays as it is. -/
theorem fill_join (parts : List Part) (args : List String) :
    fill (String.join (parts.map Part.written)) args =
      String.join (parts.map (Part.filled args)) := by
  have hchars : fillChars args (String.join (parts.map Part.written)).toList =
      (String.join (parts.map (Part.filled args))).toList := by
    induction parts with
    | nil => simp [fillChars]
    | cons part parts ih =>
      rw [List.map_cons, List.map_cons, String.join_cons, String.join_cons, String.toList_append,
        fillChars_written, ih, String.toList_append]
  rw [fill, hchars, String.ofList_toList]

-- A stray closing brace, an argument that looks like a slot, and a number with zeros in front.
example : fill "\x7d\x7b1\x7d\x7b00\x7d\x7b2\x7d" ["\x7b1\x7d", "a\x7b0\x7d"] =
    "\x7da\x7b0\x7d\x7b1\x7d\x7b2\x7d" := by
  cbv

end SignalRules.Template
