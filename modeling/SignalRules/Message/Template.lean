/-!
# Message templates

A template is text with numbered slots such as `{0}`. Filling replaces every slot whose number has
an argument by that argument, in one pass: text that comes from an argument is never looked at
again. Everything else, including a slot without an argument, stays as it is.

## Main definitions

* `Template.slotNumber?`: the number between the braces of a slot.
* `Template.fill`: fill the slots of a template.
-/

namespace SignalRules.Template

/-- The value of an unsigned decimal numeral; one plus sign may stand in front. -/
def slotNumber? (cs : List Char) : Option Nat :=
  let digits := match cs with
    | '+' :: rest => rest
    | _ => cs
  if !digits.isEmpty && digits.all fun c => '0' ≤ c && c ≤ '9' then
    some (digits.foldl (fun n c => 10 * n + (c.toNat - 48)) 0)
  else none

/-- Behind an opening brace: the argument that the slot names, and the text after the slot. -/
def slot? (args : List String) (cs : List Char) : Option (String × List Char) :=
  match cs.dropWhile (· != '\x7d') with
  | [] => none
  | _ :: rest => do
    let number ← slotNumber? (cs.takeWhile (· != '\x7d'))
    let arg ← args[number]?
    some (arg, rest)

theorem length_lt_of_slot? {args : List String} {cs rest : List Char} {arg : String}
    (h : slot? args cs = some (arg, rest)) : rest.length < cs.length := by
  have hle := (List.dropWhile_sublist (l := cs) (· != '\x7d')).length_le
  unfold slot? at h
  split at h
  · simp at h
  · next c tail hd =>
    have ht : tail = rest := by
      simp only [Option.bind_eq_bind, Option.bind_eq_some_iff, Option.some.injEq,
        Prod.mk.injEq] at h
      obtain ⟨_, _, _, _, _, ht⟩ := h
      exact ht
    subst ht
    rw [hd, List.length_cons] at hle
    omega

/-- Fill the slots of a template, on characters. -/
def fillChars (args : List String) (cs : List Char) : List Char :=
  match cs with
  | [] => []
  | c :: cs =>
    if c = '\x7b' then
      match _h : slot? args cs with
      | some (arg, rest) => arg.toList ++ fillChars args rest
      | none => c :: fillChars args cs
    else c :: fillChars args cs
termination_by cs.length
decreasing_by
  · have := length_lt_of_slot? _h
    simp only [List.length_cons]
    omega
  · simp
  · simp

/-- Fill the slots of a template with arguments. -/
def fill (template : String) (args : List String) : String :=
  String.ofList (fillChars args template.toList)

/-- The slot for argument number `i`. -/
def slot (i : Nat) : String := "\x7b" ++ toString i ++ "\x7d"

end SignalRules.Template
