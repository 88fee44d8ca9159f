import Mathlib.Data.List.Forall2
import SignalRules.Proofs.Algebraic.Unambiguous
import SignalRules.Proofs.Spelling

/-!
# The written form of phrases

A phrase is written with a blank on either side of a binary operator, a comma and a blank between
arguments, and nothing else. The text is cut into the lexemes of the phrase again, so it spells the
phrase.

## Main definitions

* `Piece.text`: the characters of pieces, one after the other.
* `Phrase.pieces`: the pieces of a phrase.
* `Lexeme.IsWritable`, `Phrase.IsWritable`: the names and numbers of a phrase can be written, given
  which names can.

## Main results

* `Phrase.writes_pieces`: the text of a phrase spells the phrase.
-/

namespace SignalRules

namespace Piece

/-- The characters of pieces, one after the other. -/
def text (ps : List Piece) : List Char := ps.flatMap chars

@[simp] theorem text_nil : text [] = [] := rfl

@[simp] theorem text_cons (p : Piece) (ps : List Piece) : text (p :: ps) = p.chars ++ text ps := by
  simp [text]

@[simp] theorem text_append (ps qs : List Piece) : text (ps ++ qs) = text ps ++ text qs := by
  simp [text]

/-- Lists of pieces with a comma between each two of them. -/
def listed : List (List Piece) → List Piece
  | [] => []
  | [ps] => ps
  | ps :: qs :: rest => ps ++ mark ',' :: blank :: listed (qs :: rest)

theorem listedNames_eq (names : List String) :
    listedNames names = listed (names.map fun name => [word name]) := by
  fun_induction listedNames names with
  | case1 => rfl
  | case2 n => rfl
  | case3 n m rest ih => simpa [listed] using ih

end Piece

/-- A lexeme that can be written if names with the property `P` can: such a name, the decimal text
of a number, or anything else. -/
def Lexeme.IsWritable (P : String → Prop) (x : Lexeme) : Prop :=
  (x.kind = .identifier → P x.text) ∧
    (x.kind = .number → ∃ n : Fixed, x.text = String.ofList n.magnitudeDigits)

variable {P : String → Prop}

/-- Punctuation, reserved words and text literals can always be written. -/
theorem Lexeme.isWritable_of_kind {x : Lexeme} (hname : x.kind ≠ .identifier)
    (hnumber : x.kind ≠ .number) : x.IsWritable P :=
  ⟨fun h => absurd h hname, fun h => absurd h hnumber⟩

namespace Phrase

mutual

/-- The pieces of a phrase. -/
def pieces : Phrase → List Piece
  | number digits => [.word digits]
  | negative digits => [.word ("-" ++ digits)]
  | text content => [.literal content]
  | signal name => [.word name]
  | presence kind names =>
    .word (Operator.presence kind).infixed :: .mark '(' ::
      (Piece.listed (names.map fun name => [.word name]) ++ [.mark ')'])
  | call op args =>
    .word op.infixed :: .mark '(' :: (Piece.listed (piecesAll args) ++ [.mark ')'])
  | invoke name args => .word name :: .mark '(' :: (Piece.listed (piecesAll args) ++ [.mark ')'])
  | group inner => .openGroup :: (pieces inner ++ [.closeGroup])
  | minus operand => .mark '-' :: pieces operand
  | not operand => .word "not" :: .blank :: pieces operand
  | binary op left right =>
    pieces left ++ .blank :: .word op.infixed :: .blank :: pieces right

/-- The pieces of each of several phrases. -/
def piecesAll : List Phrase → List (List Piece)
  | [] => []
  | p :: ps => pieces p :: piecesAll ps

end

theorem piecesAll_eq_map (ps : List Phrase) : piecesAll ps = ps.map pieces := by
  induction ps with
  | nil => rfl
  | cons p ps ih => rw [piecesAll, ih, List.map_cons]

/-- The names and numbers of a phrase can be written. -/
def IsWritable (P : String → Prop) (p : Phrase) : Prop := ∀ x ∈ p.yield, x.IsWritable P

theorem IsWritable.mono {p q : Phrase} (h : p.IsWritable P) (hsub : ∀ x ∈ q.yield, x ∈ p.yield) :
    q.IsWritable P :=
  fun x hx => h x (hsub x hx)

/-! ### What can be written -/

theorem isWritable_lexeme (op : Operator) : op.lexeme.IsWritable P := by
  unfold Operator.lexeme
  split_ifs <;> exact Lexeme.isWritable_of_kind (by simp) (by simp)

theorem isWritable_symbol (c : Char) : (Lexeme.symbol c).IsWritable P :=
  Lexeme.isWritable_of_kind (by simp [Lexeme.symbol]) (by simp [Lexeme.symbol])

theorem IsWritable.group {p : Phrase} (h : p.IsWritable P) : (group p).IsWritable P := by
  intro x hx
  simp only [yield, Lexeme.enclosed, List.mem_cons, List.mem_append, List.not_mem_nil,
    or_false] at hx
  rcases hx with rfl | hx | rfl
  · exact isWritable_symbol _
  · exact h x hx
  · exact isWritable_symbol _

theorem IsWritable.minus {p : Phrase} (h : p.IsWritable P) : (minus p).IsWritable P :=
  List.forall_mem_cons.2 ⟨isWritable_symbol _, h⟩

theorem IsWritable.not {p : Phrase} (h : p.IsWritable P) : (not p).IsWritable P :=
  List.forall_mem_cons.2 ⟨Lexeme.isWritable_of_kind (by simp) (by simp), h⟩

theorem IsWritable.binary {p q : Phrase} (hp : p.IsWritable P) (hq : q.IsWritable P)
    (op : Operator) : (binary op p q).IsWritable P := by
  intro x hx
  rw [yield, List.mem_append, List.mem_cons] at hx
  rcases hx with hx | rfl | hx
  · exact hp x hx
  · exact isWritable_lexeme op
  · exact hq x hx

theorem IsWritable.chain {p : Phrase} (hp : p.IsWritable P) {ss : List (Operator × Phrase)}
    (hss : ∀ s ∈ ss, s.2.IsWritable P) : (chain p ss).IsWritable P := by
  induction ss generalizing p with
  | nil => exact hp
  | cons s ss ih =>
    exact ih (hp.binary (hss s (by simp)) s.1) fun t ht => hss t (List.mem_cons_of_mem _ ht)

/-- A list in parentheses can be written if its items can. -/
theorem isWritable_enclosed {xss : List (List Lexeme)}
    (h : ∀ xs ∈ xss, ∀ x ∈ xs, x.IsWritable P) :
    ∀ x ∈ Lexeme.enclosed (Lexeme.listed xss), x.IsWritable P := by
  have hlisted : ∀ x ∈ Lexeme.listed xss, x.IsWritable P := by
    fun_induction Lexeme.listed xss with
    | case1 => simp
    | case2 xs => exact h xs (by simp)
    | case3 xs ys rest ih =>
      rw [List.forall_mem_cons] at h
      rw [List.forall_mem_append, List.forall_mem_cons]
      exact ⟨h.1, isWritable_symbol _, ih h.2⟩
  intro x hx
  simp only [Lexeme.enclosed, List.mem_cons, List.mem_append, List.not_mem_nil, or_false] at hx
  rcases hx with rfl | hx | rfl
  · exact isWritable_symbol _
  · exact hlisted x hx
  · exact isWritable_symbol _

theorem isWritable_args {ps : List Phrase} (h : ∀ p ∈ ps, p.IsWritable P) :
    ∀ x ∈ Lexeme.enclosed (Lexeme.listed (yieldAll ps)), x.IsWritable P := by
  refine isWritable_enclosed ?_
  rw [yieldAll_eq_map, List.forall_mem_map]
  exact h

theorem infixed_mem_keywords : ∀ op : Operator, op.isCall →
    op.infixed ∈ Grammar.algebraic.keywords :=
  Operator.forall_of_all (by decide)

open Lexicon (Writes Closes ofGrammar)

/-- What is written in parentheses spells its lexemes in parentheses. -/
theorem closes_enclosed {cs : List Char} {xs : List Lexeme}
    (h : Writes (ofGrammar .algebraic) cs xs) :
    Closes (ofGrammar .algebraic) ('(' :: (cs ++ [')'])) (Lexeme.enclosed xs) :=
  (Lexicon.closes_mark (by decide) (by decide)).append
    (h.append_closes (Lexicon.isStop_of_mem (by decide))
      (Lexicon.closes_mark (by decide) (by decide)))

theorem writes_comma {ps qs : List Piece} {xs ys : List Lexeme}
    (hl : Writes (ofGrammar .algebraic) (Piece.text ps) xs)
    (hr : Writes (ofGrammar .algebraic) (Piece.text qs) ys) :
    Writes (ofGrammar .algebraic) (Piece.text (ps ++ .mark ',' :: .blank :: qs))
      (xs ++ .symbol ',' :: ys) := by
  have hcomma : Closes (ofGrammar .algebraic) [',', ' '] [.symbol ','] :=
    (Lexicon.closes_mark (by decide) (by decide)).append Lexicon.closes_blank
  rw [Piece.text_append, Piece.text_cons, Piece.text_cons]
  exact hl.append (Lexicon.isStop_of_mem (by decide)) (hcomma.append_writes hr)

/-- What is written with commas spells its lexemes with commas. -/
theorem writes_listed {pss : List (List Piece)} {xss : List (List Lexeme)}
    (h : List.Forall₂ (fun ps xs => Writes (ofGrammar .algebraic) (Piece.text ps) xs) pss xss) :
    Writes (ofGrammar .algebraic) (Piece.text (Piece.listed pss)) (Lexeme.listed xss) := by
  induction h with
  | nil => exact Lexicon.closes_nil.writes
  | cons hfirst hrest ih =>
    cases hrest with
    | nil => exact hfirst
    | cons _ _ => exact writes_comma hfirst ih

theorem writes_group {ps : List Piece} {xs : List Lexeme}
    (h : Writes (ofGrammar .algebraic) (Piece.text ps) xs) :
    Writes (ofGrammar .algebraic) (Piece.text (.openGroup :: (ps ++ [.closeGroup])))
      (Lexeme.enclosed xs) := by
  simpa [Piece.chars] using (closes_enclosed h).writes

theorem writes_minus {ps : List Piece} {xs : List Lexeme}
    (h : Writes (ofGrammar .algebraic) (Piece.text ps) xs) :
    Writes (ofGrammar .algebraic) (Piece.text (.mark '-' :: ps)) (.symbol '-' :: xs) := by
  have hminus : Closes (ofGrammar .algebraic) ['-'] [.symbol '-'] :=
    Lexicon.closes_mark (by decide) (by decide)
  simpa [Piece.chars] using hminus.append_writes h

theorem writes_not {ps : List Piece} {xs : List Lexeme}
    (h : Writes (ofGrammar .algebraic) (Piece.text ps) xs) :
    Writes (ofGrammar .algebraic) (Piece.text (.word "not" :: .blank :: ps))
      (⟨.keyword, "not"⟩ :: xs) := by
  have hword : Writes (ofGrammar .algebraic) "not".toList [⟨.keyword, "not"⟩] :=
    Lexicon.writes_keyword (by decide)
  have hnot := hword.append_closes (Lexicon.isStop_of_mem (by decide)) Lexicon.closes_blank
  simpa [Piece.chars] using hnot.append_writes h

/-- An operator with blanks around it stands between what is written on either side. -/
theorem writes_binary {op : Operator} (hop : op.isBinary) {ps qs : List Piece}
    {xs ys : List Lexeme} (hl : Writes (ofGrammar .algebraic) (Piece.text ps) xs)
    (hr : Writes (ofGrammar .algebraic) (Piece.text qs) ys) :
    Writes (ofGrammar .algebraic)
      (Piece.text (ps ++ .blank :: .word op.infixed :: .blank :: qs)) (xs ++ op.lexeme :: ys) := by
  have hoperator := (Lexicon.closes_operator hop).append_writes hr
  have hblank := Lexicon.closes_blank.append_writes hoperator
  simpa [Piece.chars] using hl.append (Lexicon.isStop_of_mem (by decide)) hblank

/-- A call spells its name and its arguments. -/
theorem writes_call {word : String} {x : Lexeme}
    (hword : Writes (ofGrammar .algebraic) word.toList [x]) {ps : List Piece} {xs : List Lexeme}
    (h : Writes (ofGrammar .algebraic) (Piece.text ps) xs) :
    Writes (ofGrammar .algebraic)
      (Piece.text (.word word :: .mark '(' :: (ps ++ [.mark ')']))) (x :: Lexeme.enclosed xs) := by
  have hclose := hword.append_closes (Lexicon.isStop_of_mem (by decide)) (closes_enclosed h)
  simpa [Piece.chars] using hclose.writes

/-- Arguments that spell their phrases one by one do so together. -/
theorem forall₂_writes {args : List Phrase}
    (h : ∀ p ∈ args, Writes (ofGrammar .algebraic) (Piece.text p.pieces) p.yield) :
    List.Forall₂ (fun ps xs => Writes (ofGrammar .algebraic) (Piece.text ps) xs)
      (piecesAll args) (yieldAll args) := by
  rw [piecesAll_eq_map, yieldAll_eq_map, List.forall₂_map_left_iff, List.forall₂_map_right_iff,
    List.forall₂_same]
  exact h

namespace IsWritable

variable {p q : Phrase} {args : List Phrase}

theorem of_group (h : (Phrase.group p).IsWritable P) : p.IsWritable P :=
  h.mono fun x hx => by simp [yield, Lexeme.enclosed, hx]

theorem of_minus (h : (Phrase.minus p).IsWritable P) : p.IsWritable P :=
  h.mono fun x hx => by simp [yield, hx]

theorem of_not (h : (Phrase.not p).IsWritable P) : p.IsWritable P :=
  h.mono fun x hx => by simp [yield, hx]

theorem of_binary {op : Operator} (h : (Phrase.binary op p q).IsWritable P) :
    p.IsWritable P ∧ q.IsWritable P :=
  ⟨h.mono fun x hx => by simp [yield, hx], h.mono fun x hx => by simp [yield, hx]⟩

theorem of_call {op : Operator} (h : (Phrase.call op args).IsWritable P) :
    ∀ q ∈ args, q.IsWritable P :=
  fun _ hq => h.mono fun _ hx => List.mem_cons_of_mem _ (mem_enclosed_yieldAll hq hx)

theorem of_invoke {name : String} (h : (Phrase.invoke name args).IsWritable P) :
    ∀ q ∈ args, q.IsWritable P :=
  fun _ hq => h.mono fun _ hx => List.mem_cons_of_mem _ (mem_enclosed_yieldAll hq hx)

end IsWritable

/-- The text of a phrase that respects precedence spells the phrase. -/
theorem writes_pieces {p : Phrase} (hp : p.RespectsPrecedence)
    (hw : p.IsWritable Grammar.algebraic.IsName) :
    Writes (ofGrammar .algebraic) (Piece.text p.pieces) p.yield := by
  induction p with
  | number digits =>
    obtain ⟨n, rfl⟩ := (hw ⟨.number, digits⟩ (by simp [yield])).2 rfl
    simpa [pieces, Piece.chars, yield] using Lexicon.writes_magnitudeDigits n
  | negative digits =>
    obtain ⟨n, rfl⟩ := (hw ⟨.number, digits⟩ (by simp [yield])).2 rfl
    have hdigits : Writes (ofGrammar .algebraic)
        (Piece.text [.word (String.ofList n.magnitudeDigits)])
        [⟨.number, String.ofList n.magnitudeDigits⟩] := by
      simpa [Piece.chars] using Lexicon.writes_magnitudeDigits n
    simpa [pieces, Piece.chars, yield] using writes_minus hdigits
  | text content => simpa [pieces, Piece.chars, yield] using Lexicon.writes_literal content
  | signal name =>
    have hname := (hw ⟨.identifier, name⟩ (by simp [yield])).1 rfl
    simpa [pieces, Piece.chars, yield] using Lexicon.writes_name hname
  | presence kind names =>
    have hword : (Operator.presence kind).infixed ∈ Grammar.algebraic.keywords := by
      cases kind <;> decide
    have hnames : List.Forall₂ (fun ps xs => Writes (ofGrammar .algebraic) (Piece.text ps) xs)
        (names.map fun name => [.word name]) (names.map fun name => [⟨.identifier, name⟩]) := by
      rw [List.forall₂_map_left_iff, List.forall₂_map_right_iff, List.forall₂_same]
      intro name hname
      have hlexeme := hw _ (List.mem_cons_of_mem _ (mem_enclosed_names hname))
      simpa [Piece.chars] using Lexicon.writes_name (hlexeme.1 rfl)
    exact writes_call (Lexicon.writes_keyword hword) (writes_listed hnames)
  | call op args ih =>
    cases hp with
    | call hop hargs =>
      have hword := infixed_mem_keywords op hop
      have h := forall₂_writes fun q hq => ih q hq (hargs q hq)
        (hw.of_call q hq)
      exact writes_call (Lexicon.writes_keyword hword) (writes_listed h)
  | invoke name args ih =>
    cases hp with
    | invoke _ hargs =>
      have hname := (hw ⟨.identifier, name⟩ (by simp [yield])).1 rfl
      have h := forall₂_writes fun q hq => ih q hq (hargs q hq)
        (hw.of_invoke q hq)
      exact writes_call (Lexicon.writes_name hname) (writes_listed h)
  | group inner ih =>
    cases hp with
    | group hinner => exact writes_group (ih hinner hw.of_group)
  | minus operand ih =>
    cases hp with
    | minus hoperand => exact writes_minus (ih hoperand hw.of_minus)
  | not operand ih =>
    cases hp with
    | not hoperand => exact writes_not (ih hoperand hw.of_not)
  | binary op left right ihl ihr =>
    cases hp with
    | binary hop hleft hright =>
      exact writes_binary hop (ihl hleft hw.of_binary.1) (ihr hright hw.of_binary.2)

end Phrase

end SignalRules
