import SignalRules.Proofs.Algebraic.Canonical
import SignalRules.Proofs.Polish.Canonical

/-!
# Balanced pieces

Canonical text is balanced: outside text literals, parentheses come in pairs, and there are no
braces, quotes or number signs.

## Main definitions

* `Piece.IsPlain`: a text literal, or a piece without any of those characters.
* `Piece.Balanced`: plain pieces, with some of them in parentheses.

## Main results

* `Phrase.balanced_pieces`, `Term.balanced_pieces`: the pieces of syntax trees are balanced.
* `Expr.balanced_pieces`: canonical text is balanced.
-/

namespace SignalRules

namespace Piece

/-- The characters that no name, number or operator has. -/
def special : List Char := ['(', ')', '\x7b', '\'', '#']

/-- A piece that encloses nothing, opens no macro and starts no marker. -/
def IsPlain : Piece → Prop
  | mark c => c ∉ special
  | word s => ∀ c ∈ s.toList, c ∉ special
  | openGroup | closeGroup => False
  | blank | literal _ => True

instance : DecidablePred IsPlain
  | mark c => inferInstanceAs (Decidable (c ∉ special))
  | word s => inferInstanceAs (Decidable (∀ c ∈ s.toList, c ∉ special))
  | openGroup | closeGroup => inferInstanceAs (Decidable False)
  | blank | literal _ => inferInstanceAs (Decidable True)

/-- Plain pieces, with some of them in parentheses. -/
inductive Balanced : List Piece → Prop
  | nil : Balanced []
  | cons {p : Piece} {ps : List Piece} (hp : p.IsPlain) (hps : Balanced ps) : Balanced (p :: ps)
  | enclosed {opening closing : Piece} {ps qs : List Piece} (hopening : opening.chars = ['('])
      (hclosing : closing.chars = [')']) (hps : Balanced ps) (hqs : Balanced qs) :
      Balanced (opening :: (ps ++ closing :: qs))

theorem Balanced.append {ps qs : List Piece} (hps : Balanced ps) (hqs : Balanced qs) :
    Balanced (ps ++ qs) := by
  induction hps with
  | nil => exact hqs
  | cons hp _ ih => exact .cons hp ih
  | @enclosed _ _ ps _ hopening hclosing hps _ _ ih =>
    rw [List.cons_append, List.append_assoc]
    exact .enclosed hopening hclosing hps ih

theorem Balanced.listed {pss : List (List Piece)} (h : ∀ ps ∈ pss, Balanced ps) :
    Balanced (listed pss) := by
  fun_induction Piece.listed pss with
  | case1 => exact .nil
  | case2 ps => exact h ps (by simp)
  | case3 ps qs rest ih =>
    rw [List.forall_mem_cons] at h
    exact h.1.append (.cons (by decide) (.cons trivial (ih h.2)))

/-- Names are plain. -/
theorem isPlain_name {name : String} (h : isIdentifier name.toList) : (word name).IsPlain := by
  have hspecial : ∀ c ∈ special, isAlphanumeric c = false ∧ c ≠ '.' := by decide
  intro c hc hmem
  rcases Lexicon.forall_of_isIdentifier h c hc with hname | hdot
  · simp [hspecial c hmem] at hname
  · exact (hspecial c hmem).2 hdot

/-- Numbers are plain. -/
theorem isPlain_digits (n : Fixed) : ∀ c ∈ n.magnitudeDigits, c ∉ special := by
  have hspecial : ∀ c ∈ special, Fixed.isDigit c = false ∧ c ≠ '.' := by decide
  intro c hc hmem
  rcases n.forall_magnitudeDigits c hc with hdigit | hdot
  · simp [hspecial c hmem] at hdigit
  · exact (hspecial c hmem).2 hdot

theorem isPlain_number (n : Fixed) : (word n.text).IsPlain := by
  have hdigits := isPlain_digits n
  rw [IsPlain, Fixed.text, String.toList_ofList, Fixed.digits_eq]
  split_ifs
  · exact List.forall_mem_cons.2 ⟨by decide, hdigits⟩
  · exact hdigits

theorem isPlain_operator : ∀ op : Operator,
    (∀ c ∈ op.infixed.toList, c ∉ special) ∧ ∀ c ∈ op.keyword.toList, c ∉ special :=
  Operator.forall_of_all (by decide)

end Piece

open Piece (Balanced)

/-- The pieces of a phrase are balanced. -/
theorem Phrase.balanced_pieces {p : Phrase}
    (hw : p.IsWritable fun name => isIdentifier name.toList) : Balanced p.pieces := by
  have hcall {x : Piece} {pss : List (List Piece)} (hx : x.IsPlain) (h : ∀ ps ∈ pss, Balanced ps) :
      Balanced (x :: .mark '(' :: (Piece.listed pss ++ [.mark ')'])) :=
    .cons hx (.enclosed rfl rfl (.listed h) .nil)
  induction p with
  | number digits =>
    obtain ⟨n, rfl⟩ := (hw ⟨.number, digits⟩ (by simp [yield])).2 rfl
    exact .cons (by simpa [Piece.IsPlain] using Piece.isPlain_digits n) .nil
  | negative digits =>
    obtain ⟨n, rfl⟩ := (hw ⟨.number, digits⟩ (by simp [yield])).2 rfl
    refine .cons ?_ .nil
    simpa [Piece.IsPlain, Piece.special] using Piece.isPlain_digits n
  | text content => exact .cons trivial .nil
  | signal name =>
    have hname := (hw ⟨.identifier, name⟩ (by simp [yield])).1 rfl
    exact .cons (Piece.isPlain_name hname) .nil
  | presence kind names =>
    refine hcall (Piece.isPlain_operator _).1 (List.forall_mem_map.2 fun name hname => ?_)
    have hlexeme := hw _ (List.mem_cons_of_mem _ (mem_enclosed_names hname))
    exact .cons (Piece.isPlain_name (hlexeme.1 rfl)) .nil
  | call op args ih =>
    refine hcall (Piece.isPlain_operator _).1 ?_
    rw [piecesAll_eq_map, List.forall_mem_map]
    exact fun q hq => ih q hq
      (hw.mono fun x hx => List.mem_cons_of_mem _ (mem_enclosed_yieldAll hq hx))
  | invoke name args ih =>
    have hname := (hw ⟨.identifier, name⟩ (by simp [yield])).1 rfl
    refine hcall (Piece.isPlain_name hname) ?_
    rw [piecesAll_eq_map, List.forall_mem_map]
    exact fun q hq => ih q hq
      (hw.mono fun x hx => List.mem_cons_of_mem _ (mem_enclosed_yieldAll hq hx))
  | group inner ih =>
    exact .enclosed rfl rfl (ih (hw.mono fun x hx => by simp [yield, Lexeme.enclosed, hx])) .nil
  | minus operand ih =>
    exact .cons (by decide) (ih (hw.mono fun x hx => by simp [yield, hx]))
  | not operand ih =>
    exact .cons (by decide) (.cons trivial (ih (hw.mono fun x hx => by simp [yield, hx])))
  | binary op left right ihl ihr =>
    refine (ihl (hw.mono fun x hx => by simp [yield, hx])).append ?_
    refine .cons trivial (.cons (Piece.isPlain_operator op).1 (.cons trivial ?_))
    exact ihr (hw.mono fun x hx => by simp [yield, hx])

theorem Term.balanced_piecesAll {ts : List Term} (h : ∀ t ∈ ts, Balanced t.pieces) :
    Balanced (piecesAll ts) := by
  induction ts with
  | nil => exact .nil
  | cons t ts ih =>
    rw [List.forall_mem_cons] at h
    exact .cons trivial (h.1.append (ih h.2))

/-- The pieces of a term are balanced. -/
theorem Term.balanced_pieces {t : Term}
    (hw : ∀ x ∈ t.yield, CanWrite (fun name => isIdentifier name.toList) x) :
    Balanced t.pieces := by
  induction t with
  | number digits =>
    obtain ⟨n, rfl⟩ := (hw ⟨.number, digits⟩ (by simp [yield])).2 rfl
    exact .cons (Piece.isPlain_number n) .nil
  | text content => exact .cons trivial .nil
  | name n =>
    have hname := (hw ⟨.identifier, n⟩ (by simp [yield])).1 rfl
    exact .cons (Piece.isPlain_name hname) .nil
  | form op args ih =>
    have hargs : Balanced (piecesAll args) := by
      refine balanced_piecesAll fun t ht => ih t ht fun x hx => hw x ?_
      simp [yield, mem_yieldAll ht hx]
    rw [pieces, ← List.cons_append]
    exact .enclosed rfl rfl (.cons (Piece.isPlain_operator op).2 hargs) .nil

theorem Expr.toList_write (e : Expr) (g : Grammar) :
    (e.write g).toList = Piece.text (e.pieces g) := by
  rw [write, String.toList_ofList]
  rfl

/-- Canonical text is balanced, in whichever grammar. -/
theorem Expr.balanced_pieces {ctx : Context} {e : Expr} (hkeyed : ctx.host.Keyed)
    (h : e.Everywhere (Sound ctx)) (g : Grammar) : Balanced (e.pieces g) := by
  have hnames : ∀ n ∈ e.names, isIdentifier n.toList := fun n hn => (isName_names h hkeyed n hn).1
  cases g with
  | polish =>
    rw [pieces, ← pieces_term]
    exact Term.balanced_pieces (canWrite_term h hnames)
  | algebraic =>
    rw [pieces, ← pieces_phrase h]
    exact Phrase.balanced_pieces (isWritable_phrase h hnames)

end SignalRules
