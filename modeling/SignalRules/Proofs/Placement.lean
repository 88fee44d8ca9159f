import Mathlib.Data.String.Basic
import SignalRules.Proofs.Lexing

/-!
# Places in a source

A place in a source is a span of bytes whose ends are boundaries between characters. The lexicon
puts every token and every error at such a place, and the checked constructors only pass on the
places that they are given. So whatever holds of the places of tokens, and of the smallest place
around two others, holds of every place that reading tells of.

## Main definitions

* `Text.IsBoundary`, `Span.Within`: offsets between characters, and spans between such offsets.
* `Placed`: what an answer satisfies if it is a result, and where it is if it is an error.

## Main results

* `Lexicon.placed_next`: the next token covers the characters that it is read from.
* `Lexicon.placed_tokenize`: all tokens of a source lie in it, and so does an error.
* `Context.placed_apply`, `Context.placed_action`: building refuses operands at their places.
-/

namespace SignalRules

/-- The length of a text in bytes is that of its UTF-8 form. -/
theorem Text.utf8Len_eq_byteLength (cs : List Char) : String.utf8Len cs = byteLength cs := by
  induction cs with
  | nil => rfl
  | cons c cs ih => rw [String.utf8Len_cons, ih, byteLength_cons, Nat.add_comm]

/-- An offset, in bytes, at which a character of the text starts or the text ends. -/
def Text.IsBoundary (cs : List Char) (offset : Nat) : Prop :=
  ∃ before after, cs = before ++ after ∧ byteLength before = offset

namespace Text.IsBoundary

variable {cs : List Char} {offset : Nat}

theorem le_byteLength (h : IsBoundary cs offset) : offset ≤ byteLength cs := by
  obtain ⟨before, after, rfl, rfl⟩ := h
  simp

/-- A boundary in a part of a text is one in the whole. -/
theorem add (h : IsBoundary cs offset) (before after : List Char) :
    IsBoundary (before ++ cs ++ after) (offset + byteLength before) := by
  obtain ⟨before', after', rfl, rfl⟩ := h
  exact ⟨before ++ before', after' ++ after, by simp, by simp [Nat.add_comm]⟩

/-- A boundary is a valid position in the UTF-8 form of the text. -/
theorem isValid (h : IsBoundary cs offset) :
    (⟨offset⟩ : String.Pos.Raw).IsValid (String.ofList cs) := by
  obtain ⟨before, after, rfl, rfl⟩ := h
  rw [String.Pos.Raw.isValid_iff_exists_append]
  refine ⟨String.ofList before, String.ofList after, String.ofList_append, ?_⟩
  rw [String.rawEndPos_ofList, utf8Len_eq_byteLength]

end Text.IsBoundary

/-- A span of a text whose ends are boundaries between characters. -/
structure Span.Within (cs : List Char) (s : Span) : Prop where
  start_le_stop : s.start ≤ s.stop
  start : Text.IsBoundary cs s.start
  stop : Text.IsBoundary cs s.stop

namespace Span.Within

variable {cs : List Char} {a b : Span}

theorem merge (ha : a.Within cs) (hb : b.Within cs) : (a.merge b).Within cs := by
  have hab := ha.start_le_stop
  refine ⟨by simp only [Span.merge]; omega, ?_, ?_⟩
  · rcases Nat.le_total a.start b.start with h | h
    · simpa [Span.merge, Nat.min_eq_left h] using ha.start
    · simpa [Span.merge, Nat.min_eq_right h] using hb.start
  · rcases Nat.le_total a.stop b.stop with h | h
    · simpa [Span.merge, Nat.max_eq_right h] using hb.stop
    · simpa [Span.merge, Nat.max_eq_left h] using ha.stop

/-- A span of a part of a text, seen from the whole. -/
theorem shift (ha : a.Within cs) (before after : List Char) :
    (a.shift (Text.byteLength before)).Within (before ++ cs ++ after) :=
  ⟨Nat.add_le_add_right ha.start_le_stop _, ha.start.add before after, ha.stop.add before after⟩

/-- A part of a text lies in it. -/
theorem of_append (before lexeme after : List Char) :
    (⟨Text.byteLength before, Text.byteLength before + Text.byteLength lexeme⟩ : Span).Within
      (before ++ lexeme ++ after) :=
  ⟨Nat.le_add_right _ _, ⟨before, lexeme ++ after, by simp, rfl⟩,
    ⟨before ++ lexeme, after, rfl, by simp⟩⟩

/-- The end of a text lies in it. -/
theorem finish (cs : List Char) : (⟨Text.byteLength cs, Text.byteLength cs⟩ : Span).Within cs := by
  simpa using of_append cs [] []

/-- A whole text lies in itself. -/
theorem whole (cs : List Char) : (⟨0, Text.byteLength cs⟩ : Span).Within cs := by
  simpa using of_append [] cs []

end Span.Within

/-- An answer that satisfies `Q` if it is a result, and that is at a place in `P` if it is an
error. -/
def Placed {α : Type} (P : Span → Prop) (Q : α → Prop) : Except ParseError α → Prop
  | .ok a => Q a
  | .error e => ∃ s, e.span = some s ∧ P s

namespace Placed

variable {α β : Type} {P : Span → Prop} {Q : α → Prop} {R : β → Prop}

theorem located {cause : Cause} {s : Span} (hs : P s) :
    Placed P Q (.error (.located cause s)) :=
  ⟨s, rfl, hs⟩

theorem forall_span {e : ParseError} (h : Placed P Q (.error e)) : ∀ s ∈ e.span, P s := by
  obtain ⟨s, hspan, hs⟩ := h
  rw [hspan]
  simpa using hs

theorem bind {x : Except ParseError α} {k : α → Except ParseError β} (hx : Placed P Q x)
    (hk : ∀ a, Q a → Placed P R (k a)) : Placed P R (x >>= k) := by
  cases x with
  | error e => exact hx
  | ok a => exact hk a hx

end Placed

/-! ### Tokens -/

namespace Lexicon

variable (lx : Lexicon)

/-- A token that has to be set off covers its characters, or the first character behind it is told
with it. -/
theorem placed_separated (before lexeme rest : List Char) :
    Placed (Span.Within (before ++ lexeme ++ rest))
      (· = ⟨Text.byteLength before, Text.byteLength before + Text.byteLength lexeme⟩)
      (lx.separated lexeme (Text.byteLength before) rest) := by
  cases rest with
  | nil => rfl
  | cons c rest =>
    rw [separated]
    split_ifs
    · rfl
    · have hwithin := Span.Within.of_append before (lexeme ++ [c]) rest
      exact .located (by simpa [Nat.add_assoc] using hwithin)

/-- The next token covers the characters that it is read from. -/
theorem placed_next (before : List Char) (c : Char) (cs : List Char) :
    Placed (Span.Within (before ++ c :: cs))
      (fun p => ∃ lexeme, c :: cs = lexeme ++ p.2 ∧
        p.1.span = ⟨Text.byteLength before, Text.byteLength before + Text.byteLength lexeme⟩)
      (lx.next (Text.byteLength before) c cs) := by
  unfold next
  split
  · rename_i keyword rest hkeyword
    obtain ⟨-, heq⟩ := eq_append_of_stopKeyword? hkeyword
    split_ifs
    · exact ⟨keyword.toList, heq, rfl⟩
    · have hplaced := lx.placed_separated before keyword.toList rest
      rw [List.append_assoc, ← heq] at hplaced
      exact hplaced.bind fun span hspan => ⟨keyword.toList, heq, hspan⟩
  · split_ifs
    · exact ⟨[c], rfl, by simp⟩
    · split
      · exact .located (by simpa using Span.Within.of_append before (c :: cs) [])
      · rename_i l hl
        have heq : c :: cs = c :: l.raw ++ l.rest := by rw [eq_append_of_readLiteral hl]; rfl
        have hplaced := lx.placed_separated before (c :: l.raw) l.rest
        rw [List.append_assoc, ← heq] at hplaced
        exact hplaced.bind fun span hspan => ⟨c :: l.raw, heq, hspan⟩
    · have heq : c :: cs = (c :: cs.takeWhile fun d => !lx.isStop d) ++
          cs.dropWhile fun d => !lx.isStop d := by
        simp
      dsimp only
      split
      · have hwithin := Span.Within.of_append before (c :: cs.takeWhile fun d => !lx.isStop d)
          (cs.dropWhile fun d => !lx.isStop d)
        rw [List.append_assoc, ← heq] at hwithin
        exact .located hwithin
      · exact ⟨_, heq, rfl⟩

variable {lx} in
theorem exists_lexeme_of_next {before : List Char} {c : Char} {cs rest : List Char} {t : Token}
    (h : lx.next (Text.byteLength before) c cs = .ok (t, rest)) :
    ∃ lexeme, c :: cs = lexeme ++ rest ∧
      t.span = ⟨Text.byteLength before, Text.byteLength before + Text.byteLength lexeme⟩ := by
  have hplaced := lx.placed_next before c cs
  rwa [h] at hplaced

/-- The tokens of a text lie in the source that the text is the end of. -/
theorem placed_scan (before cs : List Char) :
    Placed (Span.Within (before ++ cs)) (fun tokens => ∀ t ∈ tokens, t.span.Within (before ++ cs))
      (lx.scan (Text.byteLength before) cs) := by
  generalize hstart : Text.byteLength before = start
  fun_induction scan lx start cs generalizing before with
  | case1 => simp [Placed]
  | case2 start c cs hc ih =>
    have hplaced := ih (before ++ [c]) (by simp [hstart])
    rwa [List.append_assoc] at hplaced
  | case3 start c cs hc e hnext =>
    subst hstart
    have herror := lx.placed_next before c cs
    rwa [hnext] at herror
  | case4 start c cs hc token rest hnext e he ih =>
    subst hstart
    obtain ⟨lexeme, heq, hspan⟩ := exists_lexeme_of_next hnext
    have hplaced := ih (before ++ lexeme) (by simp [hspan])
    rwa [List.append_assoc, ← heq, he] at hplaced
  | case5 start c cs hc token rest hnext tokens htokens ih =>
    subst hstart
    obtain ⟨lexeme, heq, hspan⟩ := exists_lexeme_of_next hnext
    have hplaced := ih (before ++ lexeme) (by simp [hspan])
    rw [List.append_assoc, ← heq, htokens] at hplaced
    have hfirst := Span.Within.of_append before lexeme rest
    rw [List.append_assoc, ← heq, ← hspan] at hfirst
    exact List.forall_mem_cons.2 ⟨hfirst, hplaced⟩

/-- All tokens of a source lie in it, and so does an error. -/
theorem placed_tokenize (source : List Char) :
    Placed (Span.Within source) (fun tokens => ∀ t ∈ tokens, t.span.Within source)
      (lx.tokenize source) :=
  lx.placed_scan [] source

end Lexicon

/-! ### Building -/

namespace Context

variable {ctx : Context} {P : Span → Prop} {span : Span} {es : List Expr}

theorem placed_number (text : String) (hspan : P span) :
    Placed P (fun e => P e.span) (number text span) := by
  unfold number
  cases Fixed.parse? text.toList with
  | none => exact .located hspan
  | some n => exact hspan

theorem placed_resolve {α : Type} (found : Except Notice α) (hspan : P span) :
    Placed P (fun _ => True) (resolve span found) := by
  cases found with
  | error notice => exact .located hspan
  | ok a => trivial

theorem placed_signal (name : String) (hspan : P span) :
    Placed P (fun e => P e.span) (ctx.signal name span) :=
  (placed_resolve _ hspan).bind fun _ _ => hspan

theorem placed_action (written : String) (hspan : P span) (hes : ∀ e ∈ es, P e.span) :
    Placed P (fun e => P e.span) (ctx.action written es span) := by
  rw [action_eq]
  cases ctx.host.action? (splitOnce written).1 with
  | error notice => exact .located hspan
  | ok a =>
    dsimp only
    split_ifs
    · cases hrefused : argumentError? a (splitOnce written).1 es with
      | none => exact hspan
      | some err =>
        obtain ⟨⟨arg, i⟩, hmem, harg⟩ := List.exists_of_findSome?_eq_some hrefused
        have harg' : arg ∈ es := List.mem_of_getElem? (List.mk_mem_zipIdx_iff_getElem?.1 hmem)
        dsimp only at harg
        split at harg
        · cases harg
        · split_ifs at harg
          cases harg
          exact .located (hes arg harg')
    · exact .located hspan

/-- A check that looks for a first operand at fault refuses that operand at its place. -/
theorem placed_find? {p : Expr → Bool} {cause : Expr → Cause} {built : Expr}
    (hbuilt : P built.span) (hes : ∀ e ∈ es, P e.span) :
    Placed P (fun e => P e.span) (match es.find? p with
      | some x => .error (.located (cause x) x.span)
      | none => .ok built) := by
  cases hfind : es.find? p with
  | none => exact hbuilt
  | some x => exact .located (hes x (List.mem_of_find?_eq_some hfind))

theorem placed_settledPair (op : Comparison) {a b : Expr} (hspan : P span) (ha : P a.span)
    (hb : P b.span) : Placed P (fun e => P e.span) (ctx.settledPair op a b span) := by
  have hsettle {signal other : Expr} (hother : P other.span) :
      Placed P (fun _ => True) (ctx.settleLiteral signal other) := by
    unfold settleLiteral
    split
    · dsimp only
      split_ifs
      · exact .located hother
      · trivial
    · trivial
  have hmap {x : Except ParseError Expr} (hx : Placed P (fun _ => True) x) (f : Expr → Expr)
      (hf : ∀ e, P (f e).span) : Placed P (fun e => P e.span) (x.map f) := by
    cases x with
    | error e => exact hx
    | ok e => exact hf e
  unfold settledPair
  split
  · exact hmap (hsettle hb) _ fun _ => hspan
  · exact hmap (hsettle ha) _ fun _ => hspan

theorem placed_comparison (op : Comparison) {a b : Expr} (hspan : P span) (ha : P a.span)
    (hb : P b.span) : Placed P (fun e => P e.span) (ctx.comparison op a b span) := by
  rw [comparison_eq]
  split
  · split_ifs
    · exact .located hspan
    · exact .located hspan
    · exact placed_settledPair op hspan ha hb
  · exact .located hb
  · exact .located ha

theorem placed_property (op : Operator) (hspan : P span) (hes : ∀ e ∈ es, P e.span) :
    Placed P (fun e => P e.span) (ctx.property op es span) := by
  unfold property
  dsimp only
  split
  · rename_i referenceSpan reference _ rest
    have hreference : P referenceSpan := hes _ List.mem_cons_self
    refine (placed_resolve _ hreference).bind fun p _ => ?_
    split
    · exact .located hspan
    · split
      · exact hspan
      · rename_i i hi
        have hindex : P i.span := hes i (List.mem_cons_of_mem _ (List.mem_of_head? hi))
        split_ifs
        · exact .located hindex
        · exact hspan
  · exact .located hspan

/-- What is not a bare name is one of the operands. -/
theorem mem_of_bareNames {e : Expr} (h : bareNames es = .error e) : e ∈ es := by
  fun_induction bareNames es with
  | case1 => cases h
  | case2 _ name _ rest ih =>
    cases hrest : bareNames rest with
    | ok names => simp [hrest, pure, Except.pure] at h
    | error e' =>
      simp only [hrest, error_bind, Except.error.injEq] at h
      exact List.mem_cons_of_mem _ (ih (h ▸ hrest))
  | case3 x rest =>
    cases h
    exact List.mem_cons_self

theorem placed_presence (kind : Presence) (hspan : P span) (hes : ∀ e ∈ es, P e.span) :
    Placed P (fun e => P e.span) (ctx.presence kind es span) := by
  unfold presence
  split
  · exact hspan
  · rename_i e he
    exact .located (hes e (mem_of_bareNames he))

/-- An operator is applied at its place, or refused there or at the place of an operand. -/
theorem placed_apply (op : Operator) (hspan : P span) (hes : ∀ e ∈ es, P e.span) :
    Placed P (fun e => P e.span) (ctx.apply op es span) := by
  unfold apply
  split_ifs
  · exact .located hspan
  · split
    · exact placed_comparison _ hspan (hes _ (by simp)) (hes _ (by simp))
    · exact .located hspan
    · exact placed_find? hspan hes
    · exact placed_find? hspan hes
    · exact placed_find? hspan hes
    · exact placed_property _ hspan hes
    · exact placed_property _ hspan hes
    · exact placed_property _ hspan hes
    · exact placed_presence _ hspan hes
    · exact placed_signal _ hspan
    · exact placed_action _ hspan fun e he => hes e (List.mem_cons_of_mem _ he)
    · exact .located hspan
    · exact .located hspan

end Context

end SignalRules
