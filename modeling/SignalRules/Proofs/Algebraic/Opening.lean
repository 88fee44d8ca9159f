import SignalRules.Proofs.Algebraic.Canonical
import SignalRules.Proofs.Algebraic.Weight

/-!
# Taking parentheses out of a phrase

Each parenthesis that opens a group in the written form of a phrase is closed by another one. If
the pair is taken out, the text is still cut into lexemes, and these weigh less than the phrase
does. The exception is a pair around a negative literal behind a minus sign, where they weigh as
much as before.

## Main definitions

* `Piece.splitGroup`: what is in front of the parenthesis that closes a group, and behind it.
* `Piece.Nested`: every group that is opened is closed.
* `Phrase.IsSigned`: the negative literals of a phrase are those of negative numbers.
* `Phrase.Opens`: every group can be taken out of some pieces.

## Main results

* `Piece.Nested.exists_close`, `Piece.Nested.splitGroup`: the parenthesis that closes a group is
  there, and it is found.
* `Phrase.opens_pieces`: every group can be taken out of the pieces of a phrase.
-/

namespace SignalRules

namespace Piece

/-- The pieces in front of the parenthesis that closes a group, and those behind it, where `depth`
groups have been opened inside. -/
def splitGroup : (depth : Nat) → List Piece → Option (List Piece × List Piece)
  | _, [] => none
  | 0, closeGroup :: ps => some ([], ps)
  | depth + 1, closeGroup :: ps => (splitGroup depth ps).map fun r => (closeGroup :: r.1, r.2)
  | depth, openGroup :: ps => (splitGroup (depth + 1) ps).map fun r => (openGroup :: r.1, r.2)
  | depth, p :: ps => (splitGroup depth ps).map fun r => (p :: r.1, r.2)

/-- Pieces in which every group that is opened is closed again. -/
inductive Nested : List Piece → Prop
  | nil : Nested []
  | cons {p : Piece} {ps : List Piece} (hopen : p ≠ openGroup) (hclose : p ≠ closeGroup)
      (h : Nested ps) : Nested (p :: ps)
  | group {ps qs : List Piece} (hps : Nested ps) (hqs : Nested qs) :
      Nested (openGroup :: (ps ++ closeGroup :: qs))

variable {ps qs before tail : List Piece}

theorem Nested.append (hps : Nested ps) (hqs : Nested qs) : Nested (ps ++ qs) := by
  induction hps with
  | nil => exact hqs
  | cons hopen hclose _ ih => exact .cons hopen hclose ih
  | @group ps _ hps _ _ ih =>
    rw [List.cons_append, List.append_assoc]
    exact .group hps ih

theorem Nested.listed {pss : List (List Piece)} (h : ∀ ps ∈ pss, Nested ps) :
    Nested (listed pss) := by
  fun_induction Piece.listed pss with
  | case1 => exact .nil
  | case2 ps => exact h ps (by simp)
  | case3 ps qs rest ih =>
    rw [List.forall_mem_cons] at h
    exact h.1.append (.cons (by simp) (by simp) (.cons (by simp) (by simp) (ih h.2)))

/-- Nested pieces do not close the group that they stand in. -/
theorem Nested.splitGroup_append (h : Nested ps) (depth : Nat) (rest : List Piece) :
    splitGroup depth (ps ++ rest) = (splitGroup depth rest).map fun r => (ps ++ r.1, r.2) := by
  induction h generalizing depth rest with
  | nil => simp
  | @cons p ps hopen hclose _ ih =>
    cases p with
    | openGroup => exact absurd rfl hopen
    | closeGroup => exact absurd rfl hclose
    | _ => simp [splitGroup, ih depth rest, Function.comp_def]
  | @group ps qs _ _ ihps ihqs =>
    simp [splitGroup, ihps (depth + 1) (closeGroup :: (qs ++ rest)), ihqs depth rest,
      Function.comp_def]

/-- The parenthesis that closes a group is found behind what is in the group. -/
theorem Nested.splitGroup (h : Nested ps) (rest : List Piece) :
    Piece.splitGroup 0 (ps ++ closeGroup :: rest) = some (ps, rest) := by
  rw [h.splitGroup_append]
  simp [Piece.splitGroup]

/-- An opening parenthesis stands in the first of two lists of pieces or in the second one. -/
theorem mem_or_mem_of_append_eq (h : ps ++ qs = before ++ openGroup :: tail) :
    (∃ rest, ps = before ++ openGroup :: rest ∧ tail = rest ++ qs) ∨
      ∃ rest, before = ps ++ rest ∧ qs = rest ++ openGroup :: tail := by
  rcases List.append_eq_append_iff.1 h with ⟨middle, rfl, hqs⟩ | ⟨middle, rfl, htail⟩
  · exact .inr ⟨middle, rfl, hqs⟩
  · cases middle with
    | nil => exact .inr ⟨[], by simp, by simpa using htail.symm⟩
    | cons p middle =>
      obtain ⟨rfl, hrest⟩ := List.cons.inj htail
      exact .inl ⟨middle, rfl, hrest⟩

/-- Every group that is opened in nested pieces holds nested pieces and is closed. -/
theorem Nested.exists_close (h : Nested ps) (hps : ps = before ++ openGroup :: tail) :
    ∃ inner behind, Nested inner ∧ tail = inner ++ closeGroup :: behind := by
  induction h generalizing before tail with
  | nil => simp at hps
  | @cons p ps hopen _ _ ih =>
    cases before with
    | nil => exact absurd (List.cons.inj hps).1 hopen
    | cons b before => exact ih (List.cons.inj hps).2
  | @group ps qs hnested _ ihps ihqs =>
    cases before with
    | nil => exact ⟨ps, qs, hnested, (List.cons.inj hps).2.symm⟩
    | cons b before =>
      rcases mem_or_mem_of_append_eq (List.cons.inj hps).2 with
        ⟨rest, hrest, rfl⟩ | ⟨rest, -, hrest⟩
      · obtain ⟨inner, behind, hinner, rfl⟩ := ihps hrest
        exact ⟨inner, behind ++ closeGroup :: qs, hinner, by simp⟩
      · cases rest with
        | nil => simp at hrest
        | cons r rest => exact ihqs (List.cons.inj hrest).2

theorem openGroup_not_mem_listed {pss : List (List Piece)} (h : ∀ ps ∈ pss, openGroup ∉ ps) :
    openGroup ∉ listed pss := by
  fun_induction Piece.listed pss with
  | case1 => simp
  | case2 ps => exact h ps (by simp)
  | case3 ps qs rest ih =>
    rw [List.forall_mem_cons] at h
    simpa using ⟨h.1, ih h.2⟩

end Piece

namespace Phrase

open Piece (Nested)

theorem nested_pieces (p : Phrase) : Nested p.pieces := by
  have hcall (word : String) {pss : List (List Piece)} (h : ∀ ps ∈ pss, Nested ps) :
      Nested (.word word :: .mark '(' :: (Piece.listed pss ++ [.mark ')'])) :=
    .cons (by simp) (by simp) (.cons (by simp) (by simp)
      ((Nested.listed h).append (.cons (by simp) (by simp) .nil)))
  induction p with
  | number | negative | text | signal => exact .cons (by simp) (by simp) .nil
  | presence kind names =>
    refine hcall _ (List.forall_mem_map.2 fun name _ => ?_)
    exact .cons (by simp) (by simp) .nil
  | call op args ih | invoke name args ih =>
    refine hcall _ ?_
    rw [piecesAll_eq_map, List.forall_mem_map]
    exact ih
  | group inner ih => exact .group ih .nil
  | minus operand ih => exact .cons (by simp) (by simp) ih
  | not operand ih => exact .cons (by simp) (by simp) (.cons (by simp) (by simp) ih)
  | binary op left right ihl ihr =>
    exact ihl.append (.cons (by simp) (by simp) (.cons (by simp) (by simp)
      (.cons (by simp) (by simp) ihr)))

/-! ### Negative literals -/

mutual

/-- The negative literals of a phrase are those of negative numbers. -/
def IsSigned : Phrase → Prop
  | negative digits =>
    ∃ n : Fixed, n.hundredths < 0 ∧ digits = String.ofList n.magnitudeDigits
  | call _ args | invoke _ args => AreSigned args
  | group p | minus p | not p => IsSigned p
  | binary _ left right => IsSigned left ∧ IsSigned right
  | _ => True

/-- The negative literals of several phrases are those of negative numbers. -/
def AreSigned : List Phrase → Prop
  | [] => True
  | p :: ps => IsSigned p ∧ AreSigned ps

end

theorem areSigned_iff {ps : List Phrase} : AreSigned ps ↔ ∀ p ∈ ps, p.IsSigned := by
  induction ps with
  | nil => simp [AreSigned]
  | cons p ps ih => rw [AreSigned, ih, List.forall_mem_cons]

theorem IsSigned.grouped {p : Phrase} (h : p.IsSigned) (b : Bool) : (p.grouped b).IsSigned := by
  cases b <;> simpa [Phrase.grouped, IsSigned] using h

theorem IsSigned.chain {p : Phrase} (h : p.IsSigned) {ss : List (Operator × Phrase)}
    (hss : ∀ s ∈ ss, s.2.IsSigned) : (chain p ss).IsSigned := by
  induction ss generalizing p with
  | nil => exact h
  | cons s ss ih =>
    obtain ⟨hs, hss⟩ := List.forall_mem_cons.1 hss
    exact ih (by simpa [IsSigned] using ⟨h, hs⟩) hss

end Phrase

open Phrase (IsSigned)

theorem Operator.isSigned_phrase (op : Operator) {ps : List (Head × Phrase)}
    (h : ∀ p ∈ ps, p.2.IsSigned) : (op.phrase ps).IsSigned := by
  have hunary : (op.unaryPhrase ps).IsSigned := by
    cases ps with
    | nil => simp [unaryPhrase, IsSigned]
    | cons p ps => exact (h p (by simp)).grouped _
  unfold phrase
  split
  · cases ps with
    | nil => simp [chainPhrase, IsSigned]
    | cons p ps =>
      refine ((h p (by simp)).grouped _).chain ?_
      rw [List.forall_mem_map]
      exact fun q hq => (h q (by simp [hq])).grouped _
  · split_ifs <;> simpa [IsSigned] using hunary
  · rw [IsSigned, Phrase.areSigned_iff, List.forall_mem_map]
    exact h

/-- Only a negative number is written as a negative literal. -/
theorem Expr.isSigned_phrase (e : Expr) : e.phrase.IsSigned := by
  induction e using node_induction with
  | step span head es ih =>
    have hes : ∀ p ∈ es.map fun e => (e.head, e.phrase), p.2.IsSigned := by
      rwa [List.forall_mem_map]
    have hargs : Phrase.AreSigned ((es.map fun e => (e.head, e.phrase)).map Prod.snd) := by
      rwa [Phrase.areSigned_iff, List.forall_mem_map]
    rw [phrase_node]
    cases head with
    | constant v =>
      cases v with
      | unset | string => simp [Head.phrase, Value.phrase, IsSigned]
      | number n =>
        rw [Head.phrase, Value.phrase]
        split_ifs with hneg
        · rw [IsSigned]
          exact ⟨n, hneg, rfl⟩
        · simp [IsSigned]
    | comparison op | connective op | arithmetic op => exact Operator.isSigned_phrase _ hes
    | concat => exact Operator.isSigned_phrase .concat hes
    | action a once => simpa [Head.phrase, IsSigned] using hargs
    | property mode p => simpa [Head.phrase, IsSigned, Phrase.AreSigned] using hargs
    | _ => simp [Head.phrase, IsSigned]

/-! ### Groups -/

namespace Phrase

open Lexicon (Writes ofGrammar)
open Lexeme (weigh)
open Piece (mem_or_mem_of_append_eq)

variable {ps qs before behind : List Piece} {xs ys : List Lexeme} {inner : Phrase}

/-- A negative literal behind a minus sign, which need not be grouped. -/
def Exempt (before : List Piece) (inner : Phrase) : Prop :=
  before.getLast? = some (.mark '-') ∧ ∃ digits, inner = .negative digits

theorem Exempt.append (h : Exempt before inner) (ps : List Piece) : Exempt (ps ++ before) inner :=
  ⟨by rw [List.getLast?_append, h.1]; rfl, h.2⟩

/-- A group around `inner` is taken out of pieces that spell `xs`: what is left spells lexemes that
weigh less. -/
structure Opened (ps : List Piece) (xs : List Lexeme) (before : List Piece) (inner : Phrase)
    (behind : List Piece) : Prop where
  pieces : ps = before ++ .openGroup :: (inner.pieces ++ .closeGroup :: behind)
  signed : inner.IsSigned
  lighter : ∃ ys, Writes (ofGrammar .algebraic) (Piece.text (before ++ inner.pieces ++ behind)) ys ∧
    (¬ Exempt before inner → ∀ rest, weigh false (ys ++ rest) < weigh false (xs ++ rest))

/-- Every group can be taken out of pieces that spell `xs`. -/
def Opens (ps : List Piece) (xs : List Lexeme) : Prop :=
  ∀ before tail, ps = before ++ .openGroup :: tail →
    ∃ inner behind, Opened ps xs before inner behind

theorem opens_of_not_mem (h : Piece.openGroup ∉ ps) (xs : List Lexeme) : Opens ps xs := by
  rintro before tail rfl
  simp at h

/-- What is written around pieces does not matter, if it weighs the same in front of anything. -/
theorem Opened.frame (h : Opened qs ys before inner behind) {us vs : List Lexeme} {n : Nat}
    {ps' : List Piece}
    (hweigh : ∀ zs, weigh false (us ++ zs) = n + weigh false zs)
    (hwrites : ∀ {rs : List Piece} {zs : List Lexeme},
      Writes (ofGrammar .algebraic) (Piece.text rs) zs →
        Writes (ofGrammar .algebraic) (Piece.text (ps ++ rs ++ ps')) (us ++ zs ++ vs)) :
    Opened (ps ++ qs ++ ps') (us ++ ys ++ vs) (ps ++ before) inner (behind ++ ps') where
  pieces := by simp [h.pieces]
  signed := h.signed
  lighter := by
    obtain ⟨zs, hzs, hlighter⟩ := h.lighter
    refine ⟨us ++ zs ++ vs, by simpa using hwrites hzs, fun hexempt rest => ?_⟩
    have hless := hlighter (fun hinner => hexempt (hinner.append ps)) (vs ++ rest)
    simp only [List.append_assoc, hweigh]
    omega

theorem Opens.frame {ps' : List Piece} (h : Opens qs ys) (hps : Piece.openGroup ∉ ps)
    (hps' : Piece.openGroup ∉ ps') {us vs : List Lexeme} {n : Nat}
    (hweigh : ∀ zs, weigh false (us ++ zs) = n + weigh false zs)
    (hwrites : ∀ {rs : List Piece} {zs : List Lexeme},
      Writes (ofGrammar .algebraic) (Piece.text rs) zs →
        Writes (ofGrammar .algebraic) (Piece.text (ps ++ rs ++ ps')) (us ++ zs ++ vs)) :
    Opens (ps ++ qs ++ ps') (us ++ ys ++ vs) := by
  intro before tail heq
  rcases mem_or_mem_of_append_eq heq with ⟨tail, heq, -⟩ | ⟨rest, -, rfl⟩
  · rcases mem_or_mem_of_append_eq heq with ⟨tail, rfl, -⟩ | ⟨before, rfl, hqs⟩
    · simp at hps
    · obtain ⟨inner, behind, hopened⟩ := h before tail hqs
      exact ⟨inner, behind ++ ps', hopened.frame hweigh hwrites⟩
  · simp at hps'

/-- A group stands in one of two parts, if there is none between them. -/
theorem Opens.join {sep : List Piece} {us : List Lexeme} {n : Nat} (hsep : Piece.openGroup ∉ sep)
    (hps : Opens ps xs) (hqs : Opens qs ys)
    (hxs : Writes (ofGrammar .algebraic) (Piece.text ps) xs)
    (hys : Writes (ofGrammar .algebraic) (Piece.text qs) ys)
    (hweigh : ∀ zs, weigh false (xs ++ us ++ zs) = n + weigh false zs)
    (hwrites : ∀ {as bs : List Piece} {zs ws : List Lexeme},
      Writes (ofGrammar .algebraic) (Piece.text as) zs →
      Writes (ofGrammar .algebraic) (Piece.text bs) ws →
        Writes (ofGrammar .algebraic) (Piece.text (as ++ sep ++ bs)) (zs ++ us ++ ws)) :
    Opens (ps ++ sep ++ qs) (xs ++ us ++ ys) := by
  intro before tail heq
  rcases mem_or_mem_of_append_eq heq with ⟨tail, heq, -⟩ | ⟨before, rfl, hqs'⟩
  · rcases mem_or_mem_of_append_eq heq with ⟨tail, hps', -⟩ | ⟨before, -, rfl⟩
    · obtain ⟨inner, behind, hopened⟩ := hps before tail hps'
      have hframe : Opened ([] ++ ps ++ (sep ++ qs)) ([] ++ xs ++ (us ++ ys)) ([] ++ before) inner
          (behind ++ (sep ++ qs)) :=
        hopened.frame (fun zs => (Nat.zero_add _).symm) fun hrs => by simpa using hwrites hrs hys
      exact ⟨inner, behind ++ (sep ++ qs), by simpa using hframe⟩
    · simp at hsep
  · obtain ⟨inner, behind, hopened⟩ := hqs before tail hqs'
    have hframe : Opened (ps ++ sep ++ qs ++ []) (xs ++ us ++ ys ++ []) (ps ++ sep ++ before) inner
        (behind ++ []) :=
      hopened.frame hweigh fun hrs => by simpa using hwrites hxs hrs
    exact ⟨inner, behind, by simpa using hframe⟩

theorem opens_group {p : Phrase} (hp : p.RespectsPrecedence) (hsigned : p.IsSigned)
    (hw : Writes (ofGrammar .algebraic) (Piece.text p.pieces) p.yield)
    (h : Opens p.pieces p.yield) : Opens (group p).pieces (group p).yield := by
  intro before tail heq
  cases before with
  | nil =>
    refine ⟨p, [], rfl, hsigned, p.yield, by simpa using hw, fun _ rest => ?_⟩
    rw [Algebraic.weigh_yield hp.group, Algebraic.weigh_yield hp, weight]
    omega
  | cons o before =>
    obtain ⟨rfl, htail⟩ := List.cons.inj heq
    rcases mem_or_mem_of_append_eq htail with ⟨tail, hpieces, -⟩ | ⟨rest, -, hclose⟩
    · obtain ⟨inner, behind, hopened⟩ := h before tail hpieces
      have hframe : Opened ([Piece.openGroup] ++ p.pieces ++ [Piece.closeGroup])
          ([Lexeme.symbol '('] ++ p.yield ++ [Lexeme.symbol ')']) ([Piece.openGroup] ++ before)
          inner (behind ++ [Piece.closeGroup]) :=
        hopened.frame (fun zs => Algebraic.weigh_open) writes_group
      exact ⟨inner, behind ++ [.closeGroup], by simpa [pieces, yield, Lexeme.enclosed] using hframe⟩
    · cases rest <;> simp at hclose

/-- Behind a minus sign, the parentheses around a literal make it another literal, or they are
exempt. -/
theorem opens_minus_literal {p : Phrase} (hp : p.RespectsPrecedence) (hliteral : p.isLiteral)
    (hsigned : p.IsSigned) (hw : Writes (ofGrammar .algebraic) (Piece.text p.pieces) p.yield) :
    Opens (minus (group p)).pieces (minus (group p)).yield := by
  intro before tail heq
  have hword : ∃ word, p.pieces = [.word word] := by
    cases p with
    | number | negative => exact ⟨_, rfl⟩
    | _ => cases hliteral
  obtain ⟨word, hword⟩ := hword
  -- The only group is the one around the literal.
  obtain rfl : before = [.mark '-'] := by
    rw [pieces, pieces, hword] at heq
    rcases before with _ | ⟨a, _ | ⟨b, _ | ⟨c, _ | ⟨d, before⟩⟩⟩⟩ <;> simp_all
  refine ⟨p, [], by simp [pieces], hsigned, .symbol '-' :: p.yield, ?_, fun hexempt rest => ?_⟩
  · simpa using writes_minus hw
  · cases p with
    | number digits =>
      have hatom : (Operator.arithmetic .neg).operandPrecedence ≤ Operator.atomPrecedence := by
        decide
      have hgroup : (minus (group (number digits))).RespectsPrecedence :=
        .minus (.group hp) hatom (by simp)
      have hbare := Algebraic.weigh_yield (.negative digits) rest
      rw [Algebraic.weigh_yield hgroup]
      simp only [weight, yield, isGroupedLiteral, isLiteral, if_true] at hbare ⊢
      omega
    | negative digits => exact absurd ⟨rfl, digits, rfl⟩ hexempt
    | _ => cases hliteral

/-- Behind a minus sign, groups can be taken out of an operand as without it. -/
theorem opens_minus {p : Phrase} (hp : p.RespectsPrecedence) (hbinary : ¬ p.isBinary)
    (hnumber : ∀ digits, p ≠ .number digits) (hliteral : p.isGroupedLiteral = false)
    (h : Opens p.pieces p.yield) : Opens (minus p).pieces (minus p).yield := by
  intro before tail heq
  cases before with
  | nil => simp [pieces] at heq
  | cons o before =>
    obtain ⟨rfl, htail⟩ := List.cons.inj heq
    obtain ⟨inner, behind, hopened⟩ := h before tail htail
    obtain ⟨ys, hys, hlighter⟩ := hopened.lighter
    refine ⟨inner, behind, by simp [pieces, hopened.pieces], hopened.signed, .symbol '-' :: ys,
      by simpa using writes_minus hys, fun hexempt rest => ?_⟩
    have hless := hlighter (fun hinner => hexempt (hinner.append [.mark '-'])) rest
    rw [yield, List.cons_append, List.cons_append, Algebraic.weigh_minus, Algebraic.weigh_minus,
      Algebraic.bindsLiteral_yield hp hbinary hnumber, hliteral]
    simp only [Bool.false_eq_true, if_false]
    split_ifs <;> omega

/-- Arguments with commas between them. -/
theorem opens_listed {args : List Phrase} (hargs : ∀ p ∈ args, p.RespectsPrecedence)
    (hw : ∀ p ∈ args, Writes (ofGrammar .algebraic) (Piece.text p.pieces) p.yield)
    (h : ∀ p ∈ args, Opens p.pieces p.yield) :
    Opens (Piece.listed (piecesAll args)) (Lexeme.listed (yieldAll args)) := by
  induction args with
  | nil => exact opens_of_not_mem (by simp [Piece.listed, piecesAll]) _
  | cons p args ih =>
    rw [List.forall_mem_cons] at hargs hw h
    have hrest := ih hargs.2 hw.2 h.2
    cases args with
    | nil => exact h.1
    | cons q args =>
      have hjoin : Opens
          (p.pieces ++ [Piece.mark ',', Piece.blank] ++ Piece.listed (piecesAll (q :: args)))
          (p.yield ++ [Lexeme.symbol ','] ++ Lexeme.listed (yieldAll (q :: args))) := by
        refine h.1.join (by simp) hrest hw.1 (writes_listed (forall₂_writes hw.2))
          (n := p.weight) (fun zs => ?_) fun has hbs => by simpa using writes_comma has hbs
        rw [List.append_assoc, Algebraic.weigh_yield hargs.1]
        exact congrArg _ Algebraic.weigh_comma
      simpa [Piece.listed, piecesAll, Lexeme.listed, yieldAll] using hjoin

/-- A call, the name of which can be written. -/
theorem opens_call {word : String} {x : Lexeme}
    (hword : Writes (ofGrammar .algebraic) word.toList [x]) (hx : x.kind ≠ .symbol)
    (h : Opens ps xs) :
    Opens (.word word :: .mark '(' :: (ps ++ [.mark ')'])) (x :: Lexeme.enclosed xs) := by
  have hweigh (zs : List Lexeme) : weigh false ([x, .symbol '('] ++ zs) = 1 + weigh false zs :=
    (Algebraic.weigh_of_kind hx).trans Algebraic.weigh_open
  have hframe : Opens ([Piece.word word, Piece.mark '('] ++ ps ++ [Piece.mark ')'])
      ([x, Lexeme.symbol '('] ++ xs ++ [Lexeme.symbol ')']) :=
    h.frame (by simp) (by simp) hweigh fun hrs => writes_call hword hrs
  simpa [Lexeme.enclosed] using hframe

/-- Every group can be taken out of the pieces of a phrase. -/
theorem opens_pieces {p : Phrase} (hp : p.RespectsPrecedence)
    (hw : p.IsWritable Grammar.algebraic.IsName) (hsigned : p.IsSigned) :
    Opens p.pieces p.yield := by
  have hargs {args : List Phrase} (hargs : ∀ q ∈ args, q.RespectsPrecedence)
      (hw : ∀ q ∈ args, q.IsWritable Grammar.algebraic.IsName) (hsigned : AreSigned args)
      (ih : ∀ q ∈ args, q.IsWritable Grammar.algebraic.IsName → q.IsSigned →
        Opens q.pieces q.yield) :
      Opens (Piece.listed (piecesAll args)) (Lexeme.listed (yieldAll args)) :=
    opens_listed hargs (fun q hq => writes_pieces (hargs q hq) (hw q hq))
      fun q hq => ih q hq (hw q hq) (areSigned_iff.1 hsigned q hq)
  induction hp with
  | number | negative | text | signal => exact opens_of_not_mem (by simp [pieces]) _
  | presence kind names =>
    have hnames : Piece.openGroup ∉ Piece.listed (names.map fun name => [.word name]) :=
      Piece.openGroup_not_mem_listed (List.forall_mem_map.2 fun name _ => by simp)
    exact opens_of_not_mem (by simpa [pieces] using hnames) _
  | @call op args hop hargs' ih =>
    exact opens_call (Lexicon.writes_keyword (infixed_mem_keywords op hop)) (by simp)
      (hargs hargs' hw.of_call hsigned ih)
  | @invoke name args hargs' ih =>
    have hname := (hw ⟨.identifier, name⟩ (by simp [yield])).1 rfl
    exact opens_call (Lexicon.writes_name hname) (by simp) (hargs hargs' hw.of_invoke hsigned ih)
  | @group inner hinner ih =>
    exact opens_group hinner hsigned (writes_pieces hinner hw.of_group) (ih hw.of_group hsigned)
  | @minus operand hoperand hpower hnumber ih =>
    have hbinary := mt hoperand.power_lt_of_isBinary (Nat.not_lt.2 hpower)
    -- Out of its group, a literal behind a minus sign would be read together with the sign.
    cases hliteral : operand.isGroupedLiteral with
    | false => exact opens_minus hoperand hbinary hnumber hliteral (ih hw.of_minus hsigned)
    | true =>
      cases hoperand with
      | @group inner hinner =>
        exact opens_minus_literal hinner hliteral hsigned
          (writes_pieces hinner hw.of_minus.of_group)
      | _ => cases hliteral
  | @not operand hoperand _ ih =>
    have hweigh (zs : List Lexeme) :
        weigh false ([⟨.keyword, "not"⟩] ++ zs) = 0 + weigh false zs := by
      rw [Nat.zero_add]
      exact Algebraic.weigh_of_kind (by simp)
    have hframe : Opens ([Piece.word "not", Piece.blank] ++ operand.pieces ++ [])
        ([⟨.keyword, "not"⟩] ++ operand.yield ++ []) :=
      (ih hw.of_not hsigned).frame (by simp) (by simp) hweigh fun hrs => by
        simpa using writes_not hrs
    simpa [pieces, yield] using hframe
  | @binary op left right hop hleft hright _ _ ihl ihr =>
    obtain ⟨hwl, hwr⟩ := hw.of_binary
    have hweigh (zs : List Lexeme) :
        weigh false (left.yield ++ [op.lexeme] ++ zs) = left.weight + weigh false zs := by
      rw [List.append_assoc, Algebraic.weigh_yield hleft]
      exact congrArg _ (Algebraic.weigh_operator hop)
    have hjoin : Opens
        (left.pieces ++ [Piece.blank, Piece.word op.infixed, Piece.blank] ++ right.pieces)
        (left.yield ++ [op.lexeme] ++ right.yield) :=
      (ihl hwl hsigned.1).join (by simp) (ihr hwr hsigned.2) (writes_pieces hleft hwl)
        (writes_pieces hright hwr) hweigh fun has hbs => by simpa using writes_binary hop has hbs
    simpa [pieces, yield] using hjoin

end Phrase

end SignalRules
