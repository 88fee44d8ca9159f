import SignalRules.Proofs.Algebraic.Lightest
import SignalRules.Proofs.Algebraic.Opening
import SignalRules.Proofs.Balanced
import SignalRules.Proofs.Checked
import SignalRules.Proofs.HostStates

/-!
# No parentheses can be removed

Canonical text of the algebraic grammar has no parentheses around an operand that could be left out.
The phrase of an expression is the lightest of all phrases that build the expression. Without a pair
of its parentheses, the text is made up of lexemes that weigh less, so that they spell no phrase
that builds it. The exception is a negative literal behind a minus sign, which is always grouped.

## Main results

* `Context.parse_ungrouped`: canonical text without a pair of parentheses is not read as before.
-/

namespace SignalRules

/-- The lexemes of a source that is read as an expression weigh at least as much as the phrase of
the expression. -/
theorem Context.weight_le_weigh {ctx : Context} (hg : ctx.grammar = .algebraic)
    {source : List Char} {e : Expr} (h : ctx.parse source = .ok e) {ys : List Lexeme}
    (hys : (Lexicon.ofGrammar .algebraic).Spells source ys) :
    e.phrase.weight ≤ Lexeme.weigh false ys := by
  obtain ⟨xs, hspells, hread, -⟩ := Context.parse_eq_ok_iff.1 ⟨e, h, rfl⟩
  rw [hg] at hspells
  simp only [Context.readLexemes, hg] at hread
  obtain ⟨p, hp, rfl, hbuild⟩ :=
    (Algebraic.readExpression_eq_ok_iff (Algebraic.isRegular_of_spells hspells)).1 hread
  obtain rfl := hspells.unique hys
  have hweigh := Algebraic.weigh_yield hp []
  rw [List.append_nil] at hweigh
  have hle := (Phrase.outweighs_of_build hp hbuild).weight
  rw [Expr.phrase_erase] at hle
  rw [hweigh]
  exact Nat.le_trans hle (Nat.le_add_right _ _)

theorem Fixed.text_of_neg {n : Fixed} (hn : n.hundredths < 0) :
    n.text = "-" ++ String.ofList n.magnitudeDigits := by
  rw [Fixed.text, Fixed.digits_eq, if_pos hn]
  simp

/-- Canonical text carries no removable parentheses. Take any group in the algebraic text of an
expression that was read, in whichever grammar. It is closed, and without this pair of parentheses
the text is refused or read as something else, unless the pair stands around a negative number
literal behind a minus sign. -/
theorem Context.parse_ungrouped {ctx : Context} (hreachable : ctx.host.Reachable)
    {source : List Char} {t : Expr} (h : ctx.parse source = .ok t) {before tail : List Piece}
    (hpieces : t.pieces .algebraic = before ++ .openGroup :: tail) :
    ∃ inner behind, Piece.splitGroup 0 tail = some (inner, behind) ∧
      (t.write .algebraic).toList =
        Piece.text before ++ '(' :: (Piece.text inner ++ ')' :: Piece.text behind) ∧
      (¬ (before.getLast? = some (.mark '-') ∧
          ∃ n : Fixed, n.hundredths < 0 ∧ inner = [.word n.text]) →
        ∀ strict e, (⟨ctx.host, strict, .algebraic⟩ : Context).parse
          (Piece.text before ++ (Piece.text inner ++ Piece.text behind)) = .ok e →
          e.erase ≠ t.erase) := by
  have hsound := (checked_of_parse h).sound
  have hwrite := t.toList_write .algebraic
  rw [hpieces] at hwrite
  rw [Expr.pieces, ← Expr.pieces_phrase hsound] at hpieces
  obtain ⟨inner, behind, hinner, rfl⟩ := t.phrase.nested_pieces.exists_close hpieces
  have hsplit := hinner.splitGroup behind
  refine ⟨inner, behind, hsplit, by simpa [Piece.chars] using hwrite, ?_⟩
  intro hexempt strict e he herase
  -- The rest is read as the same expression, so the names of the expression can be written.
  have hphrase : e.phrase = t.phrase := by rw [← Expr.phrase_erase, herase, Expr.phrase_erase]
  have hsound' := (checked_of_parse he).sound
  have hwritable := Expr.isWritable_phrase hsound' (Expr.isName_names hsound' hreachable.keyed)
  rw [hphrase] at hwritable
  have hrespects := (Expr.isPlaced hsound).respects
  obtain ⟨q, behind', hopened⟩ :=
    Phrase.opens_pieces hrespects hwritable t.isSigned_phrase before _ hpieces
  have htail := List.append_cancel_left (hpieces.symm.trans hopened.pieces)
  rw [(List.cons.inj htail).2, q.nested_pieces.splitGroup] at hsplit
  obtain ⟨rfl, rfl⟩ := Prod.mk.inj (Option.some.inj hsplit)
  obtain ⟨ys, hys, hlighter⟩ := hopened.lighter
  rw [Piece.text_append, Piece.text_append, List.append_assoc] at hys
  have hle := weight_le_weigh rfl he hys.spells
  have hless := hlighter (fun hq => hexempt ?_) []
  · rw [Algebraic.weigh_yield hrespects [], List.append_nil, ← hphrase] at hless
    exact absurd hless (Nat.not_lt.2 hle)
  · obtain ⟨hminus, digits, rfl⟩ := hq
    obtain ⟨n, hn, rfl⟩ := hopened.signed
    exact ⟨hminus, n, hn, by rw [Fixed.text_of_neg hn, Phrase.pieces]⟩

/-- Neither pair of parentheses in `(1 + 2) * -(3)` can be removed. The second one stands behind a
minus sign, but around a literal that is not negative. -/
theorem Context.parse_ungrouped_product :
    ∃ t, parse ⟨.empty, false, .polish⟩ "(mul (add 1 2) (neg 3))".toList = .ok t ∧
      t.write .algebraic = "(1 + 2) * -(3)" ∧
      ∀ strict e,
        (parse ⟨.empty, strict, .algebraic⟩ "1 + 2 * -(3)".toList = .ok e → e.erase ≠ t.erase) ∧
        (parse ⟨.empty, strict, .algebraic⟩ "(1 + 2) * -3".toList = .ok e →
          e.erase ≠ t.erase) := by
  have hparse : parse ⟨.empty, false, .polish⟩ "(mul (add 1 2) (neg 3))".toList =
      .ok (.node ⟨0, 23⟩ (.arithmetic .mul)
        [.node ⟨5, 14⟩ (.arithmetic .add)
          [.constant (.number ⟨100, by decide, by decide⟩) ⟨10, 11⟩,
            .constant (.number ⟨200, by decide, by decide⟩) ⟨12, 13⟩],
          .node ⟨15, 22⟩ (.arithmetic .neg)
            [.constant (.number ⟨300, by decide, by decide⟩) ⟨20, 21⟩]]) := by
    cbv
  obtain ⟨t, ht, hpieces⟩ : ∃ t,
      parse ⟨.empty, false, .polish⟩ "(mul (add 1 2) (neg 3))".toList = .ok t ∧
      t.pieces .algebraic = [.openGroup, .word "1", .blank, .word "+", .blank, .word "2",
        .closeGroup, .blank, .word "*", .blank, .mark '-', .openGroup, .word "3", .closeGroup] :=
    ⟨_, hparse, by cbv⟩
  have hwrite : t.write .algebraic = "(1 + 2) * -(3)" := by
    rw [Expr.write, hpieces]
    cbv
  refine ⟨t, ht, hwrite, fun strict e => ⟨fun he => ?_, fun he => ?_⟩⟩
  · have hsum : t.pieces .algebraic = [] ++ Piece.openGroup :: ([.word "1", .blank, .word "+",
        .blank, .word "2", .closeGroup, .blank, .word "*", .blank, .mark '-', .openGroup,
        .word "3", .closeGroup] : List Piece) := hpieces
    obtain ⟨inner, behind, hsplit, -, hneeded⟩ := parse_ungrouped .empty ht hsum
    obtain ⟨rfl, rfl⟩ := Prod.mk.inj (Option.some.inj hsplit)
    exact hneeded (fun hexempt => Option.some_ne_none _ hexempt.1.symm) strict e he
  · have hliteral : t.pieces .algebraic = ([.openGroup, .word "1", .blank, .word "+", .blank,
        .word "2", .closeGroup, .blank, .word "*", .blank, .mark '-'] : List Piece) ++
          Piece.openGroup :: [.word "3", .closeGroup] := hpieces
    obtain ⟨inner, behind, hsplit, -, hneeded⟩ := parse_ungrouped .empty ht hliteral
    obtain ⟨rfl, rfl⟩ := Prod.mk.inj (Option.some.inj hsplit)
    have hpositive : ¬ ∃ n : Fixed, n.hundredths < 0 ∧ [Piece.word "3"] = [.word n.text] := by
      rintro ⟨n, hn, htext⟩
      have hword : "3" = n.text := Piece.word.inj (List.cons.inj htext).1
      rw [Fixed.text_of_neg hn] at hword
      simpa using congrArg String.toList hword
    exact hneeded (fun hexempt => hpositive hexempt.2) strict e he

end SignalRules
