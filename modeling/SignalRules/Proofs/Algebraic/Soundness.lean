import SignalRules.Proofs.Algebraic.Climbing
import SignalRules.Proofs.Built

/-!
# Precedence climbing reads nothing but phrases

Whatever is read from the lexemes of a source is what some phrase builds, where the phrase spells
exactly the lexemes that were taken and respects precedence. Two shapes that the reader takes do
not respect precedence: a `not` behind an operator that binds more tightly, and one behind a minus
sign. Both are refused while they are built, because a condition is neither compared nor reckoned
with.

## Main definitions

* `Reading`: a phrase for what was read.
* `WholeReading`: a phrase that could not have been extended.

## Main results

* `exists_wholeReading`: every expression that is read has a phrase.
-/

namespace SignalRules.Algebraic

variable {ctx : Context}

/-! ### Conditions as operands -/

/-- What a `not` builds is a condition. -/
theorem type_of_build_not {operand : Phrase} {e : Expr}
    (h : (Phrase.not operand).build ctx = .ok e) : e.type = .boolean := by
  obtain ⟨a, -, h⟩ := bind_eq_ok_iff.1 h
  obtain ⟨head, es, hbuilt, rfl⟩ := Context.unplaced_apply_eq_ok_iff.1 h
  obtain ⟨-, -, rfl, -⟩ := Built.connective_iff.1 hbuilt
  rfl

/-- Operators that bind at least as tightly as `not` take no conditions. -/
theorem type_ne_boolean_of_apply {op : Operator} (hop : op.isBinary)
    (hpower : (Operator.connective .not).precedence ≤ op.precedence) {a b e : Expr}
    (h : unplaced (ctx.apply op [a, b] default) = .ok e) : b.type ≠ .boolean := by
  obtain ⟨head, es, hbuilt, rfl⟩ := Context.unplaced_apply_eq_ok_iff.1 h
  cases op with
  | comparison c =>
    obtain ⟨t, -, hb, -⟩ := hbuilt.comparable
    simp [Expr.type, hb]
  | arithmetic o =>
    obtain ⟨-, hall, -⟩ := Built.arithmetic_iff.1 hbuilt
    simp [hall b (by simp)]
  | connective c => exact absurd hpower (by cases c <;> revert hop <;> decide)
  | presence kind => cases kind <;> cases hop
  | _ => cases hop

theorem type_ne_boolean_of_neg {a e : Expr}
    (h : unplaced (ctx.apply (.arithmetic .neg) [a] default) = .ok e) : a.type ≠ .boolean := by
  obtain ⟨head, es, hbuilt, rfl⟩ := Context.unplaced_apply_eq_ok_iff.1 h
  obtain ⟨-, hall, -⟩ := Built.arithmetic_iff.1 hbuilt
  simp [hall a (by simp)]

/-! ### Readings -/

/-- A phrase for an expression that was read: it spells what was taken. -/
structure Reading (ctx : Context) (xs : List Lexeme) (e : Expr) (rest : List Lexeme)
    (p : Phrase) : Prop where
  respects : p.RespectsPrecedence
  build : p.build ctx = .ok e
  yield : p.yield ++ rest = xs

/-- A reading of an expression whose operators all have at least the power `least`, and that could
not have been extended. -/
structure WholeReading (ctx : Context) (least : Nat) (xs : List Lexeme) (e : Expr)
    (rest : List Lexeme) (p : Phrase) : Prop extends Reading ctx xs e rest p where
  least_le : p.isBinary → least ≤ p.power
  stops : Stops least rest
  stops_power : Stops (p.power + 1) rest

/-- A reading takes at least one lexeme. -/
theorem Reading.length_lt {xs rest : List Lexeme} {e : Expr} {p : Phrase}
    (h : Reading ctx xs e rest p) : rest.length < xs.length := by
  obtain ⟨x, ys, hp, -⟩ := p.yield_eq_cons
  rw [← h.yield, hp]
  simp only [List.length_append, List.length_cons]
  omega

/-- What is left was there before. -/
theorem Reading.mem {xs rest : List Lexeme} {e : Expr} {p : Phrase}
    (h : Reading ctx xs e rest p) {x : Lexeme} (hx : x ∈ rest) : x ∈ xs :=
  h.yield ▸ List.mem_append_right _ hx

/-- What is read as an expression from `n` lexemes of a source has a phrase. -/
def ReadsPhrases (ctx : Context) (n : Nat) : Prop :=
  ∀ {least : Nat} {xs rest : List Lexeme} {e : Expr}, xs.length = n → (∀ x ∈ xs, IsRegular x) →
    readExpression ctx least xs = .ok (e, rest) → ∃ p, WholeReading ctx least xs e rest p

section Step

variable {n : Nat} (ih : ∀ m < n, ReadsPhrases ctx m)

include ih

/-- The right operand of a binary operator is a phrase of greater power. -/
theorem exists_right {op : Operator} (hop : op.isBinary) {left e : Expr} {xs rest : List Lexeme}
    {right : Expr} (hlength : xs.length < n) (hxs : ∀ x ∈ xs, IsRegular x)
    (hread : readExpression ctx (op.precedence + 1) xs = .ok (right, rest))
    (happly : unplaced (ctx.apply op [left, right] default) = .ok e) :
    ∃ p, WholeReading ctx (op.precedence + 1) xs right rest p ∧ op.precedence < p.power := by
  obtain ⟨p, hp⟩ := ih _ hlength rfl hxs hread
  refine ⟨p, hp, ?_⟩
  have hlt := Operator.precedence_lt_of_isBinary op hop
  cases p with
  | binary => exact hp.least_le rfl
  -- An operator that binds at least as tightly as a negation takes no conditions.
  | not operand =>
    refine Nat.lt_of_not_le fun hle => ?_
    exact type_ne_boolean_of_apply hop hle happly (type_of_build_not hp.build)
  | minus => exact hlt
  | _ => exact Nat.lt_succ_of_lt hlt

/-- What an operand is extended to is a phrase. -/
theorem exists_wholeReading_of_climb {least : Nat} : ∀ {xs : List Lexeme}, xs.length ≤ n →
    (∀ x ∈ xs, IsRegular x) → ∀ {p : Phrase} {e e' : Expr} {rest : List Lexeme},
    p.RespectsPrecedence → p.build ctx = .ok e → (p.isBinary → least ≤ p.power) →
    Stops (p.power + 1) xs → readClimb ctx least e xs = .ok (e', rest) →
    ∃ q, WholeReading ctx least (p.yield ++ xs) e' rest q := by
  intro xs
  induction hm : xs.length using Nat.strongRecOn generalizing xs with
  | ind m climb =>
    intro hlength hxs p e e' rest hp he hleast hpower hread
    -- The climb ends at `p` where the next lexeme is no operator that it may take.
    have hdone (h : Except.ok (e.erase, xs) = (.ok (e', rest) : Except Cause _))
        (hstops : Stops least xs) : ∃ q, WholeReading ctx least (p.yield ++ xs) e' rest q := by
      rw [Phrase.erase_of_build he] at h
      cases h
      exact ⟨p, ⟨⟨hp, he, rfl⟩, hleast, hstops, hpower⟩⟩
    cases xs with
    | nil =>
      rw [readClimb_nil] at hread
      exact hdone hread (by simp [Stops])
    | cons x xs =>
      rw [readClimb_cons] at hread
      cases hx : binary? x.token with
      | none =>
        rw [hx] at hread
        exact hdone hread (by simp [Stops, hx])
      | some op =>
        simp only [hx] at hread
        split_ifs at hread with hlt
        · exact hdone hread (by simpa [Stops, hx] using hlt)
        obtain ⟨hop, rfl⟩ := binary?_eq_some (hxs x (by simp)) hx
        obtain ⟨⟨right, rest₁⟩, hright, hread⟩ := bind_eq_ok_iff.1 hread
        obtain ⟨e₁, happly, hread⟩ := bind_eq_ok_iff.1 hread
        simp only [List.length_cons] at hm
        have hxs' : ∀ x ∈ xs, IsRegular x := fun x hx => hxs x (List.mem_cons_of_mem _ hx)
        obtain ⟨q, hq, hqpower⟩ := exists_right ih hop (by omega) hxs' hright happly
        have hle : op.precedence ≤ p.power := Nat.le_of_lt_succ (hpower _ rfl op hx)
        have hbinary : (Phrase.binary op p q).RespectsPrecedence :=
          .binary hop hp hq.respects hle hqpower
        have hbuild : (Phrase.binary op p q).build ctx = .ok e₁ := by
          simp only [Phrase.build, he, hq.build, ok_bind, happly]
        have hshort := hq.length_lt
        have hrest₁ : ∀ x ∈ rest₁, IsRegular x := fun x hx => hxs' x (hq.mem hx)
        -- The climb goes on with the whole of `p`, the operator and `q` as its left operand.
        obtain ⟨r, hr⟩ := climb rest₁.length (by omega) rfl (by omega) hrest₁ hbinary hbuild
          (fun _ => Nat.le_of_not_lt hlt) hq.stops hread
        rw [Phrase.yield, List.append_assoc, List.cons_append, hq.yield] at hr
        exact ⟨r, hr⟩

/-- Arguments behind an opening parenthesis are phrases with commas between them. -/
theorem exists_items : ∀ {xs : List Lexeme}, xs.length < n → (∀ x ∈ xs, IsRegular x) →
    ∀ {es : List Expr} {rest : List Lexeme}, readItems ctx false xs = .ok (es, rest) →
    ∃ p ps, (∀ q ∈ p :: ps, q.RespectsPrecedence) ∧ Phrase.buildAll ctx (p :: ps) = .ok es ∧
      Lexeme.listed ((p :: ps).map Phrase.yield) ++ .symbol ')' :: rest = xs := by
  intro xs
  induction hm : xs.length using Nat.strongRecOn generalizing xs with
  | ind m items =>
    intro hlength hxs es rest hread
    rw [readItems_eq, if_neg (by simp)] at hread
    obtain ⟨⟨e, ys⟩, hfirst, hread⟩ := bind_eq_ok_iff.1 hread
    obtain ⟨p, hp⟩ := ih xs.length (by omega) rfl hxs hfirst
    have hshort := hp.length_lt
    cases hcomma : readSymbol ',' .commaOrClose ys with
    | error err =>
      simp only [hcomma] at hread
      obtain ⟨rest', hclose, hread⟩ := bind_eq_ok_iff.1 hread
      cases hread
      refine ⟨p, [], by simpa using hp.respects, ?_, ?_⟩
      · simp only [Phrase.buildAll, hp.build, ok_bind]
        rfl
      · simpa [Lexeme.listed, ← readSymbol_eq_ok hclose] using hp.yield
    | ok zs =>
      simp only [hcomma] at hread
      obtain ⟨⟨es', rest'⟩, hitems, hread⟩ := bind_eq_ok_iff.1 hread
      cases hread
      have hys := readSymbol_eq_ok hcomma
      have hzs : ∀ x ∈ zs, IsRegular x :=
        fun x hx => hxs x (hp.mem (hys ▸ List.mem_cons_of_mem _ hx))
      rw [hys, List.length_cons] at hshort
      obtain ⟨q, qs, hqs, hbuild, hyield⟩ :=
        items zs.length (by omega) rfl (by omega) hzs hitems
      refine ⟨p, q :: qs, ?_, ?_, ?_⟩
      · exact List.forall_mem_cons.2 ⟨hp.respects, hqs⟩
      · rw [Phrase.buildAll, hp.build, hbuild]
        rfl
      · rw [List.map_cons, List.map_cons, Lexeme.listed, ← List.map_cons, List.append_assoc,
          List.cons_append, hyield, ← hys, hp.yield]

/-- Arguments in parentheses are phrases with commas between them. -/
theorem exists_arguments {xs : List Lexeme} (hlength : xs.length ≤ n)
    (hxs : ∀ x ∈ xs, IsRegular x) {es : List Expr} {rest : List Lexeme}
    (hread : readArguments ctx false xs = .ok (es, rest)) :
    ∃ ps, (∀ q ∈ ps, Phrase.RespectsPrecedence q) ∧ Phrase.buildAll ctx ps = .ok es ∧
      Lexeme.enclosed (Lexeme.listed (ps.map Phrase.yield)) ++ rest = xs := by
  rw [readArguments_eq] at hread
  obtain ⟨ys, hopen, hargs⟩ := bind_eq_ok_iff.1 hread
  obtain rfl := readSymbol_eq_ok hopen
  cases hclose : readSymbol ')' .closeParen ys with
  | ok zs =>
    simp only [hclose] at hargs
    cases hargs
    obtain rfl := readSymbol_eq_ok hclose
    exact ⟨[], by simp, rfl, rfl⟩
  | error err =>
    simp only [hclose] at hargs
    rw [List.length_cons] at hlength
    have hys : ∀ x ∈ ys, IsRegular x := fun x hx => hxs x (List.mem_cons_of_mem _ hx)
    obtain ⟨p, ps, hps, hbuild, hyield⟩ := exists_items ih (by omega) hys hargs
    refine ⟨p :: ps, hps, hbuild, ?_⟩
    rw [Lexeme.enclosed, List.cons_append, List.append_assoc, List.singleton_append, hyield]

omit ih in
/-- Names behind an opening parenthesis are read as a list of them. -/
theorem exists_names {xs : List Lexeme} {es : List Expr} {rest : List Lexeme}
    (hread : readItems ctx true xs = .ok (es, rest)) :
    ∃ name names, es = (name :: names).map (Expr.symbol · default) ∧
      Lexeme.listed ((name :: names).map fun n => [⟨.identifier, n⟩]) ++ .symbol ')' :: rest =
        xs := by
  induction hm : xs.length using Nat.strongRecOn generalizing xs es with
  | ind m items =>
    rw [readItems_eq, if_pos rfl] at hread
    obtain ⟨⟨e, ys⟩, hfirst, hitems⟩ := bind_eq_ok_iff.1 hread
    obtain ⟨name, rfl, rfl⟩ :
        ∃ name, e = .symbol name default ∧ xs = ⟨.identifier, name⟩ :: ys := by
      rcases xs with _ | ⟨⟨kind, text⟩, xs⟩
      · cases hfirst
      · simp only [readName] at hfirst
        split_ifs at hfirst with hkind
        cases hfirst
        exact ⟨text, rfl, by rw [hkind]⟩
    cases hcomma : readSymbol ',' .commaOrClose ys with
    | error err =>
      simp only [hcomma] at hitems
      obtain ⟨rest', hclose, h⟩ := bind_eq_ok_iff.1 hitems
      cases h
      exact ⟨name, [], rfl, by simp [Lexeme.listed, readSymbol_eq_ok hclose]⟩
    | ok zs =>
      simp only [hcomma] at hitems
      obtain ⟨⟨es', rest'⟩, hrest, h⟩ := bind_eq_ok_iff.1 hitems
      cases h
      have hys := readSymbol_eq_ok hcomma
      rw [hys, List.length_cons, List.length_cons] at hm
      obtain ⟨name', names, rfl, hyield⟩ := items zs.length (by omega) hrest rfl
      refine ⟨name, name' :: names, rfl, ?_⟩
      rw [hys, ← hyield]
      rfl

omit ih in
theorem exists_nameArguments {xs : List Lexeme} {es : List Expr} {rest : List Lexeme}
    (hread : readArguments ctx true xs = .ok (es, rest)) :
    ∃ names : List String, es = names.map (Expr.symbol · default) ∧
      Lexeme.enclosed (Lexeme.listed (names.map fun n => [⟨.identifier, n⟩])) ++ rest = xs := by
  rw [readArguments_eq] at hread
  obtain ⟨ys, hopen, hargs⟩ := bind_eq_ok_iff.1 hread
  obtain rfl := readSymbol_eq_ok hopen
  cases hclose : readSymbol ')' .closeParen ys with
  | ok zs =>
    simp only [hclose] at hargs
    cases hargs
    obtain rfl := readSymbol_eq_ok hclose
    exact ⟨[], rfl, rfl⟩
  | error err =>
    simp only [hclose] at hargs
    obtain ⟨name, names, hes, hyield⟩ := exists_names hargs
    refine ⟨name :: names, hes, ?_⟩
    rw [Lexeme.enclosed, List.cons_append, List.append_assoc, List.singleton_append, hyield]

/-- A built-in function is called with expressions or with names. -/
theorem exists_builtIn {xs : List Lexeme} (hlength : xs.length < n)
    (hxs : ∀ x ∈ xs, IsRegular x) {text : String} {op : Operator}
    (hcall : Operator.ofCall? text = some op) {es : List Expr} {e : Expr} {rest : List Lexeme}
    (hargs : readArguments ctx (takesNames op) xs = .ok (es, rest))
    (happly : unplaced (ctx.apply op es default) = .ok e) :
    ∃ p, Reading ctx (⟨.keyword, text⟩ :: xs) e rest p ∧ p.isBinary = false ∧
      p.power = Operator.atomPrecedence := by
  obtain ⟨hop, rfl⟩ := Operator.isCall_of_form (Operator.form_of_ofCall? hcall)
  rcases hop with hop | ⟨kind, rfl⟩
  · rw [takesNames_of_isCall op hop] at hargs
    obtain ⟨ps, hps, hbuild, hyield⟩ := exists_arguments ih (Nat.le_of_lt hlength) hxs hargs
    refine ⟨.call op ps, ⟨.call hop hps, ?_, ?_⟩, rfl, rfl⟩
    · simp only [Phrase.build, hbuild, ok_bind, happly]
    · rw [Phrase.yield, Phrase.yieldAll_eq_map, List.cons_append, hyield]
  · obtain ⟨names, rfl, hyield⟩ := exists_nameArguments hargs
    refine ⟨.presence kind names, ⟨.presence kind names, happly, ?_⟩, rfl, rfl⟩
    rw [Phrase.yield, List.cons_append, hyield]

/-- A literal, a group, a call or a name is a phrase that binds as tightly as possible. -/
theorem exists_primary {xs : List Lexeme} (hlength : xs.length = n) (hxs : ∀ x ∈ xs, IsRegular x)
    {e : Expr} {rest : List Lexeme} (hread : readPrimary ctx xs = .ok (e, rest)) :
    ∃ p, Reading ctx xs e rest p ∧ p.isBinary = false ∧ p.power = Operator.atomPrecedence := by
  rcases xs with _ | ⟨⟨kind, text⟩, xs⟩
  · simp at hread
  rw [List.length_cons] at hlength
  have hxs' : ∀ x ∈ xs, IsRegular x := fun x hx => hxs x (List.mem_cons_of_mem _ hx)
  rw [readPrimary_cons] at hread
  cases kind with
  | number =>
    obtain ⟨e', he, h⟩ := bind_eq_ok_iff.1 hread
    cases h
    exact ⟨.number text, ⟨.number text, he, rfl⟩, rfl, rfl⟩
  | string =>
    cases hread
    exact ⟨.text text, ⟨.text text, rfl, rfl⟩, rfl, rfl⟩
  | symbol =>
    simp only at hread
    split_ifs at hread with hopen
    rw [hopen]
    obtain ⟨⟨e', ys⟩, hinner, h⟩ := bind_eq_ok_iff.1 hread
    obtain ⟨rest', hclose, h⟩ := bind_eq_ok_iff.1 h
    cases h
    obtain ⟨p, hp⟩ := ih xs.length (by omega) rfl hxs' hinner
    refine ⟨.group p, ⟨.group hp.respects, hp.build, ?_⟩, rfl, rfl⟩
    rw [Phrase.yield, Lexeme.enclosed, List.cons_append, List.append_assoc,
      List.singleton_append, ← readSymbol_eq_ok hclose, hp.yield]
  | keyword =>
    simp only at hread
    cases hcall : Operator.ofCall? text with
    | none => simp [hcall] at hread
    | some op =>
      simp only [hcall] at hread
      obtain ⟨⟨es, ys⟩, hargs, h⟩ := bind_eq_ok_iff.1 hread
      obtain ⟨e', he, h⟩ := bind_eq_ok_iff.1 h
      cases h
      exact exists_builtIn ih (by omega) hxs' hcall hargs he
  | identifier =>
    simp only at hread
    split_ifs at hread with hopen
    · obtain ⟨⟨es, ys⟩, hargs, h⟩ := bind_eq_ok_iff.1 hread
      obtain ⟨e', he, h⟩ := bind_eq_ok_iff.1 h
      cases h
      obtain ⟨ps, hps, hbuild, hyield⟩ := exists_arguments ih (by omega) hxs' hargs
      refine ⟨.invoke text ps, ⟨.invoke text hps, ?_, ?_⟩, rfl, rfl⟩
      · simp only [Phrase.build, hbuild, ok_bind, he]
      · rw [Phrase.yield, Phrase.yieldAll_eq_map, List.cons_append, hyield]
    · obtain ⟨e', he, h⟩ := bind_eq_ok_iff.1 hread
      cases h
      exact ⟨.signal text, ⟨.signal text, he, rfl⟩, rfl, rfl⟩

/-- What stands behind a minus sign that does not belong to a number. -/
theorem exists_minus {xs : List Lexeme} (hlength : xs.length < n) (hxs : ∀ x ∈ xs, IsRegular x)
    (hnumber : ∀ y ∈ xs.head?, y.kind ≠ .number) {a e : Expr} {rest : List Lexeme}
    (hread : readExpression ctx (Operator.arithmetic .neg).operandPrecedence xs = .ok (a, rest))
    (happly : unplaced (ctx.apply (.arithmetic .neg) [a] default) = .ok e) :
    ∃ p, Reading ctx (.symbol '-' :: xs) e rest (.minus p) := by
  obtain ⟨p, hp⟩ := ih xs.length hlength rfl hxs hread
  have hpower : (Operator.arithmetic .neg).operandPrecedence ≤ p.power := by
    cases p with
    | binary => exact hp.least_le rfl
    | not operand =>
      exact absurd (type_of_build_not hp.build) (type_ne_boolean_of_neg happly)
    | _ => simp [Phrase.power, Operator.operandPrecedence, Operator.precedence,
        Operator.atomPrecedence]
  have hne : ∀ digits, p ≠ .number digits := by
    rintro digits rfl
    exact hnumber ⟨.number, digits⟩ (by rw [← hp.yield]; rfl) rfl
  refine ⟨p, .minus hp.respects hpower hne, ?_, ?_⟩
  · simp only [Phrase.build, hp.build, ok_bind, happly]
  · rw [Phrase.yield, List.cons_append, hp.yield]

/-- What stands behind a `not`. -/
theorem exists_not {xs : List Lexeme} (hlength : xs.length < n) (hxs : ∀ x ∈ xs, IsRegular x)
    {a e : Expr} {rest : List Lexeme}
    (hread : readExpression ctx (Operator.connective .not).operandPrecedence xs = .ok (a, rest))
    (happly : unplaced (ctx.apply (.connective .not) [a] default) = .ok e) :
    ∃ p, Reading ctx (⟨.keyword, "not"⟩ :: xs) e rest (.not p) ∧
      Stops (Operator.connective .not).operandPrecedence rest := by
  obtain ⟨p, hp⟩ := ih xs.length hlength rfl hxs hread
  have hpower : (Operator.connective .not).operandPrecedence ≤ p.power ∨
      ∃ inner, p = .not inner := by
    cases p with
    | binary => exact .inl (hp.least_le rfl)
    | not operand => exact .inr ⟨operand, rfl⟩
    | _ => exact .inl (by simp [Phrase.power, Operator.operandPrecedence, Operator.precedence,
        Operator.atomPrecedence])
  refine ⟨p, ⟨.not hp.respects hpower, ?_, ?_⟩, hp.stops⟩
  · simp only [Phrase.build, hp.build, ok_bind, happly]
  · rw [Phrase.yield, List.cons_append, hp.yield]

/-- An operand with the unary operators in front of it is a phrase without a binary operator at the
top, and no operator behind it could have been taken by a unary one. -/
theorem exists_unary {xs : List Lexeme} (hlength : xs.length = n) (hxs : ∀ x ∈ xs, IsRegular x)
    {e : Expr} {rest : List Lexeme} (hread : readUnary ctx xs = .ok (e, rest)) :
    ∃ p, Reading ctx xs e rest p ∧ p.isBinary = false ∧ Stops (p.power + 1) rest := by
  cases xs with
  | nil => simp at hread
  | cons x xs =>
    have hxs' : ∀ x ∈ xs, IsRegular x := fun x hx => hxs x (List.mem_cons_of_mem _ hx)
    have hshort : xs.length < n := by simp [← hlength]
    cases hx : unary? x.token with
    | none =>
      rw [readUnary_primary ctx hx] at hread
      obtain ⟨p, hp, hbinary, hpower⟩ := exists_primary ih hlength hxs hread
      exact ⟨p, hp, hbinary, (stops_neg rest).mono (by rw [hpower]; decide)⟩
    | some op =>
      obtain ⟨rfl | rfl, rfl⟩ := unary?_eq_some (hxs x (by simp)) hx
      -- A minus sign right in front of a number belongs to the literal.
      · by_cases hnumber : ∀ y ∈ xs.head?, y.kind ≠ .number
        · rw [readUnary_operator ctx hx fun _ => hnumber] at hread
          obtain ⟨⟨a, ys⟩, hoperand, h⟩ := bind_eq_ok_iff.1 hread
          obtain ⟨e', happly, h⟩ := bind_eq_ok_iff.1 h
          cases h
          obtain ⟨p, hp⟩ := exists_minus ih hshort hxs' hnumber hoperand happly
          exact ⟨.minus p, hp, rfl, (stops_neg _).mono (Nat.le_succ _)⟩
        · obtain ⟨⟨kind, digits⟩, ys, rfl, rfl⟩ :
              ∃ y ys, xs = y :: ys ∧ y.kind = TokenKind.number := by
            cases xs with
            | nil => simp at hnumber
            | cons y ys => exact ⟨y, ys, rfl, by simpa using hnumber⟩
          rw [readUnary_negative ctx hx rfl] at hread
          obtain ⟨e', he, h⟩ := bind_eq_ok_iff.1 hread
          cases h
          exact ⟨.negative digits, ⟨.negative digits, he, rfl⟩, rfl,
            (stops_neg rest).mono (by simp [Phrase.power, Operator.precedence,
              Operator.atomPrecedence])⟩
      · rw [readUnary_operator ctx hx (by simp)] at hread
        obtain ⟨⟨a, ys⟩, hoperand, h⟩ := bind_eq_ok_iff.1 hread
        obtain ⟨e', happly, h⟩ := bind_eq_ok_iff.1 h
        cases h
        obtain ⟨p, hp, hstops⟩ := exists_not ih hshort hxs' hoperand happly
        exact ⟨.not p, hp, rfl, hstops⟩

theorem readsPhrases_step : ReadsPhrases ctx n := by
  intro least xs rest e hlength hxs hread
  rw [readExpression_eq] at hread
  obtain ⟨⟨a, ys⟩, hunary, hclimb⟩ := bind_eq_ok_iff.1 hread
  obtain ⟨p, hp, hbinary, hstops⟩ := exists_unary ih hlength hxs hunary
  have hshort := hp.length_lt
  have hys : ∀ x ∈ ys, IsRegular x := fun x hx => hxs x (hp.mem hx)
  have hq := exists_wholeReading_of_climb ih (by omega) hys hp.respects hp.build
    (by simp [hbinary]) hstops hclimb
  rwa [hp.yield] at hq

end Step

/-- Every expression that is read from the lexemes of a source has a phrase. -/
theorem exists_wholeReading {least : Nat} {xs rest : List Lexeme} {e : Expr}
    (hxs : ∀ x ∈ xs, IsRegular x) (hread : readExpression ctx least xs = .ok (e, rest)) :
    ∃ p, WholeReading ctx least xs e rest p := by
  have hall (n : Nat) : ReadsPhrases ctx n := by
    induction n using Nat.strongRecOn with
    | ind n ih => exact readsPhrases_step ih
  exact hall xs.length rfl hxs hread

end SignalRules.Algebraic
