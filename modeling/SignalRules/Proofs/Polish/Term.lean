import SignalRules.Proofs.Built
import SignalRules.Proofs.Polish.Reading

/-!
# Syntax trees of the Polish grammar

A term is a syntax tree of the Polish grammar before names are resolved and types are checked: a
literal, a bare name, or an operator with operands in parentheses. Every sequence of lexemes is
read as the term that it spells, if it spells one, and the reader takes nothing else.

## Main definitions

* `Term`, `Term.yield`, `Term.build`.

## Main results

* `Polish.readExpression_yield`: reading the lexemes of a term builds the term.
* `Polish.exists_term`: what is read is what a term builds.
-/

namespace SignalRules

/-- A syntax tree of the Polish grammar. -/
inductive Term where
  /-- A number literal. -/
  | number (digits : String)
  /-- A text literal. -/
  | text (content : String)
  /-- A bare name. -/
  | name (name : String)
  /-- An operator with operands. -/
  | form (op : Operator) (args : List Term)

/-- Induction over terms, with one hypothesis for each operand. -/
@[induction_eliminator]
theorem Term.induction {P : Term → Prop} (number : ∀ digits, P (.number digits))
    (text : ∀ content, P (.text content)) (name : ∀ n, P (.name n))
    (form : ∀ op args, (∀ t ∈ args, P t) → P (.form op args)) : ∀ t, P t
  | .number digits => number digits
  | .text content => text content
  | .name n => name n
  | .form op args => form op args fun t _ => induction number text name form t

namespace Term

mutual

/-- The lexemes that spell a term. -/
def yield : Term → List Lexeme
  | number digits => [⟨.number, digits⟩]
  | text content => [⟨.string, content⟩]
  | name n => [⟨.identifier, n⟩]
  | form op args => .symbol '(' :: ⟨.keyword, op.keyword⟩ :: (yieldAll args ++ [.symbol ')'])

/-- The lexemes of several terms, one after the other. -/
def yieldAll : List Term → List Lexeme
  | [] => []
  | t :: ts => yield t ++ yieldAll ts

end

mutual

/-- The expression that a term stands for, built from its leaves upwards. -/
def build (ctx : Context) : Term → Except Cause Expr
  | number digits => unplaced (Context.number digits default)
  | text content => .ok (.constant (.string content) default)
  | name n => .ok (.symbol n default)
  | form op args => do
    let operands ← buildAll ctx args
    unplaced (ctx.apply op operands default)

/-- The expressions that several terms stand for, built from the left. -/
def buildAll (ctx : Context) : List Term → Except Cause (List Expr)
  | [] => .ok []
  | t :: ts => do
    let e ← build ctx t
    let es ← buildAll ctx ts
    return e :: es

end

/-- What a term builds has no spans. -/
theorem erase_of_build {ctx : Context} {t : Term} {e : Expr} (h : t.build ctx = .ok e) :
    e.erase = e := by
  cases t with
  | number digits => exact erase_of_unplaced h
  | text content | name n =>
    cases h
    simp
  | form op args =>
    obtain ⟨es, -, h⟩ := bind_eq_ok_iff.1 h
    exact erase_of_unplaced h

/-- A term starts with some lexeme, and never with a closing parenthesis. -/
theorem yield_eq_cons (t : Term) : ∃ x xs, t.yield = x :: xs ∧ x ≠ .symbol ')' := by
  cases t <;> exact ⟨_, _, rfl, by simp [Lexeme.symbol]⟩

end Term

namespace Polish

variable {ctx : Context}

theorem ofKeyword?_keyword : ∀ op : Operator, Operator.ofKeyword? op.keyword = some op := by
  have h : ∀ op ∈ Operator.all, Operator.ofKeyword? op.keyword = some op := by decide
  exact fun op => h op (Operator.mem_all op)

theorem keyword_of_ofKeyword? {s : String} {op : Operator} (h : Operator.ofKeyword? s = some op) :
    op.keyword = s := by
  simpa using List.find?_some h

theorem readExpression_open (xs : List Lexeme) :
    readExpression ctx (.symbol '(' :: xs) = readForm ctx xs :=
  (readExpression_cons ctx _ xs).trans (if_pos rfl)

/-- Operands that are read back one by one are read back together. -/
theorem readOperands_yieldAll {ts : List Term}
    (h : ∀ t ∈ ts, ∀ rest, readExpression ctx (t.yield ++ rest) =
      t.build ctx >>= fun e => .ok (e, rest)) (rest : List Lexeme) :
    readOperands ctx (Term.yieldAll ts ++ .symbol ')' :: rest) =
      Term.buildAll ctx ts >>= fun es => .ok (es, rest) := by
  induction ts with
  | nil => simp [Term.yieldAll, Term.buildAll, readOperands_cons]
  | cons t ts ih =>
    obtain ⟨x, xs, hx, hne⟩ := t.yield_eq_cons
    have hfirst := h t (by simp) (Term.yieldAll ts ++ .symbol ')' :: rest)
    have hrest := ih fun t ht => h t (List.mem_cons_of_mem _ ht)
    rw [hx, List.cons_append] at hfirst
    rw [Term.yieldAll, hx, List.append_assoc, List.cons_append, readOperands_cons, if_neg hne,
      hfirst, Term.buildAll]
    simp only [bind_assoc, ok_bind, hrest, pure, Except.pure]

/-- The lexemes of a term are read as the term. -/
theorem readExpression_yield (ctx : Context) (t : Term) (rest : List Lexeme) :
    readExpression ctx (t.yield ++ rest) = t.build ctx >>= fun e => .ok (e, rest) := by
  induction t generalizing rest with
  | number digits =>
    rw [Term.yield, List.singleton_append, readExpression_cons]
    rfl
  | text content =>
    rw [Term.yield, List.singleton_append, readExpression_cons]
    rfl
  | name n =>
    rw [Term.yield, List.singleton_append, readExpression_cons]
    rfl
  | form op args ih =>
    rw [Term.yield, List.cons_append, List.cons_append, List.append_assoc, List.singleton_append,
      readExpression_open, readForm_cons, if_pos rfl]
    simp only [ofKeyword?_keyword, readOperands_yieldAll ih, Term.build, bind_assoc,
      ok_bind]

/-- What is read as operands is a list of terms, if the readings of shorter texts are terms. -/
theorem exists_terms {n : Nat}
    (ih : ∀ m < n, ∀ {xs : List Lexeme} {e : Expr} {rest : List Lexeme}, xs.length = m →
      readExpression ctx xs = .ok (e, rest) →
      ∃ t : Term, t.yield ++ rest = xs ∧ t.build ctx = .ok e)
    {xs : List Lexeme} (hlength : xs.length < n) {es : List Expr} {rest : List Lexeme}
    (h : readOperands ctx xs = .ok (es, rest)) :
    ∃ ts : List Term, Term.yieldAll ts ++ .symbol ')' :: rest = xs ∧
      Term.buildAll ctx ts = .ok es := by
  induction hm : xs.length using Nat.strongRecOn generalizing xs es with
  | ind m operands =>
    cases xs with
    | nil => simp at h
    | cons x xs =>
      rw [readOperands_cons] at h
      split_ifs at h with hx
      · cases h
        exact ⟨[], by rw [hx]; rfl, rfl⟩
      · obtain ⟨⟨e, ys⟩, hfirst, h⟩ := bind_eq_ok_iff.1 h
        obtain ⟨⟨es', rest'⟩, hrest, h⟩ := bind_eq_ok_iff.1 h
        cases h
        obtain ⟨t, hyield, hbuild⟩ := ih _ hlength rfl hfirst
        obtain ⟨y, zs, ht, -⟩ := t.yield_eq_cons
        have hshort : ys.length < (x :: xs).length := by
          rw [← hyield, ht, List.length_append, List.length_cons]
          omega
        obtain ⟨ts, hyields, hbuilds⟩ :=
          operands ys.length (by omega) (Nat.lt_trans hshort hlength) hrest rfl
        refine ⟨t :: ts, ?_, ?_⟩
        · rw [Term.yieldAll, List.append_assoc, hyields, hyield]
        · rw [Term.buildAll, hbuild, hbuilds]
          rfl

/-- What is read from the front of lexemes is what a term builds. -/
theorem exists_term {xs : List Lexeme} {e : Expr} {rest : List Lexeme}
    (h : readExpression ctx xs = .ok (e, rest)) :
    ∃ t : Term, t.yield ++ rest = xs ∧ t.build ctx = .ok e := by
  induction hn : xs.length using Nat.strongRecOn generalizing xs e rest with
  | ind n ih =>
    rcases xs with _ | ⟨⟨kind, text⟩, xs⟩
    · simp at h
    rw [readExpression_cons] at h
    cases kind with
    | number =>
      obtain ⟨e', he, h⟩ := bind_eq_ok_iff.1 h
      cases h
      exact ⟨.number text, rfl, he⟩
    | string =>
      cases h
      exact ⟨.text text, rfl, rfl⟩
    | identifier =>
      cases h
      exact ⟨.name text, rfl, rfl⟩
    | keyword => cases h
    | symbol =>
      simp only at h
      split_ifs at h with hopen
      rcases xs with _ | ⟨⟨kind, text'⟩, xs⟩
      · simp at h
      rw [readForm_cons] at h
      split_ifs at h with hkind
      obtain rfl : kind = .keyword := hkind
      cases hop : Operator.ofKeyword? text' with
      | none => simp [hop] at h
      | some op =>
        simp only [hop] at h
        obtain ⟨⟨es, ys⟩, hoperands, h⟩ := bind_eq_ok_iff.1 h
        obtain ⟨e', happly, h⟩ := bind_eq_ok_iff.1 h
        cases h
        have hshort : xs.length < n := by
          simp only [← hn, List.length_cons]
          omega
        obtain ⟨ts, hyield, hbuild⟩ :=
          exists_terms (fun m hm _ _ _ hlength h => ih m hm h hlength) hshort hoperands
        refine ⟨.form op ts, ?_, ?_⟩
        · rw [Term.yield, List.cons_append, List.cons_append, List.append_assoc,
            List.singleton_append, hyield, keyword_of_ofKeyword? hop, hopen]
        · rw [Term.build, hbuild]
          exact happly

/-- Lexemes are read as one expression if they spell a term that builds it. -/
theorem readExpression_eq_ok_iff {xs : List Lexeme} {e : Expr} :
    readExpression ctx xs = .ok (e, []) ↔ ∃ t : Term, t.yield = xs ∧ t.build ctx = .ok e := by
  constructor
  · intro h
    obtain ⟨t, hyield, hbuild⟩ := exists_term h
    exact ⟨t, by simpa using hyield, hbuild⟩
  · rintro ⟨t, rfl, hbuild⟩
    simpa [hbuild] using readExpression_yield ctx t []

end Polish

end SignalRules
