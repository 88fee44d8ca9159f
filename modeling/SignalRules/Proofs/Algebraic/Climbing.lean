import SignalRules.Proofs.Algebraic.Phrase

/-!
# Precedence climbing reads phrases back

The lexemes of a phrase that respects precedence are read as that phrase: the reader builds what
the phrase builds, or refuses with the cause that building it has, and goes on behind it. What
follows the phrase must not continue it: an operator that binds more tightly than its topmost one
would take its last operand away, and an opening parenthesis would turn a name into a call.

## Main definitions

* `Follows`: what may stand behind a phrase of a given power.

## Main results

* `readExpression_yield`: reading the lexemes of a phrase builds the phrase.
-/

namespace SignalRules

variable {ctx : Context}

namespace Phrase

/-- What a phrase builds has no spans. -/
theorem erase_of_build : ∀ {p : Phrase} {e : Expr}, p.build ctx = .ok e → e.erase = e := by
  intro p
  induction p with
  | number | negative | signal | presence => exact erase_of_unplaced
  | text content =>
    rintro e ⟨⟩
    simp
  | group inner ih => exact ih
  | call op args | invoke name args =>
    intro e h
    obtain ⟨es, -, h⟩ := bind_eq_ok_iff.1 h
    exact erase_of_unplaced h
  | minus operand ih | not operand ih =>
    intro e h
    obtain ⟨a, -, h⟩ := bind_eq_ok_iff.1 h
    exact erase_of_unplaced h
  | binary op left right ihl ihr =>
    intro e h
    obtain ⟨a, -, h⟩ := bind_eq_ok_iff.1 h
    obtain ⟨b, -, h⟩ := bind_eq_ok_iff.1 h
    exact erase_of_unplaced h

/-- A phrase starts with some lexeme, and never with a closing parenthesis. -/
theorem yield_eq_cons (p : Phrase) : ∃ x xs, p.yield = x :: xs ∧ x ≠ .symbol ')' := by
  induction p with
  | binary op left right ihl ihr =>
    obtain ⟨x, xs, h, hx⟩ := ihl
    exact ⟨x, xs ++ op.lexeme :: right.yield, by rw [yield, h, List.cons_append], hx⟩
  | _ => exact ⟨_, _, rfl, by simp [Lexeme.symbol]⟩

/-- Only a number, or an operator behind one, starts with a number. -/
theorem head_yield_kind_ne {p : Phrase} (hbinary : ¬ p.isBinary)
    (hnumber : ∀ digits, p ≠ .number digits) : ∀ x ∈ p.yield.head?, x.kind ≠ .number := by
  cases p with
  | number digits => exact absurd rfl (hnumber digits)
  | binary op left right => exact absurd rfl hbinary
  | _ => simp [yield, Lexeme.enclosed, Lexeme.symbol]

end Phrase

namespace Algebraic

/-- Behind an operand comes no operator of at least the power `least`. -/
def Stops (least : Nat) (rest : List Lexeme) : Prop :=
  ∀ x ∈ rest.head?, ∀ op, binary? x.token = some op → op.precedence < least

theorem Stops.mono {a b : Nat} {rest : List Lexeme} (h : Stops a rest) (hab : a ≤ b) :
    Stops b rest :=
  fun x hx op hop => Nat.lt_of_lt_of_le (h x hx op hop) hab

/-- Every operator binds less tightly than a minus sign. -/
theorem stops_neg (rest : List Lexeme) : Stops (Operator.arithmetic .neg).precedence rest := by
  intro x _ op hop
  unfold binary? at hop
  split_ifs at hop
  exact Operator.precedence_lt_of_isBinary op
    (Operator.isBinary_of_form (Operator.form_of_ofBinary? hop)).1

/-- What may stand behind a phrase of the given power without becoming part of it. -/
structure Follows (power : Nat) (rest : List Lexeme) : Prop where
  /-- The phrase, if it is a name, is not called. -/
  not_open : rest.head? ≠ some (.symbol '(')
  /-- No operator takes an operand away from the phrase. -/
  stops : Stops (power + 1) rest

theorem Follows.mono {a b : Nat} {rest : List Lexeme} (h : Follows a rest) (hab : a ≤ b) :
    Follows b rest :=
  ⟨h.not_open, h.stops.mono (Nat.succ_le_succ hab)⟩

@[simp] theorem follows_nil (power : Nat) : Follows power [] := by
  constructor <;> simp [Stops]

/-- A comma or a closing parenthesis ends every phrase. -/
theorem stops_symbol {c : Char} (hc : c = ',' ∨ c = ')') (least : Nat) (rest : List Lexeme) :
    Stops least (.symbol c :: rest) := by
  have hnone : binary? (Lexeme.symbol c).token = none := by rcases hc with rfl | rfl <;> decide
  simp [Stops, hnone]

theorem follows_symbol {c : Char} (hc : c = ',' ∨ c = ')') (power : Nat) (rest : List Lexeme) :
    Follows power (.symbol c :: rest) := by
  have hne : Lexeme.symbol c ≠ .symbol '(' := by rcases hc with rfl | rfl <;> decide
  exact ⟨by simpa using hne, stops_symbol hc _ rest⟩

theorem follows_lexeme {op : Operator} (hop : op.isBinary) {power : Nat}
    (h : op.precedence ≤ power) (rest : List Lexeme) : Follows power (op.lexeme :: rest) := by
  have hne : ∀ op : Operator, op.isBinary → op.lexeme ≠ .symbol '(' :=
    Operator.forall_of_all (by decide)
  constructor
  · simpa using hne op hop
  · simpa [Stops, binary?_lexeme op hop] using Nat.lt_succ_of_le h

/-- An operand is not extended if the operator behind it binds too loosely. -/
theorem readClimb_of_stops {least : Nat} {e : Expr} (he : e.erase = e) {rest : List Lexeme}
    (h : Stops least rest) : readClimb ctx least e rest = .ok (e, rest) := by
  cases rest with
  | nil => rw [readClimb_nil, he]
  | cons x xs =>
    rw [readClimb_cons]
    cases hop : binary? x.token with
    | none => simp [he]
    | some op => simp [he, h x rfl op hop]

/-- The lexemes of a phrase are read as the phrase, and what follows extends it. -/
def ReadsBack (ctx : Context) (p : Phrase) : Prop :=
  ∀ least rest, (p.isBinary → least ≤ p.power) → Follows p.power rest →
    readExpression ctx least (p.yield ++ rest) =
      p.build ctx >>= fun e => readClimb ctx least e rest

/-- An operand that is read whole is read back. -/
theorem readsBack_of_readUnary {p : Phrase}
    (h : ∀ rest, Follows p.power rest →
      readUnary ctx (p.yield ++ rest) = p.build ctx >>= fun e => .ok (e, rest)) :
    ReadsBack ctx p := by
  intro least rest _ hrest
  rw [readExpression_eq, h rest hrest, bind_assoc]
  rfl

/-- In front of something that ends it, a phrase is read whole. -/
theorem ReadsBack.readExpression_eq {p : Phrase} (h : ReadsBack ctx p) {least : Nat}
    (hleast : p.isBinary → least ≤ p.power) {rest : List Lexeme} (hrest : Follows p.power rest)
    (hstops : Stops least rest) :
    readExpression ctx least (p.yield ++ rest) = p.build ctx >>= fun e => .ok (e, rest) := by
  rw [h least rest hleast hrest]
  cases he : p.build ctx with
  | error err => rfl
  | ok e => exact readClimb_of_stops (Phrase.erase_of_build he) hstops

theorem ReadsBack.readExpression_symbol {p : Phrase} (h : ReadsBack ctx p) {c : Char}
    (hc : c = ',' ∨ c = ')') (rest : List Lexeme) :
    readExpression ctx 0 (p.yield ++ .symbol c :: rest) =
      p.build ctx >>= fun e => .ok (e, .symbol c :: rest) :=
  h.readExpression_eq (fun _ => Nat.zero_le _) (follows_symbol hc _ rest) (stops_symbol hc 0 rest)

/-! ### Arguments -/

/-- A closing parenthesis ends a list of arguments. -/
theorem readSymbol_comma_close (x : Expectation) (rest : List Lexeme) :
    readSymbol ',' x (.symbol ')' :: rest) = .error (.unexpectedToken x .symbol ")") := rfl

theorem readItems_listed {p : Phrase} {ps : List Phrase} (h : ∀ q ∈ p :: ps, ReadsBack ctx q)
    (rest : List Lexeme) :
    readItems ctx false (Lexeme.listed ((p :: ps).map Phrase.yield) ++ .symbol ')' :: rest) =
      Phrase.buildAll ctx (p :: ps) >>= fun es => .ok (es, rest) := by
  induction ps generalizing p with
  | nil =>
    have hread := (h p (by simp)).readExpression_symbol (.inr rfl) rest
    simp only [List.map_cons, List.map_nil, Lexeme.listed, Phrase.buildAll]
    rw [readItems_eq, if_neg (by simp), hread, bind_assoc, bind_assoc]
    simp [readSymbol_comma_close, pure, Except.pure]
  | cons q qs ih =>
    have hread := (h p (by simp)).readExpression_symbol (.inl rfl)
      (Lexeme.listed ((q :: qs).map Phrase.yield) ++ .symbol ')' :: rest)
    have hrest := ih fun r hr => h r (List.mem_cons_of_mem p hr)
    rw [List.map_cons, List.map_cons, Lexeme.listed, ← List.map_cons, List.append_assoc,
      List.cons_append, readItems_eq, if_neg (by simp), hread, bind_assoc,
      Phrase.buildAll, bind_assoc]
    simp only [ok_bind, readSymbol_symbol, hrest, bind_assoc, pure, Except.pure]

theorem readItems_names (ctx : Context) (name : String) (names : List String) (rest : List Lexeme) :
    readItems ctx true (Lexeme.listed ((name :: names).map fun n => [⟨.identifier, n⟩]) ++
        .symbol ')' :: rest) =
      .ok ((name :: names).map fun n => .symbol n default, rest) := by
  induction names generalizing name with
  | nil =>
    rw [readItems_eq]
    simp [Lexeme.listed, readName, readSymbol_comma_close]
  | cons next names ih =>
    have hrest := ih next
    rw [List.map_cons] at hrest
    rw [readItems_eq]
    simp [Lexeme.listed, readName, hrest]

@[simp] theorem readArguments_nil (names : Bool) (rest : List Lexeme) :
    readArguments ctx names (Lexeme.enclosed [] ++ rest) = .ok ([], rest) := by
  simp [readArguments_eq, Lexeme.enclosed]

/-- Arguments that do not start with a closing parenthesis are read one by one. -/
theorem readArguments_cons (names : Bool) {x : Lexeme} (hx : x ≠ .symbol ')')
    (xs rest : List Lexeme) :
    readArguments ctx names (Lexeme.enclosed (x :: xs) ++ rest) =
      readItems ctx names (x :: xs ++ .symbol ')' :: rest) := by
  simp [readArguments_eq, Lexeme.enclosed, readSymbol, hx]

/-- A list starts as its first member does. -/
theorem listed_cons (x : Lexeme) (xs : List Lexeme) (yss : List (List Lexeme)) :
    ∃ ys, Lexeme.listed ((x :: xs) :: yss) = x :: ys := by
  cases yss <;> exact ⟨_, rfl⟩

/-- Arguments in parentheses are read as the list of them. -/
theorem readArguments_enclosed {ps : List Phrase} (h : ∀ q ∈ ps, ReadsBack ctx q)
    (rest : List Lexeme) :
    readArguments ctx false (Lexeme.enclosed (Lexeme.listed (ps.map Phrase.yield)) ++ rest) =
      Phrase.buildAll ctx ps >>= fun es => .ok (es, rest) := by
  cases ps with
  | nil => exact readArguments_nil false rest
  | cons p ps =>
    have hitems := readItems_listed h rest
    obtain ⟨x, xs, hp, hx⟩ := p.yield_eq_cons
    obtain ⟨ys, hys⟩ := listed_cons x xs (ps.map Phrase.yield)
    rw [List.map_cons, hp, hys] at hitems ⊢
    rw [readArguments_cons false hx, hitems]

theorem readArguments_names (names : List String) (rest : List Lexeme) :
    readArguments ctx true
        (Lexeme.enclosed (Lexeme.listed (names.map fun n => [⟨.identifier, n⟩])) ++ rest) =
      .ok (names.map fun n => .symbol n default, rest) := by
  cases names with
  | nil => exact readArguments_nil true rest
  | cons name names =>
    have hitems := readItems_names ctx name names rest
    obtain ⟨ys, hys⟩ :=
      listed_cons ⟨.identifier, name⟩ [] (names.map fun n => [⟨.identifier, n⟩])
    rw [List.map_cons, hys] at hitems ⊢
    rw [readArguments_cons true (by simp [Lexeme.symbol]), hitems]

/-! ### Operands -/

theorem unary?_eq_none_of_kind {x : Lexeme} (hsymbol : x.kind ≠ .symbol)
    (hkeyword : x.kind ≠ .keyword) : unary? x.token = none := by
  simp [unary?, isOperatorToken, Lexeme.token, hsymbol, hkeyword]

theorem readsBack_number (digits : String) : ReadsBack ctx (.number digits) := by
  refine readsBack_of_readUnary fun rest _ => ?_
  rw [Phrase.yield, List.singleton_append,
    readUnary_primary ctx (unary?_eq_none_of_kind (by simp) (by simp)), readPrimary_cons]
  rfl

theorem readsBack_negative (digits : String) : ReadsBack ctx (.negative digits) := by
  refine readsBack_of_readUnary fun rest _ => ?_
  exact readUnary_negative ctx (by decide) rfl rest

theorem readsBack_text (content : String) : ReadsBack ctx (.text content) := by
  refine readsBack_of_readUnary fun rest _ => ?_
  rw [Phrase.yield, List.singleton_append,
    readUnary_primary ctx (unary?_eq_none_of_kind (by simp) (by simp)), readPrimary_cons]
  rfl

theorem readsBack_signal (name : String) : ReadsBack ctx (.signal name) := by
  refine readsBack_of_readUnary fun rest hrest => ?_
  rw [Phrase.yield, List.singleton_append,
    readUnary_primary ctx (unary?_eq_none_of_kind (by simp) (by simp)), readPrimary_cons]
  simp only [if_neg hrest.not_open]
  rfl

theorem readsBack_presence (kind : Presence) (names : List String) :
    ReadsBack ctx (.presence kind names) := by
  refine readsBack_of_readUnary fun rest _ => ?_
  have hunary : unary? (Lexeme.token ⟨.keyword, (Operator.presence kind).infixed⟩) = none := by
    cases kind <;> decide
  rw [Phrase.yield, List.cons_append, readUnary_primary ctx hunary, readPrimary_cons]
  simp only [Operator.ofCall?_presence, takesNames, readArguments_names]
  rfl

theorem takesNames_of_isCall : ∀ op : Operator, op.isCall → takesNames op = false :=
  Operator.forall_of_all (by decide)

theorem readsBack_call {op : Operator} (hop : op.isCall) {args : List Phrase}
    (h : ∀ q ∈ args, ReadsBack ctx q) : ReadsBack ctx (.call op args) := by
  refine readsBack_of_readUnary fun rest _ => ?_
  rw [Phrase.yield, Phrase.yieldAll_eq_map, List.cons_append,
    readUnary_primary ctx (unary?_eq_none_of_isCall op hop), readPrimary_cons]
  simp only [Operator.ofCall?_infixed op hop, takesNames_of_isCall op hop,
    readArguments_enclosed h, Phrase.build, bind_assoc, ok_bind]

theorem readsBack_invoke (name : String) {args : List Phrase}
    (h : ∀ q ∈ args, ReadsBack ctx q) : ReadsBack ctx (.invoke name args) := by
  refine readsBack_of_readUnary fun rest _ => ?_
  have hopen (xs : List Lexeme) :
      (Lexeme.enclosed xs ++ rest).head? = some (.symbol '(') := rfl
  rw [Phrase.yield, Phrase.yieldAll_eq_map, List.cons_append,
    readUnary_primary ctx (unary?_eq_none_of_kind (by simp) (by simp)), readPrimary_cons]
  simp only [hopen, if_true, readArguments_enclosed h, Phrase.build, bind_assoc, ok_bind]

theorem readPrimary_open (xs : List Lexeme) :
    readPrimary ctx (.symbol '(' :: xs) =
      readExpression ctx 0 xs >>= fun r =>
        readSymbol ')' .closeParen r.2 >>= fun rest => .ok (r.1, rest) :=
  (readPrimary_cons ctx _ xs).trans (if_pos rfl)

theorem readsBack_group {inner : Phrase} (h : ReadsBack ctx inner) :
    ReadsBack ctx (.group inner) := by
  refine readsBack_of_readUnary fun rest _ => ?_
  have hunary : unary? (Lexeme.symbol '(').token = none := by decide
  rw [Phrase.yield, Lexeme.enclosed, List.cons_append, List.append_assoc, List.singleton_append,
    readUnary_primary ctx hunary, readPrimary_open, h.readExpression_symbol (.inr rfl),
    bind_assoc]
  rfl

/-- A unary operator in front of an operand that is read whole. -/
theorem readUnary_operator_yield {x : Lexeme} {op : Operator} (hx : unary? x.token = some op)
    {operand : Phrase} (h : ReadsBack ctx operand)
    (hneg : op = .arithmetic .neg → ∀ y ∈ operand.yield.head?, y.kind ≠ .number)
    (hleast : operand.isBinary → op.operandPrecedence ≤ operand.power) {rest : List Lexeme}
    (hrest : Follows operand.power rest) (hstops : Stops op.operandPrecedence rest) :
    readUnary ctx (x :: (operand.yield ++ rest)) =
      (operand.build ctx >>= fun e => unplaced (ctx.apply op [e] default)) >>=
        fun e => .ok (e, rest) := by
  obtain ⟨y, ys, hy, -⟩ := operand.yield_eq_cons
  have hhead : op = .arithmetic .neg → ∀ y ∈ (operand.yield ++ rest).head?, y.kind ≠ .number := by
    rwa [hy] at hneg ⊢
  rw [readUnary_operator ctx hx hhead, h.readExpression_eq hleast hrest hstops,
    bind_assoc, bind_assoc]
  rfl

theorem readsBack_minus {operand : Phrase} (h : ReadsBack ctx operand)
    (hpower : (Operator.arithmetic .neg).operandPrecedence ≤ operand.power)
    (hbinary : ¬ operand.isBinary) (hnumber : ∀ digits, operand ≠ .number digits) :
    ReadsBack ctx (.minus operand) := by
  refine readsBack_of_readUnary fun rest hrest => ?_
  exact readUnary_operator_yield (by decide) h
    (fun _ => Phrase.head_yield_kind_ne hbinary hnumber) (fun _ => hpower) (hrest.mono hpower)
    (stops_neg rest)

theorem readsBack_not {operand : Phrase} (h : ReadsBack ctx operand)
    (hbinary : operand.isBinary → (Operator.connective .not).operandPrecedence ≤ operand.power)
    (hpower : (Operator.connective .not).precedence ≤ operand.power) :
    ReadsBack ctx (.not operand) := by
  refine readsBack_of_readUnary fun rest hrest => ?_
  exact readUnary_operator_yield (by decide) h (by simp) hbinary (hrest.mono hpower) hrest.stops

/-- Between two operands, an operator takes the left one as it is and the right one up to the next
operator that binds as loosely. -/
theorem readsBack_binary {op : Operator} (hop : op.isBinary) {left right : Phrase}
    (hleft : ReadsBack ctx left) (hright : ReadsBack ctx right)
    (hl : op.precedence ≤ left.power) (hr : op.precedence < right.power) :
    ReadsBack ctx (.binary op left right) := by
  intro least rest hleast hrest
  have hle : least ≤ op.precedence := hleast rfl
  have hreadLeft := hleft least (op.lexeme :: (right.yield ++ rest)) (fun _ => Nat.le_trans hle hl)
    (follows_lexeme hop hl _)
  have hreadRight := hright.readExpression_eq (fun _ => hr) (hrest.mono (Nat.le_of_lt hr))
    hrest.stops
  rw [Phrase.yield, List.append_assoc, List.cons_append, hreadLeft, Phrase.build,
    bind_assoc]
  congr 1
  funext a
  rw [readClimb_cons, binary?_lexeme op hop]
  simp only [if_neg (Nat.not_lt.2 hle), hreadRight, bind_assoc, ok_bind]

/-- The lexemes of a phrase that respects precedence are read as the phrase. -/
theorem readExpression_yield {p : Phrase} (hp : p.RespectsPrecedence) : ReadsBack ctx p := by
  induction hp with
  | number digits => exact readsBack_number digits
  | negative digits => exact readsBack_negative digits
  | text content => exact readsBack_text content
  | signal name => exact readsBack_signal name
  | presence kind names => exact readsBack_presence kind names
  | call hop _ ih => exact readsBack_call hop ih
  | invoke name _ ih => exact readsBack_invoke name ih
  | group _ ih => exact readsBack_group ih
  | minus hoperand hpower hnumber ih =>
    have hbinary := mt hoperand.power_lt_of_isBinary (Nat.not_lt.2 hpower)
    exact readsBack_minus ih hpower hbinary hnumber
  | not _ hpower ih =>
    obtain ⟨hbinary, hpower⟩ := Phrase.power_of_not hpower
    exact readsBack_not ih hbinary hpower
  | binary hop _ _ hl hr ihl ihr => exact readsBack_binary hop ihl ihr hl hr

end Algebraic

end SignalRules
