import SignalRules.Proofs.Algebraic.Climbing

/-!
# The algebraic grammar is unambiguous

Lexemes spell at most one phrase that respects precedence. A phrase is taken apart into its first
operand and the operators behind it, each with its right operand; the powers of these operators
never rise. Two phrases that spell the same lexemes start with the same operand, and then take the
same operators one by one, because neither can stop where the other goes on.

## Main definitions

* `Phrase.first`, `Phrase.steps`: a phrase as an operand with operators behind it.
* `Ends`: what stands behind a phrase does not belong to it.

## Main results

* `eq_of_yield_eq`: two phrases that respect precedence and spell the same lexemes are equal.
-/

namespace SignalRules

namespace Phrase

/-- The operand that a phrase starts with. -/
def first : Phrase → Phrase
  | binary _ left _ => first left
  | p => p

/-- The binary operators behind the first operand, from the left, with their right operands. -/
def steps : Phrase → List (Operator × Phrase)
  | binary op left right => steps left ++ [(op, right)]
  | _ => []

/-- Operators applied one after the other from the left. -/
def chain (p : Phrase) (ss : List (Operator × Phrase)) : Phrase :=
  ss.foldl (fun left s => binary s.1 left s.2) p

/-- The lexemes of operators with their right operands. -/
def yieldSteps (ss : List (Operator × Phrase)) : List Lexeme :=
  ss.flatMap fun s => s.1.lexeme :: s.2.yield

@[simp] theorem yieldSteps_nil : yieldSteps [] = [] := rfl

@[simp] theorem yieldSteps_cons (s : Operator × Phrase) (ss : List (Operator × Phrase)) :
    yieldSteps (s :: ss) = s.1.lexeme :: (s.2.yield ++ yieldSteps ss) := by
  simp [yieldSteps]

theorem chain_first_steps (p : Phrase) : chain p.first p.steps = p := by
  induction p with
  | binary op left right ihl _ =>
    rw [chain] at ihl ⊢
    rw [first, steps, List.foldl_append, ihl]
    rfl
  | _ => rfl

theorem yield_eq (p : Phrase) : p.yield = p.first.yield ++ yieldSteps p.steps := by
  induction p with
  | binary op left right ihl _ =>
    rw [yield, ihl, first, steps]
    simp [yieldSteps]
  | _ => simp [first, steps]

theorem isBinary_first (p : Phrase) : p.first.isBinary = false := by
  induction p with
  | binary op left right ihl _ => exact ihl
  | _ => rfl

/-- Operators of at least the power `least` that may stand one after the other behind something of
the given power. -/
def Descends (least : Nat) : Nat → List (Operator × Phrase) → Prop
  | _, [] => True
  | power, (op, right) :: ss =>
    op.isBinary ∧ least ≤ op.precedence ∧ op.precedence ≤ power ∧ op.precedence < right.power ∧
      right.RespectsPrecedence ∧ Descends least op.precedence ss

/-- The power of the last operator, or of the operand if there is none. -/
def lastPower (power : Nat) (ss : List (Operator × Phrase)) : Nat :=
  ss.foldl (fun _ s => s.1.precedence) power

theorem lastPower_steps (p : Phrase) : lastPower p.first.power p.steps = p.power := by
  cases p with
  | binary op left right => simp [steps, lastPower, power]
  | _ => rfl

theorem Descends.mono {a b : Nat} (hab : a ≤ b) {power : Nat} {ss : List (Operator × Phrase)}
    (h : Descends b power ss) : Descends a power ss := by
  induction ss generalizing power with
  | nil => trivial
  | cons s ss ih =>
    obtain ⟨hop, hleast, hpower, hright, hrespects, hss⟩ := h
    exact ⟨hop, Nat.le_trans hab hleast, hpower, hright, hrespects, ih hss⟩

theorem Descends.append {least power : Nat} {ss : List (Operator × Phrase)} {op : Operator}
    {right : Phrase} (h : Descends least power ss)
    (hlast : Descends least (lastPower power ss) [(op, right)]) :
    Descends least power (ss ++ [(op, right)]) := by
  induction ss generalizing power with
  | nil => exact hlast
  | cons s ss ih =>
    obtain ⟨hop, hleast, hpower, hright, hrespects, hss⟩ := h
    exact ⟨hop, hleast, hpower, hright, hrespects, ih hss hlast⟩

/-- In a phrase that respects precedence, the operators behind the first operand never rise. -/
theorem RespectsPrecedence.descends {p : Phrase} (hp : p.RespectsPrecedence) {least : Nat}
    (hleast : p.isBinary → least ≤ p.power) :
    p.first.RespectsPrecedence ∧ Descends least p.first.power p.steps := by
  induction p generalizing least with
  | binary op left right ihl _ =>
    cases hp with
    | binary hop hl hr hlpower hrpower =>
      obtain ⟨hfirst, hsteps⟩ := ihl hl fun _ => hlpower
      have hle : least ≤ op.precedence := hleast rfl
      refine ⟨hfirst, (hsteps.mono hle).append ?_⟩
      rw [lastPower_steps]
      exact ⟨hop, hle, hlpower, hrpower, hr, trivial⟩
  | _ => exact ⟨hp, trivial⟩

end Phrase

namespace Algebraic

/-- What stands behind a phrase does not belong to it, if it was read with operators of at least the
power `least`. -/
structure Ends (least : Nat) (p : Phrase) (rest : List Lexeme) : Prop where
  least_le : p.isBinary → least ≤ p.power
  follows : Follows p.power rest
  stops : Stops least rest

/-- Phrases of `n` lexemes can be told from what follows them in one way only. -/
def Determined (n : Nat) : Prop :=
  ∀ {p q : Phrase} {least : Nat} {rest rest' : List Lexeme}, p.yield.length = n →
    p.RespectsPrecedence → q.RespectsPrecedence → Ends least p rest → Ends least q rest' →
    p.yield ++ rest = q.yield ++ rest' → p = q ∧ rest = rest'

theorem lexeme_injective {a b : Operator} (ha : a.isBinary) (hb : b.isBinary)
    (h : a.lexeme = b.lexeme) : a = b := by
  have hbinary := binary?_lexeme a ha
  rw [h, binary?_lexeme b hb] at hbinary
  exact (Option.some.inj hbinary).symm

theorem infixed_injective {a b : Operator} (ha : a.isCall) (hb : b.isCall)
    (h : a.infixed = b.infixed) : a = b := by
  have hcall := Operator.ofCall?_infixed a ha
  rw [h, Operator.ofCall?_infixed b hb] at hcall
  exact (Option.some.inj hcall).symm

theorem infixed_ne_presence {op : Operator} (hop : op.isCall) (kind : Presence) :
    op.infixed ≠ (Operator.presence kind).infixed := by
  intro h
  have hcall := Operator.ofCall?_infixed op hop
  rw [h, Operator.ofCall?_presence kind] at hcall
  cases hcall
  cases kind <;> cases hop

theorem infixed_ne_not : ∀ op : Operator, op.isCall → op.infixed ≠ "not" :=
  Operator.forall_of_all (by decide)

theorem presence_infixed_ne_not (kind : Presence) :
    (Operator.presence kind).infixed ≠ "not" := by
  cases kind <;> decide

theorem presence_infixed_injective {kind kind' : Presence}
    (h : (Operator.presence kind).infixed = (Operator.presence kind').infixed) : kind = kind' := by
  have hcall := Operator.ofCall?_presence kind
  rw [h, Operator.ofCall?_presence kind'] at hcall
  cases hcall
  rfl

/-- Behind an operand may stand what follows the operators behind it. -/
theorem follows_steps {least power : Nat} {ss : List (Operator × Phrase)} {rest : List Lexeme}
    (hss : Phrase.Descends least power ss) (hrest : Follows (Phrase.lastPower power ss) rest) :
    Follows power (Phrase.yieldSteps ss ++ rest) := by
  cases ss with
  | nil => exact hrest
  | cons s ss =>
    obtain ⟨hop, -, hpower, -⟩ := hss
    rw [Phrase.yieldSteps_cons, List.cons_append]
    exact follows_lexeme hop hpower _

/-- Where operators of at least the power `least` end, none of them follows. -/
theorem not_stops_steps {least power : Nat} {s : Operator × Phrase}
    {ss : List (Operator × Phrase)} (hss : Phrase.Descends least power (s :: ss))
    (rest : List Lexeme) : ¬ Stops least (Phrase.yieldSteps (s :: ss) ++ rest) := by
  obtain ⟨hop, hleast, -⟩ := hss
  intro h
  rw [Phrase.yieldSteps_cons, List.cons_append] at h
  exact Nat.not_lt.2 hleast (h _ rfl _ (binary?_lexeme _ hop))

section Step

variable {n : Nat} (ih : ∀ m < n, Determined m)

include ih

/-- The operators behind an operand are determined. -/
theorem steps_determined {least power : Nat} {ss ts : List (Operator × Phrase)}
    {rest rest' : List Lexeme} (hn : (Phrase.yieldSteps ss).length < n)
    (hss : Phrase.Descends least power ss) (hts : Phrase.Descends least power ts)
    (hrest : Stops least rest) (hrest' : Stops least rest')
    (hfollows : Follows (Phrase.lastPower power ss) rest)
    (hfollows' : Follows (Phrase.lastPower power ts) rest')
    (h : Phrase.yieldSteps ss ++ rest = Phrase.yieldSteps ts ++ rest') :
    ss = ts ∧ rest = rest' := by
  -- If one of the two ended first, the other would go on with an operator that may not follow.
  induction ss generalizing ts power with
  | nil =>
    cases ts with
    | nil => exact ⟨rfl, h⟩
    | cons t ts => exact absurd (h ▸ hrest) (not_stops_steps hts rest')
  | cons s ss steps =>
    cases ts with
    | nil => exact absurd (h ▸ hrest') (not_stops_steps hss rest)
    | cons t ts =>
      obtain ⟨op, p⟩ := s
      obtain ⟨op', q⟩ := t
      obtain ⟨hop, -, -, hp, hprespects, hss⟩ := hss
      obtain ⟨hop', -, -, hq, hqrespects, hts⟩ := hts
      simp only [Phrase.yieldSteps_cons, List.cons_append, List.append_assoc,
        List.cons.injEq] at h
      obtain ⟨hlexeme, hsteps⟩ := h
      obtain rfl := lexeme_injective hop hop' hlexeme
      simp only [Phrase.yieldSteps_cons, List.length_cons, List.length_append] at hn
      have hbehind := follows_steps hss hfollows
      have hbehind' := follows_steps hts hfollows'
      obtain ⟨hright, htail⟩ := ih p.yield.length (by omega) rfl hprespects hqrespects
        ⟨fun _ => hp, hbehind.mono (Nat.le_of_lt hp), hbehind.stops⟩
        ⟨fun _ => hq, hbehind'.mono (Nat.le_of_lt hq), hbehind'.stops⟩ hsteps
      obtain ⟨rfl, hrest⟩ := steps (by omega) hss hts hfollows hfollows' htail
      exact ⟨by rw [hright], hrest⟩

/-- A phrase in front of a comma or a closing parenthesis is determined. -/
theorem item_determined {p q : Phrase} {c d : Char} (hc : c = ',' ∨ c = ')')
    (hd : d = ',' ∨ d = ')') {rest rest' : List Lexeme} (hn : p.yield.length < n)
    (hp : p.RespectsPrecedence) (hq : q.RespectsPrecedence)
    (h : p.yield ++ .symbol c :: rest = q.yield ++ .symbol d :: rest') :
    p = q ∧ Lexeme.symbol c :: rest = .symbol d :: rest' :=
  ih _ hn rfl hp hq
    ⟨fun _ => Nat.zero_le _, follows_symbol hc _ _, stops_symbol hc 0 _⟩
    ⟨fun _ => Nat.zero_le _, follows_symbol hd _ _, stops_symbol hd 0 _⟩ h

/-- Arguments are determined. -/
theorem items_determined {p q : Phrase} {ps qs : List Phrase} {rest rest' : List Lexeme}
    (hn : (Lexeme.listed ((p :: ps).map Phrase.yield)).length < n)
    (hps : ∀ r ∈ p :: ps, r.RespectsPrecedence) (hqs : ∀ r ∈ q :: qs, r.RespectsPrecedence)
    (h : Lexeme.listed ((p :: ps).map Phrase.yield) ++ .symbol ')' :: rest =
      Lexeme.listed ((q :: qs).map Phrase.yield) ++ .symbol ')' :: rest') :
    p :: ps = q :: qs ∧ rest = rest' := by
  have hp := hps p (by simp)
  have hq := hqs q (by simp)
  have hne : Lexeme.symbol ',' ≠ .symbol ')' := by decide
  -- The first item is determined together with the mark behind it, which tells whether there is
  -- another item.
  induction ps generalizing p q qs with
  | nil =>
    cases qs with
    | nil =>
      obtain ⟨rfl, htail⟩ := item_determined ih (.inr rfl) (.inr rfl) hn hp hq h
      exact ⟨rfl, (List.cons.inj htail).2⟩
    | cons q' qs =>
      simp only [List.map_cons, List.map_nil, Lexeme.listed, List.append_assoc,
        List.cons_append] at h hn
      obtain ⟨-, htail⟩ := item_determined ih (.inr rfl) (.inl rfl) hn hp hq h
      exact absurd (List.cons.inj htail).1.symm hne
  | cons p' ps items =>
    simp only [List.map_cons, Lexeme.listed, List.length_append, List.length_cons] at hn
    cases qs with
    | nil =>
      simp only [List.map_cons, List.map_nil, Lexeme.listed, List.append_assoc,
        List.cons_append] at h
      obtain ⟨-, htail⟩ := item_determined ih (.inl rfl) (.inr rfl) (by omega) hp hq h
      exact absurd (List.cons.inj htail).1 hne
    | cons q' qs =>
      rw [List.map_cons, List.map_cons, List.map_cons, List.map_cons, Lexeme.listed,
        Lexeme.listed, ← List.map_cons, ← List.map_cons, List.append_assoc, List.append_assoc,
        List.cons_append, List.cons_append] at h
      obtain ⟨rfl, htail⟩ := item_determined ih (.inl rfl) (.inl rfl) (by omega) hp hq h
      have hps' : ∀ r ∈ p' :: ps, r.RespectsPrecedence :=
        fun r hr => hps r (List.mem_cons_of_mem _ hr)
      have hqs' : ∀ r ∈ q' :: qs, r.RespectsPrecedence :=
        fun r hr => hqs r (List.mem_cons_of_mem _ hr)
      obtain ⟨heq, hrest⟩ := items (by rw [List.map_cons]; omega) hps' hqs'
        (List.cons.inj htail).2 (hps' p' (by simp)) (hqs' q' (by simp))
      exact ⟨by rw [heq], hrest⟩

theorem arguments_determined {ps qs : List Phrase} {rest rest' : List Lexeme}
    (hn : (Lexeme.listed (ps.map Phrase.yield)).length < n)
    (hps : ∀ p ∈ ps, p.RespectsPrecedence) (hqs : ∀ q ∈ qs, q.RespectsPrecedence)
    (h : Lexeme.enclosed (Lexeme.listed (ps.map Phrase.yield)) ++ rest =
      Lexeme.enclosed (Lexeme.listed (qs.map Phrase.yield)) ++ rest') :
    ps = qs ∧ rest = rest' := by
  simp only [Lexeme.enclosed, List.cons_append, List.append_assoc, List.nil_append,
    List.cons.injEq, true_and] at h
  have hopening (q : Phrase) (qs : List Phrase) (xs ys : List Lexeme) :
      .symbol ')' :: xs ≠ Lexeme.listed ((q :: qs).map Phrase.yield) ++ ys := by
    obtain ⟨y, zs, hy, hne⟩ := q.yield_eq_cons
    obtain ⟨zs', hlisted⟩ := listed_cons y zs (qs.map Phrase.yield)
    rw [List.map_cons, hy, hlisted]
    exact fun heq => hne (List.cons.inj heq).1.symm
  cases ps with
  | nil =>
    cases qs with
    | nil => exact ⟨rfl, (List.cons.inj h).2⟩
    | cons q qs => exact absurd h (hopening q qs _ _)
  | cons p ps =>
    cases qs with
    | nil => exact absurd h.symm (hopening p ps _ _)
    | cons q qs => exact items_determined ih hn hps hqs h

/-- Names are determined, as they would be if they were phrases. -/
theorem names_determined {names names' : List String} {rest rest' : List Lexeme}
    (hn : (Lexeme.listed (names.map fun n => [⟨.identifier, n⟩])).length < n)
    (h : Lexeme.enclosed (Lexeme.listed (names.map fun n => [⟨.identifier, n⟩])) ++ rest =
      Lexeme.enclosed (Lexeme.listed (names'.map fun n => [⟨.identifier, n⟩])) ++ rest') :
    names = names' ∧ rest = rest' := by
  have hyield (names : List String) :
      (names.map fun n => [(⟨.identifier, n⟩ : Lexeme)]) =
        (names.map Phrase.signal).map Phrase.yield := by
    simp [Phrase.yield]
  have hrespects (names : List String) :
      ∀ p ∈ names.map Phrase.signal, p.RespectsPrecedence := by
    simp only [List.mem_map]
    rintro _ ⟨name, -, rfl⟩
    exact .signal name
  rw [hyield] at hn h
  rw [hyield] at h
  obtain ⟨heq, hrest⟩ := arguments_determined ih hn (hrespects names) (hrespects names') h
  exact ⟨List.map_injective_iff.2 (fun _ _ => Phrase.signal.inj) heq, hrest⟩

/-! Two operands of the same form have the same parts. -/

theorem presence_determined {kind kind' : Presence} {names names' : List String}
    {rest rest' : List Lexeme} (hn : (Phrase.presence kind names).yield.length ≤ n)
    (h : (Phrase.presence kind names).yield ++ rest =
      (Phrase.presence kind' names').yield ++ rest') :
    Phrase.presence kind names = .presence kind' names' ∧ rest = rest' := by
  simp only [Phrase.yield, List.cons_append, List.cons.injEq, Lexeme.mk.injEq, true_and] at h
  simp only [Phrase.yield, Lexeme.enclosed, List.length_cons, List.length_append] at hn
  obtain rfl := presence_infixed_injective h.1
  obtain ⟨rfl, hrest⟩ := names_determined ih (by omega) h.2
  exact ⟨rfl, hrest⟩

theorem call_determined {op op' : Operator} (hop : op.isCall) (hop' : op'.isCall)
    {args args' : List Phrase} (hargs : ∀ p ∈ args, p.RespectsPrecedence)
    (hargs' : ∀ p ∈ args', p.RespectsPrecedence) {rest rest' : List Lexeme}
    (hn : (Phrase.call op args).yield.length ≤ n)
    (h : (Phrase.call op args).yield ++ rest = (Phrase.call op' args').yield ++ rest') :
    Phrase.call op args = .call op' args' ∧ rest = rest' := by
  simp only [Phrase.yield, Phrase.yieldAll_eq_map, List.cons_append, List.cons.injEq,
    Lexeme.mk.injEq, true_and] at h
  simp only [Phrase.yield, Phrase.yieldAll_eq_map, Lexeme.enclosed, List.length_cons,
    List.length_append] at hn
  obtain rfl := infixed_injective hop hop' h.1
  obtain ⟨rfl, hrest⟩ := arguments_determined ih (by omega) hargs hargs' h.2
  exact ⟨rfl, hrest⟩

theorem invoke_determined {name name' : String} {args args' : List Phrase}
    (hargs : ∀ p ∈ args, p.RespectsPrecedence) (hargs' : ∀ p ∈ args', p.RespectsPrecedence)
    {rest rest' : List Lexeme} (hn : (Phrase.invoke name args).yield.length ≤ n)
    (h : (Phrase.invoke name args).yield ++ rest = (Phrase.invoke name' args').yield ++ rest') :
    Phrase.invoke name args = .invoke name' args' ∧ rest = rest' := by
  simp only [Phrase.yield, Phrase.yieldAll_eq_map, List.cons_append, List.cons.injEq,
    Lexeme.mk.injEq, true_and] at h
  simp only [Phrase.yield, Phrase.yieldAll_eq_map, Lexeme.enclosed, List.length_cons,
    List.length_append] at hn
  obtain ⟨rfl, hrest⟩ := arguments_determined ih (by omega) hargs hargs' h.2
  exact ⟨by rw [h.1], hrest⟩

theorem group_determined {inner inner' : Phrase} (hinner : inner.RespectsPrecedence)
    (hinner' : inner'.RespectsPrecedence) {rest rest' : List Lexeme}
    (hn : (Phrase.group inner).yield.length ≤ n)
    (h : (Phrase.group inner).yield ++ rest = (Phrase.group inner').yield ++ rest') :
    Phrase.group inner = .group inner' ∧ rest = rest' := by
  simp only [Phrase.yield, Lexeme.enclosed, List.cons_append, List.append_assoc,
    List.nil_append, List.cons.injEq, true_and, List.length_cons, List.length_append] at h hn
  obtain ⟨rfl, hrest⟩ := item_determined ih (.inr rfl) (.inr rfl) (by omega) hinner hinner' h
  exact ⟨rfl, (List.cons.inj hrest).2⟩

/-- Behind the same unary operator, operands of the same least power are determined. -/
theorem unary_determined {operand operand' : Phrase} {least : Nat}
    (hoperand : operand.RespectsPrecedence) (hoperand' : operand'.RespectsPrecedence)
    {x : Lexeme} {rest rest' : List Lexeme} (hn : (x :: operand.yield).length ≤ n)
    (hends : Ends least operand rest) (hends' : Ends least operand' rest')
    (h : x :: operand.yield ++ rest = x :: operand'.yield ++ rest') :
    operand = operand' ∧ rest = rest' := by
  rw [List.length_cons] at hn
  exact ih _ (by omega) rfl hoperand hoperand' hends hends' (List.cons.inj h).2

omit ih in
/-- A minus sign in front of a number makes a literal and nothing else. -/
theorem negative_ne_minus {operand : Phrase} (hminus : (Phrase.minus operand).RespectsPrecedence)
    (digits : String) (rest rest' : List Lexeme) :
    (Phrase.negative digits).yield ++ rest ≠ (Phrase.minus operand).yield ++ rest' := by
  intro h
  cases hminus with
  | minus hoperand hpower hnumber =>
    obtain ⟨y, ys, hy, -⟩ := operand.yield_eq_cons
    have hbinary := mt hoperand.power_lt_of_isBinary (Nat.not_lt.2 hpower)
    have hkind := Phrase.head_yield_kind_ne hbinary hnumber y (by rw [hy]; rfl)
    simp only [Phrase.yield, hy, List.cons_append, List.cons.injEq, true_and] at h
    exact hkind (h.1 ▸ rfl)

omit ih in
/-- A name in front of an opening parenthesis is a call and nothing else. -/
theorem signal_ne_invoke {name name' : String} {args : List Phrase} {power : Nat}
    {rest : List Lexeme} (hrest : Follows power rest) (rest' : List Lexeme) :
    (Phrase.signal name).yield ++ rest ≠ (Phrase.invoke name' args).yield ++ rest' := by
  intro h
  simp only [Phrase.yield, List.cons_append, List.nil_append, List.cons.injEq] at h
  exact hrest.not_open (by rw [h.2]; rfl)

/-- Operands are determined. -/
theorem operand_determined {p q : Phrase} {rest rest' : List Lexeme} (hn : p.yield.length ≤ n)
    (hp : p.RespectsPrecedence) (hq : q.RespectsPrecedence) (hpbinary : p.isBinary = false)
    (hqbinary : q.isBinary = false) (hrest : Follows p.power rest)
    (hrest' : Follows q.power rest') (h : p.yield ++ rest = q.yield ++ rest') :
    p = q ∧ rest = rest' := by
  -- The first lexeme tells the two apart, up to the pairs that are named in the cases below.
  cases hp with
  | number digits =>
    cases hq with
    | number => simpa [Phrase.yield] using h
    | binary => cases hqbinary
    | _ => simp [Phrase.yield, Lexeme.symbol, Lexeme.enclosed] at h
  | negative digits =>
    cases hq with
    | negative => simpa [Phrase.yield] using h
    | minus hq hpower hnumber => exact absurd h (negative_ne_minus (.minus hq hpower hnumber) _ _ _)
    | binary => cases hqbinary
    | _ => simp [Phrase.yield, Lexeme.symbol, Lexeme.enclosed] at h
  | text content =>
    cases hq with
    | text => simpa [Phrase.yield] using h
    | binary => cases hqbinary
    | _ => simp [Phrase.yield, Lexeme.symbol, Lexeme.enclosed] at h
  | signal name =>
    cases hq with
    | signal => simpa [Phrase.yield] using h
    | invoke => exact absurd h (signal_ne_invoke hrest _)
    | binary => cases hqbinary
    | _ => simp [Phrase.yield, Lexeme.symbol, Lexeme.enclosed] at h
  | presence kind names =>
    cases hq with
    | presence => exact presence_determined ih hn h
    | call hop => simp [Phrase.yield, (infixed_ne_presence hop kind).symm] at h
    | not => simp [Phrase.yield, presence_infixed_ne_not] at h
    | binary => cases hqbinary
    | _ => simp [Phrase.yield, Lexeme.symbol, Lexeme.enclosed] at h
  | @call op args hop hargs =>
    cases hq with
    | call hop' hargs' => exact call_determined ih hop hop' hargs hargs' hn h
    | presence kind => simp [Phrase.yield, infixed_ne_presence hop kind] at h
    | not => simp [Phrase.yield, infixed_ne_not op hop] at h
    | binary => cases hqbinary
    | _ => simp [Phrase.yield, Lexeme.symbol, Lexeme.enclosed] at h
  | invoke name hargs =>
    cases hq with
    | invoke name' hargs' => exact invoke_determined ih hargs hargs' hn h
    | signal => exact absurd h.symm (signal_ne_invoke hrest' _)
    | binary => cases hqbinary
    | _ => simp [Phrase.yield, Lexeme.symbol, Lexeme.enclosed] at h
  | group hinner =>
    cases hq with
    | group hinner' => exact group_determined ih hinner hinner' hn h
    | binary => cases hqbinary
    | _ => simp [Phrase.yield, Lexeme.symbol, Lexeme.enclosed] at h
  | minus hoperand hpower hnumber =>
    cases hq with
    | minus hoperand' hpower' =>
      obtain ⟨rfl, hrest⟩ := unary_determined ih hoperand hoperand' hn
        ⟨fun _ => hpower, hrest.mono hpower, stops_neg _⟩
        ⟨fun _ => hpower', hrest'.mono hpower', stops_neg _⟩ h
      exact ⟨rfl, hrest⟩
    | negative =>
      exact absurd h.symm (negative_ne_minus (.minus hoperand hpower hnumber) _ _ _)
    | binary => cases hqbinary
    | _ => simp [Phrase.yield, Lexeme.symbol, Lexeme.enclosed] at h
  | not hoperand hpower =>
    cases hq with
    | not hoperand' hpower' =>
      obtain ⟨hbinary, hle⟩ := Phrase.power_of_not hpower
      obtain ⟨hbinary', hle'⟩ := Phrase.power_of_not hpower'
      obtain ⟨rfl, hrest⟩ := unary_determined ih hoperand hoperand' hn
        ⟨hbinary, hrest.mono hle, hrest.stops⟩ ⟨hbinary', hrest'.mono hle', hrest'.stops⟩ h
      exact ⟨rfl, hrest⟩
    | presence => simp [Phrase.yield, (presence_infixed_ne_not _).symm] at h
    | call hop => simp [Phrase.yield, (infixed_ne_not _ hop).symm] at h
    | binary => cases hqbinary
    | _ => simp [Phrase.yield, Lexeme.symbol, Lexeme.enclosed] at h
  | binary => cases hpbinary

theorem determined_step : Determined n := by
  intro p q least rest rest' hn hp hq hrest hrest' h
  obtain ⟨hpfirst, hpsteps⟩ := hp.descends hrest.least_le
  obtain ⟨hqfirst, hqsteps⟩ := hq.descends hrest'.least_le
  have hfollows := hrest.follows
  have hfollows' := hrest'.follows
  rw [← Phrase.lastPower_steps] at hfollows hfollows'
  rw [p.yield_eq, q.yield_eq, List.append_assoc, List.append_assoc] at h
  rw [p.yield_eq, List.length_append] at hn
  obtain ⟨x, xs, hx, -⟩ := p.first.yield_eq_cons
  have hpos : 0 < p.first.yield.length := by simp [hx]
  obtain ⟨hfirst, hsteps⟩ := operand_determined ih (by omega) hpfirst hqfirst p.isBinary_first
    q.isBinary_first (follows_steps hpsteps hfollows) (follows_steps hqsteps hfollows') h
  rw [← hfirst] at hqsteps hfollows'
  obtain ⟨hsteps, htail⟩ := steps_determined ih (by omega) hpsteps hqsteps hrest.stops
    hrest'.stops hfollows hfollows' hsteps
  refine ⟨?_, htail⟩
  calc p = Phrase.chain p.first p.steps := p.chain_first_steps.symm
    _ = Phrase.chain q.first q.steps := by rw [hfirst, hsteps]
    _ = q := q.chain_first_steps

end Step

theorem determined (n : Nat) : Determined n := by
  induction n using Nat.strongRecOn with
  | ind n ih => exact determined_step ih

/-- Two phrases that respect precedence and spell the same lexemes are equal. -/
theorem eq_of_yield_eq {p q : Phrase} (hp : p.RespectsPrecedence) (hq : q.RespectsPrecedence)
    (h : p.yield = q.yield) : p = q := by
  have hends (r : Phrase) : Ends 0 r [] :=
    ⟨fun _ => Nat.zero_le _, follows_nil _, by simp [Stops]⟩
  exact (determined _ rfl hp hq (hends p) (hends q) (by rw [h])).1

end Algebraic

end SignalRules
