import Mathlib.Data.List.Forall2
import SignalRules.Proofs.Algebraic.Exactness
import SignalRules.Proofs.Polish.Canonical
import SignalRules.Proofs.TypeSoundness

/-!
# How a chain of operands is grouped does not matter

Sums, conjunctions and disjunctions merge nested uses of themselves when they are built. Splicing
goes one level deep, which is enough because what was built before is already merged: an operand
of a built node is never a node with the same operator. So any nesting of one of these operators
over a sequence of operands builds one node with exactly these operands, in their order.

A source writes a nesting if its syntax tree applies the operator as the nesting does, through
operators between operands and parentheses in the algebraic grammar, or through forms with two
operands or more in the Polish one. Two sources that write nestings of the same operands are read
as the same expression, up to spans, whatever their grammars.

## Main definitions

* `Merging`: the operators that merge.
* `Nesting`, `Nesting.leaves`, `Nesting.build`.
* `Phrase.Nests`, `Term.Nests`, `Context.Writes`: a source writes a nesting.

## Main results

* `Nesting.build_application`: a nesting builds one node.
* `Nesting.regroup`: neither the node nor the reading of a source depends on the grouping.
-/

namespace SignalRules

/-- The operators that merge nested uses of themselves. -/
inductive Merging where
  | add
  | and
  | or
deriving DecidableEq, Inhabited

namespace Merging

/-- As an operator. -/
def operator : Merging → Operator
  | add => .arithmetic .add
  | and => .connective .and
  | or => .connective .or

/-- The head of its nodes. -/
def head : Merging → Head
  | add => .arithmetic .add
  | and => .connective .and
  | or => .connective .or

/-- The type that its operands and its nodes have. -/
def type : Merging → ExprType
  | add => .value .number
  | and | or => .boolean

/-- Whether a head is that of its nodes. -/
def isHead : Merging → Head → Bool
  | add => Head.isArithmetic .add
  | and => Head.isConnective .and
  | or => Head.isConnective .or

variable {op : Merging}

theorem isHead_iff {x : Head} : op.isHead x ↔ x = op.head := by
  cases op with
  | add => exact Head.isArithmetic_iff
  | and | or => exact Head.isConnective_iff

/-- An operand that is not itself a node of the operator. -/
structure IsLeaf (op : Merging) (e : Expr) : Prop where
  /-- It has the type that the operator asks for. -/
  type : e.type = op.type
  /-- It is no node of the operator. -/
  head_ne : e.head ≠ op.head

/-- An operand that contributes the given leaves to a node of the operator. -/
structure Contributes (op : Merging) (e : Expr) (leaves : List Expr) : Prop where
  /-- It has the type that the operator asks for. -/
  type : e.type = op.type
  /-- It is spliced into its leaves, or it is the only one. -/
  splice : (if op.isHead e.head then e.operands else [e]) = leaves

theorem IsLeaf.contributes {e : Expr} (h : op.IsLeaf e) : op.Contributes e [e] :=
  ⟨h.type, if_neg fun hhead => h.head_ne (isHead_iff.1 hhead)⟩

theorem contributes_node (op : Merging) (span : Span) (es : List Expr) :
    op.Contributes (.node span op.head es) es := by
  refine ⟨?_, if_pos (isHead_iff.2 rfl)⟩
  cases op <;> rfl

/-- Two operands or more of the right type are spliced into one node. -/
theorem apply_operator (ctx : Context) (op : Merging) {es : List Expr} (hcount : 2 ≤ es.length)
    (htype : ∀ e ∈ es, e.type = op.type) (span : Span) :
    ctx.apply op.operator es span = .ok (.node span op.head (flatten op.isHead es)) := by
  rw [Context.apply_eq_ok_iff]
  cases op with
  | add => exact ⟨_, _, .arithmetic (Arity.accepts_atLeast.2 hcount) htype, rfl⟩
  | and | or => exact ⟨_, _, .connective (Arity.accepts_atLeast.2 hcount) htype, rfl⟩

/-- A node is made of the leaves that its operands contribute. -/
theorem apply_of_contributes (ctx : Context) {es : List Expr} {leaves : List (List Expr)}
    (h : List.Forall₂ op.Contributes es leaves) (hcount : 2 ≤ es.length) (span : Span) :
    ctx.apply op.operator es span = .ok (.node span op.head leaves.flatten) := by
  have hall : (∀ e ∈ es, e.type = op.type) ∧ flatten op.isHead es = leaves.flatten := by
    clear hcount
    induction h with
    | nil => exact ⟨by simp, rfl⟩
    | cons hfirst _ ih =>
      refine ⟨List.forall_mem_cons.2 ⟨hfirst.type, ih.1⟩, ?_⟩
      rw [flatten, List.flatMap_cons, hfirst.splice, List.flatten_cons, ← ih.2, flatten]
  rw [apply_operator ctx op hcount hall.1, hall.2]

end Merging

/-- A way to apply an operator to operands: each application takes two operands or more, which may
be applications again. -/
inductive Nesting where
  /-- An operand. -/
  | leaf (e : Expr)
  /-- An application, with the span that its node gets. -/
  | application (span : Span) (first second : Nesting) (more : List Nesting)

/-- Induction over nestings, with one hypothesis for each operand of an application. -/
@[induction_eliminator]
theorem Nesting.induction {P : Nesting → Prop} (leaf : ∀ e, P (.leaf e))
    (application : ∀ span first second more, P first → P second → (∀ n ∈ more, P n) →
      P (.application span first second more)) : ∀ n, P n
  | .leaf e => leaf e
  | .application span first second more =>
    application span first second more (induction leaf application first)
      (induction leaf application second) fun n _ => induction leaf application n

namespace Nesting

mutual

/-- The operands below all applications, from the left. -/
def leaves : Nesting → List Expr
  | leaf e => [e]
  | application _ first second more => leaves first ++ (leaves second ++ leavesAll more)

/-- The operands of several nestings, from the left. -/
def leavesAll : List Nesting → List Expr
  | [] => []
  | n :: ns => leaves n ++ leavesAll ns

end

mutual

/-- Build a nesting from its leaves upwards. -/
def build (ctx : Context) (op : Merging) : Nesting → Except ParseError Expr
  | leaf e => .ok e
  | application span first second more => do
    let a ← build ctx op first
    let b ← build ctx op second
    let es ← buildAll ctx op more
    ctx.apply op.operator (a :: b :: es) span

/-- Build several nestings from the left. -/
def buildAll (ctx : Context) (op : Merging) : List Nesting → Except ParseError (List Expr)
  | [] => .ok []
  | n :: ns => do
    let e ← build ctx op n
    let es ← buildAll ctx op ns
    return e :: es

end

theorem leavesAll_eq_flatten (ns : List Nesting) : leavesAll ns = (ns.map leaves).flatten := by
  induction ns with
  | nil => rfl
  | cons n ns ih => rw [leavesAll, ih, List.map_cons, List.flatten_cons]

theorem leaves_application (span : Span) (first second : Nesting) (more : List Nesting) :
    (application span first second more).leaves = leavesAll (first :: second :: more) := rfl

theorem mem_leavesAll {ns : List Nesting} {n : Nesting} (hn : n ∈ ns) {e : Expr}
    (he : e ∈ n.leaves) : e ∈ leavesAll ns := by
  rw [leavesAll_eq_flatten]
  exact List.mem_flatten_of_mem (List.mem_map_of_mem hn) he

theorem length_leaves_pos (n : Nesting) : 0 < n.leaves.length := by
  induction n with
  | leaf e => simp [leaves]
  | application span first second more hfirst =>
    rw [leaves, List.length_append]
    omega

theorem two_le_length_leaves (span : Span) (first second : Nesting) (more : List Nesting) :
    2 ≤ (application span first second more).leaves.length := by
  have hfirst := first.length_leaves_pos
  have hsecond := second.length_leaves_pos
  simp only [leaves, List.length_append]
  omega

section Build

variable (ctx : Context) {op : Merging}

/-- An application builds all its operands and then applies the operator. -/
theorem build_eq_bind (span : Span) (first second : Nesting) (more : List Nesting) :
    (application span first second more).build ctx op =
      buildAll ctx op (first :: second :: more) >>= fun es => ctx.apply op.operator es span := by
  simp only [build, buildAll, bind_assoc]
  rfl

/-- Nestings that contribute their leaves one by one do so together. -/
theorem exists_buildAll {ns : List Nesting}
    (h : ∀ n ∈ ns, ∃ e, n.build ctx op = .ok e ∧ op.Contributes e n.leaves) :
    ∃ es, buildAll ctx op ns = .ok es ∧ List.Forall₂ op.Contributes es (ns.map leaves) := by
  induction ns with
  | nil => exact ⟨[], rfl, .nil⟩
  | cons n ns ih =>
    obtain ⟨e, he, hfirst⟩ := h n (by simp)
    obtain ⟨es, hes, hrest⟩ := ih fun m hm => h m (List.mem_cons_of_mem _ hm)
    exact ⟨e :: es, by rw [buildAll, he, hes]; rfl, .cons hfirst hrest⟩

/-- Applying the operator to nestings that contribute their leaves makes one node of all leaves. -/
theorem build_of_contributes (span : Span) {first second : Nesting} {more : List Nesting}
    (h : ∀ n ∈ first :: second :: more, ∃ e, n.build ctx op = .ok e ∧ op.Contributes e n.leaves) :
    (application span first second more).build ctx op =
      .ok (.node span op.head (application span first second more).leaves) := by
  obtain ⟨es, hes, hall⟩ := exists_buildAll ctx h
  have hcount : 2 ≤ es.length := by
    rw [hall.length_eq]
    simp
  rw [build_eq_bind, hes, ok_bind, leaves_application, leavesAll_eq_flatten]
  exact Merging.apply_of_contributes ctx hall hcount span

/-- A nesting of operands contributes these operands. -/
theorem exists_build {n : Nesting} (h : ∀ e ∈ n.leaves, op.IsLeaf e) :
    ∃ e, n.build ctx op = .ok e ∧ op.Contributes e n.leaves := by
  induction n with
  | leaf e => exact ⟨e, rfl, (h e (by simp [leaves])).contributes⟩
  | application span first second more hfirst hsecond hmore =>
    have hall : ∀ n ∈ first :: second :: more, (∀ e ∈ n.leaves, op.IsLeaf e) →
        ∃ e, n.build ctx op = .ok e ∧ op.Contributes e n.leaves :=
      List.forall_mem_cons.2 ⟨hfirst, List.forall_mem_cons.2 ⟨hsecond, hmore⟩⟩
    refine ⟨_, build_of_contributes ctx span fun n hn => hall n hn fun e he => ?_,
      op.contributes_node span _⟩
    exact h e (mem_leavesAll hn he)

/-- Any nesting builds one node with its leaves as operands. -/
theorem build_application (span : Span) (first second : Nesting) (more : List Nesting)
    (h : ∀ e ∈ (application span first second more).leaves, op.IsLeaf e) :
    (application span first second more).build ctx op =
      .ok (.node span op.head (application span first second more).leaves) :=
  build_of_contributes ctx span fun _ hn => exists_build ctx fun e he => h e (mem_leavesAll hn he)

/-- What an application builds, without places, depends on what its operands build, without
places. -/
theorem unplaced_build_application (span : Span) (first second : Nesting) (more : List Nesting) :
    unplaced ((application span first second more).build ctx op) =
      unplacedBy (List.map Expr.erase) (buildAll ctx op (first :: second :: more)) >>= fun es =>
        unplaced (ctx.apply op.operator es default) := by
  rw [build_eq_bind]
  exact unplacedBy_bind fun es => ctx.unplaced_apply op.operator es span default

theorem unplaced_buildAll_cons (n : Nesting) (ns : List Nesting) :
    unplacedBy (List.map Expr.erase) (buildAll ctx op (n :: ns)) =
      unplaced (n.build ctx op) >>= fun e =>
        unplacedBy (List.map Expr.erase) (buildAll ctx op ns) >>= fun es => .ok (e :: es) := by
  rw [buildAll]
  exact unplacedBy_bind fun e => unplacedBy_bind fun es => rfl

end Build

end Nesting

/-! ### Sources -/

section Sources

variable {ctx : Context} {op : Merging}

/-- The operators between the operands of a phrase apply as a nesting does; the operands build its
leaves. -/
inductive Phrase.Nests (ctx : Context) (op : Merging) : Phrase → Nesting → Prop
  | leaf {p : Phrase} {e : Expr} (h : p.build ctx = .ok e) : Nests ctx op p (.leaf e)
  | group {p : Phrase} {n : Nesting} (h : Nests ctx op p n) : Nests ctx op (.group p) n
  | binary {p q : Phrase} {m n : Nesting} (hp : Nests ctx op p m) (hq : Nests ctx op q n) :
      Nests ctx op (.binary op.operator p q) (.application default m n [])

/-- The forms of a term apply as a nesting does; the other terms below them build its leaves. -/
inductive Term.Nests (ctx : Context) (op : Merging) : Term → Nesting → Prop
  | leaf {t : Term} {e : Expr} (h : t.build ctx = .ok e) : Nests ctx op t (.leaf e)
  | form {ts : List Term} {m n : Nesting} {more : List Nesting}
      (h : List.Forall₂ (Nests ctx op) ts (m :: n :: more)) :
      Nests ctx op (.form op.operator ts) (.application default m n more)

/-- A source is spelled as a syntax tree that applies the operator as a nesting does. -/
def Context.Writes (ctx : Context) (op : Merging) (n : Nesting) (source : List Char) : Prop :=
  ∃ xs, (Lexicon.ofGrammar ctx.grammar).Spells source xs ∧
    match ctx.grammar with
    | .polish => ∃ t : Term, t.yield = xs ∧ t.Nests ctx op n
    | .algebraic => ∃ p : Phrase, p.RespectsPrecedence ∧ p.yield = xs ∧ p.Nests ctx op n

/-- A phrase builds what the nesting builds. -/
theorem Phrase.build_of_nests {p : Phrase} {n : Nesting} (h : p.Nests ctx op n) :
    p.build ctx = unplaced (n.build ctx op) := by
  induction h with
  | leaf h => rw [h, Nesting.build, unplaced_ok, erase_of_build h]
  | group _ ih => rw [build, ih]
  | binary _ _ hp hq =>
    rw [build, hp, hq, Nesting.unplaced_build_application]
    simp only [Nesting.unplaced_buildAll_cons, bind_assoc, ok_bind]
    rfl

/-- Terms that build what nestings build do so together. -/
theorem Term.buildAll_of_nests {ts : List Term} {ns : List Nesting}
    (ih : ∀ t ∈ ts, ∀ n, t.Nests ctx op n → t.build ctx = unplaced (n.build ctx op))
    (h : List.Forall₂ (Term.Nests ctx op) ts ns) :
    buildAll ctx ts = unplacedBy (List.map Expr.erase) (Nesting.buildAll ctx op ns) := by
  induction h with
  | nil => rfl
  | cons hfirst _ ihs =>
    rw [buildAll, ih _ (by simp) _ hfirst, ihs fun t ht => ih t (List.mem_cons_of_mem _ ht),
      Nesting.unplaced_buildAll_cons]
    rfl

/-- A term builds what the nesting builds. -/
theorem Term.build_of_nests {t : Term} {n : Nesting} (h : t.Nests ctx op n) :
    t.build ctx = unplaced (n.build ctx op) := by
  have hleaf {t : Term} {e : Expr} (h : t.build ctx = .ok e) :
      t.build ctx = unplaced ((Nesting.leaf e).build ctx op) := by
    rw [h, Nesting.build, unplaced_ok, erase_of_build h]
  induction t generalizing n with
  | form o args ih =>
    cases h with
    | leaf h => exact hleaf h
    | form h =>
      rw [build, buildAll_of_nests (fun t ht n => ih t ht) h, Nesting.unplaced_build_application]
  | _ =>
    cases h with
    | leaf h => exact hleaf h

/-- A source that writes a nesting of operands is read as what the nesting builds. -/
theorem Context.exists_parse_of_writes {n : Nesting} (hleaves : ∀ e ∈ n.leaves, op.IsLeaf e)
    {source : List Char} (h : ctx.Writes op n source) :
    ∃ e, ctx.parse source = .ok e ∧ unplaced (n.build ctx op) = .ok e.erase := by
  obtain ⟨e, hbuild, hcontributes⟩ := Nesting.exists_build ctx hleaves
  have hhead : ∀ name, e.erase.head ≠ .symbol name := by
    intro name hname
    have htype := hcontributes.type
    rw [Expr.head_erase] at hname
    rw [Expr.type, hname] at htype
    cases op <;> cases htype
  have hread : ∃ xs, (Lexicon.ofGrammar ctx.grammar).Spells source xs ∧
      ctx.readLexemes xs = .ok (e.erase, []) := by
    obtain ⟨host, strict, grammar⟩ := ctx
    obtain ⟨xs, hspells, hnests⟩ := h
    refine ⟨xs, hspells, ?_⟩
    cases grammar with
    | polish =>
      obtain ⟨t, rfl, hnests⟩ := hnests
      exact Polish.readExpression_eq_ok_iff.2
        ⟨t, rfl, by rw [Term.build_of_nests hnests, hbuild, unplaced_ok]⟩
    | algebraic =>
      obtain ⟨p, hp, rfl, hnests⟩ := hnests
      exact (Algebraic.readExpression_eq_ok_iff (Algebraic.isRegular_of_spells hspells)).2
        ⟨p, hp, rfl, by rw [Phrase.build_of_nests hnests, hbuild, unplaced_ok]⟩
  obtain ⟨xs, hspells, hread⟩ := hread
  obtain ⟨e', hparse, herase⟩ := Context.parse_eq_ok_iff.2 ⟨xs, hspells, hread, hhead⟩
  exact ⟨e', hparse, by rw [hbuild, unplaced_ok, herase]⟩

end Sources

namespace Nesting

/-- Nestings of the same operands build the same expression, up to spans. -/
theorem unplaced_build_congr {op : Merging} {m n : Nesting} (h : ∀ e ∈ m.leaves, op.IsLeaf e)
    (hleaves : m.leaves = n.leaves) (ctx ctx' : Context) :
    unplaced (m.build ctx op) = unplaced (n.build ctx' op) := by
  have hlength := congrArg List.length hleaves
  cases m with
  | leaf e =>
    cases n with
    | leaf e' =>
      obtain rfl : e = e' := by simpa [leaves] using hleaves
      rfl
    | application span first second more =>
      have htwo := two_le_length_leaves span first second more
      simp only [leaves, List.length_singleton] at hlength htwo
      omega
  | application span first second more =>
    cases n with
    | leaf e =>
      have htwo := two_le_length_leaves span first second more
      simp only [leaves, List.length_singleton] at hlength htwo
      omega
    | application span' first' second' more' =>
      rw [build_application ctx span first second more h,
        build_application ctx' span' first' second' more' (hleaves ▸ h), hleaves]
      simp

/-- Any nesting of a merging operator over operands of its type, none of them a node of the
operator, is built, and becomes one node with exactly these operands in their order. So two
sources, each in either grammar, that write nestings of the same operands are read as the same
expression, up to spans. -/
theorem regroup (op : Merging) :
    (∀ (ctx : Context) (span : Span) (first second : Nesting) (more : List Nesting),
      (∀ e ∈ (application span first second more).leaves, op.IsLeaf e) →
      (application span first second more).build ctx op =
        .ok (.node span op.head (application span first second more).leaves)) ∧
    ∀ (host : Host) (strict : Bool) (g₁ g₂ : Grammar) (n₁ n₂ : Nesting)
      (source₁ source₂ : List Char),
      (∀ e ∈ n₁.leaves, op.IsLeaf e) → n₁.leaves = n₂.leaves →
      Context.Writes ⟨host, strict, g₁⟩ op n₁ source₁ →
      Context.Writes ⟨host, strict, g₂⟩ op n₂ source₂ →
      ∃ e₁ e₂, Context.parse ⟨host, strict, g₁⟩ source₁ = .ok e₁ ∧
        Context.parse ⟨host, strict, g₂⟩ source₂ = .ok e₂ ∧ e₁.erase = e₂.erase := by
  refine ⟨fun ctx => build_application ctx, ?_⟩
  intro host strict g₁ g₂ n₁ n₂ source₁ source₂ hleaf hleaves hwrites₁ hwrites₂
  obtain ⟨e₁, hparse₁, hbuild₁⟩ := Context.exists_parse_of_writes hleaf hwrites₁
  obtain ⟨e₂, hparse₂, hbuild₂⟩ := Context.exists_parse_of_writes (hleaves ▸ hleaf) hwrites₂
  have hsame := unplaced_build_congr hleaf hleaves ⟨host, strict, g₁⟩ ⟨host, strict, g₂⟩
  rw [hbuild₁, hbuild₂] at hsame
  exact ⟨e₁, e₂, hparse₁, hparse₂, Except.ok.inj hsame⟩

/-- A number literal as an operand. -/
def literalOperand (units : Int) : Expr := .constant (.number (.ofUnits units)) default

/-- A signal as an operand. -/
def liftOperand : Expr := .node default (.signal liftSignal) []

/-- A sum that is grouped to the right. -/
def nestedSum : Nesting :=
  application default (leaf (literalOperand 1))
    (application default (leaf liftOperand) (leaf (literalOperand 3)) []) []

/-- A sum of the same operands that is not grouped. -/
def flatSum : Nesting :=
  application default (leaf (literalOperand 1)) (leaf liftOperand) [leaf (literalOperand 3)]

/-- The grouped sum in the algebraic grammar. -/
def nestedPhrase : Phrase :=
  .binary (.arithmetic .add) (.number "1")
    (.group (.binary (.arithmetic .add) (.signal "Lift") (.number "3")))

/-- The other sum in the Polish grammar. -/
def flatTerm : Term :=
  .form (.arithmetic .add) [.number "1", .form .signal [.name "Lift"], .number "3"]

theorem isLeaf_nestedSum : ∀ e ∈ nestedSum.leaves, Merging.add.IsLeaf e := by
  simp only [nestedSum, leaves, leavesAll, List.append_nil, List.singleton_append,
    List.forall_mem_cons, List.not_mem_nil, false_imp_iff, implies_true, and_true]
  exact ⟨⟨rfl, nofun⟩, ⟨rfl, nofun⟩, ⟨rfl, nofun⟩⟩

theorem writes_nestedSum : Context.Writes ⟨liftHost, true, .algebraic⟩ .add nestedSum
    "1 + (Lift + 3)".toList := by
  have hp : nestedPhrase.RespectsPrecedence :=
    .binary rfl (.number _)
      (.group (.binary rfl (.signal _) (.number _) (by decide) (by decide)))
      (by decide) (by decide)
  have hname : (Phrase.signal "Lift").IsWritable Grammar.algebraic.IsName :=
    List.forall_mem_singleton.2 ⟨fun _ => ⟨by decide, by decide⟩, nofun⟩
  have hnumber (n : Fixed) : (Phrase.number (String.ofList n.magnitudeDigits)).IsWritable
      Grammar.algebraic.IsName :=
    List.forall_mem_singleton.2 ⟨nofun, fun _ => ⟨n, rfl⟩⟩
  have hw : nestedPhrase.IsWritable Grammar.algebraic.IsName :=
    (hnumber (.ofUnits 1)).binary (hname.binary (hnumber (.ofUnits 3)) _).group _
  refine ⟨nestedPhrase.yield, (Phrase.writes_pieces hp hw).spells, nestedPhrase, hp, rfl, ?_⟩
  exact .binary (.leaf (by cbv)) (.group (.binary (.leaf (by cbv)) (.leaf (by cbv))))

theorem writes_flatSum : Context.Writes ⟨liftHost, true, .polish⟩ .add flatSum
    "(add 1 (sig Lift) 3)".toList := by
  have hname : ∀ x ∈ (Term.name "Lift").yield, Term.CanWrite Grammar.polish.IsName x :=
    List.forall_mem_singleton.2 ⟨fun _ => ⟨by decide, by decide⟩, nofun⟩
  have hw : ∀ x ∈ flatTerm.yield, Term.CanWrite Grammar.polish.IsName x :=
    Expr.canWrite_form (List.forall_mem_cons.2 ⟨Expr.canWrite_value (.number (.ofUnits 1)),
      List.forall_mem_cons.2 ⟨Expr.canWrite_form (List.forall_mem_singleton.2 hname),
        List.forall_mem_singleton.2 (Expr.canWrite_value (.number (.ofUnits 3)))⟩⟩)
  refine ⟨flatTerm.yield, (Term.writes_pieces hw).spells, flatTerm, rfl, ?_⟩
  exact .form (.cons (.leaf (by cbv)) (.cons (.leaf (by cbv)) (.cons (.leaf (by cbv)) .nil)))

/-- A sum with parentheses on the right, and a flat one in the other grammar. -/
theorem regroup_liftHost :
    (∀ e ∈ nestedSum.leaves, Merging.add.IsLeaf e) ∧ nestedSum.leaves = flatSum.leaves ∧
    nestedSum.build ⟨liftHost, true, .algebraic⟩ .add =
      .ok (.node default (.arithmetic .add) [literalOperand 1, liftOperand, literalOperand 3]) ∧
    ∃ e₁ e₂, Context.parse ⟨liftHost, true, .algebraic⟩ "1 + (Lift + 3)".toList = .ok e₁ ∧
      Context.parse ⟨liftHost, true, .polish⟩ "(add 1 (sig Lift) 3)".toList = .ok e₂ ∧
      e₁.erase = e₂.erase :=
  ⟨isLeaf_nestedSum, rfl, (regroup .add).1 _ _ _ _ _ isLeaf_nestedSum,
    (regroup .add).2 _ _ _ _ nestedSum flatSum _ _ isLeaf_nestedSum rfl writes_nestedSum
      writes_flatSum⟩

end Nesting

end SignalRules
