import GuardedC.Proofs.CText.Lexer
import GuardedC.Proofs.Meaning

/-!
# Reading C expressions

A reader for the expressions of C, with C's precedence: the text is cut into tokens, and a machine
takes one token after the other. It keeps the brackets that are open and, for each of them, the part
of the expression that has been read so far; an operator takes for its left operand as much of it as
binds more tightly or as tightly.

Main statements:

* `parse_text`, the reader accepts the text of every grouped tree, and what it makes of it is
  `CExpr.reading`;
* `eval?_reading`, the reading has the value of the tree wherever the tree leaves out parentheses by
  precedence only, or by the associativity of `&&`.
-/

namespace GuardedC

/-! ## Precedence -/

/-- How tightly an operator binds. -/
def Operator.level : Operator → Nat
  | arith .mul | arith .div => 10
  | arith .add | arith .sub => 9
  | arith .shl | arith .shr => 8
  | compare .lt | compare .gt | compare .le | compare .ge => 7
  | compare .eq | compare .ne => 6
  | arith .bitAnd => 5
  | arith .bitXor => 4
  | arith .bitOr => 3
  | connect .and => 2
  | connect .or => 1

namespace CExpr

/-- An expression continued by an operator and its right operand. Operators of one level group from
the left. -/
def attach : CExpr → Operator → CExpr → CExpr
  | binary o l r, op, operand =>
    if o.level < op.level then binary o l (r.attach op operand)
    else binary op (binary o l r) operand
  | e, op, operand => binary op e operand

/-! ## The machine -/

/-- What stands before the operand that is read: an expression with an operator, and signs. -/
structure Pending where
  left : Option (CExpr × Operator) := none
  signs : Nat := 0
deriving Repr, DecidableEq

/-- The expression up to and including an operand. -/
def Pending.complete (p : Pending) (operand : CExpr) : CExpr :=
  let signed := negate^[p.signs] operand
  match p.left with
  | none => signed
  | some (l, op) => l.attach op signed

/-- A bracket that is open, and what stands before it. -/
inductive Bracket where
  | paren (outer : Pending)
  | index (outer : Pending) (array : CExpr)
deriving Repr, DecidableEq

/-- The state of the reader: `operand` is missing where one is expected. -/
structure Reader where
  brackets : List Bracket := []
  pending : Pending := {}
  operand : Option CExpr := none
deriving Repr, DecidableEq

namespace Reader

/-- Where an operand is expected: a name, a constant, a sign, or a parenthesis. -/
def expectOperand (r : Reader) : Token → Option Reader
  | .name id => some { r with operand := some (.name id) }
  | .constant value ull => some { r with operand := some (.constant value ull) }
  | .operator (.arith .sub) =>
    some { r with pending := { r.pending with signs := r.pending.signs + 1 } }
  | .leftParen => some ⟨.paren r.pending :: r.brackets, {}, none⟩
  | _ => none

/-- After an operand: an operator, an index, or the end of what stands in brackets. -/
def afterOperand (r : Reader) (x : CExpr) : Token → Option Reader
  | .operator op => some ⟨r.brackets, { left := some (r.pending.complete x, op) }, none⟩
  | .leftBracket => some ⟨.index r.pending x :: r.brackets, {}, none⟩
  | .rightParen =>
    match r.brackets with
    | .paren outer :: rest => some ⟨rest, outer, some (.paren (r.pending.complete x))⟩
    | _ => none
  | .rightBracket =>
    match r.brackets with
    | .index outer array :: rest => some ⟨rest, outer, some (.index array (r.pending.complete x))⟩
    | _ => none
  | _ => none

def step (r : Reader) (t : Token) : Option Reader :=
  match r.operand with
  | none => r.expectOperand t
  | some x => r.afterOperand x t

/-- What has been read, if it is an expression. -/
def result? (r : Reader) : Option CExpr :=
  match r.brackets, r.operand with
  | [], some x => some (r.pending.complete x)
  | _, _ => none

end Reader

/-- Reads an expression. -/
def parse (text : String) : Option CExpr := do
  let tokens ← lex text.toList
  let last ← tokens.foldlM Reader.step {}
  last.result?

example : parse "1 + x < y[2] && -3 <= (z)" =
    some (.binary Connective.and
      (.binary Comparison.lt (.binary Arith.add (.constant 1 false) (.name "x"))
        (.index (.name "y") (.constant 2 false)))
      (.binary Comparison.le (.negate (.constant 3 false)) (.paren (.name "z")))) := by
  decide +kernel

/-! ## What the reader makes of a tree -/

/-- An expression continued by operators, each with its right operand. -/
def attachAll (e : CExpr) (rest : List (Operator × CExpr)) : CExpr :=
  rest.foldl (fun e next => e.attach next.1 next.2) e

/-- The operands of a tree and the operators between them, without the grouping that the tree
has. -/
def chain : CExpr → CExpr × List (Operator × CExpr)
  | name id => (name id, [])
  | constant value ull => (constant value ull, [])
  | negate e => (negate (e.chain.1.attachAll e.chain.2), [])
  | binary op l r => (l.chain.1, l.chain.2 ++ (op, r.chain.1) :: r.chain.2)
  | index a k => (index (a.chain.1.attachAll a.chain.2) (k.chain.1.attachAll k.chain.2), [])
  | paren e => (paren (e.chain.1.attachAll e.chain.2), [])

/-- The tree as C groups its operands. -/
def reading (e : CExpr) : CExpr := e.chain.1.attachAll e.chain.2

/-- An operand that a postfix index applies to as a whole. -/
def Primary : CExpr → Prop
  | negate _ | binary _ _ _ => False
  | _ => True

/-- Indices are attached to primary expressions. -/
def Grouped : CExpr → Prop
  | name _ | constant _ _ => True
  | negate e | paren e => e.Grouped
  | binary _ l r => l.Grouped ∧ r.Grouped
  | index a k => a.Primary ∧ a.Grouped ∧ k.Grouped

/-- The machine started on the tokens of a tree, and where it stops: `x` is the operand that was
read last, and may still be followed by an index. -/
def Reads (e : CExpr) : Prop :=
  ∀ (brackets : List Bracket) (left : Option (CExpr × Operator)),
    ∃ (last : Pending) (x : CExpr),
      e.tokens.foldlM Reader.step ⟨brackets, ⟨left, 0⟩, none⟩ = some ⟨brackets, last, some x⟩ ∧
        last.complete x = (Pending.complete ⟨left, 0⟩ e.chain.1).attachAll e.chain.2

/-- A primary expression is one operand, also after signs. -/
def ReadsOperand (e : CExpr) : Prop :=
  ∀ (brackets : List Bracket) (pending : Pending),
    e.tokens.foldlM Reader.step ⟨brackets, pending, none⟩ = some ⟨brackets, pending, some e.reading⟩

/-- Between brackets, nothing stands before the tree. -/
theorem Reads.whole {e : CExpr} (h : e.Reads) (brackets : List Bracket) :
    ∃ (last : Pending) (x : CExpr),
      e.tokens.foldlM Reader.step ⟨brackets, ⟨none, 0⟩, none⟩ = some ⟨brackets, last, some x⟩ ∧
        last.complete x = e.reading :=
  h brackets none

theorem reads_of_operand {e : CExpr} (hchain : e.chain.2 = []) (h : e.ReadsOperand) : e.Reads := by
  intro brackets left
  refine ⟨⟨left, 0⟩, e.reading, h brackets ⟨left, 0⟩, ?_⟩
  simp [reading, attachAll, hchain]

theorem reads {e : CExpr} (hs : e.Spelled) (hg : e.Grouped) :
    e.Reads ∧ (e.Primary → e.ReadsOperand) := by
  induction e with
  | name id =>
    have h : (name id).ReadsOperand := fun _ _ => rfl
    exact ⟨reads_of_operand rfl h, fun _ => h⟩
  | constant value ull =>
    have h : (constant value ull).ReadsOperand := fun _ _ => rfl
    exact ⟨reads_of_operand rfl h, fun _ => h⟩
  | negate e _ =>
    obtain ⟨value, ull, rfl⟩ := hs
    refine ⟨?_, fun hp => hp.elim⟩
    intro brackets left
    exact ⟨⟨left, 1⟩, constant value ull, rfl, rfl⟩
  | binary op l r ihl ihr =>
    refine ⟨?_, fun hp => hp.elim⟩
    intro brackets left
    -- what was read so far becomes the left side that waits for the right operand
    obtain ⟨p, x, hl, hx⟩ := (ihl hs.1 hg.1).1 brackets left
    obtain ⟨q, y, hr, hy⟩ := (ihr hs.2 hg.2).1 brackets (some (p.complete x, op))
    refine ⟨q, y, ?_, ?_⟩
    · simp only [tokens, List.foldlM_append, hl, List.foldlM_cons]
      exact hr
    · rw [hy, hx]
      simp [chain, attachAll, Pending.complete]
  | index a k iha ihk =>
    have h : (index a k).ReadsOperand := by
      intro brackets pending
      -- the array is one operand, so the signs before it stay pending until the index is closed
      obtain ⟨q, y, hk, hy⟩ := (ihk hs.2 hg.2.2).1.whole (.index pending a.reading :: brackets)
      have hbracket : Reader.step ⟨brackets, pending, some a.reading⟩ .leftBracket =
          some ⟨.index pending a.reading :: brackets, ⟨none, 0⟩, none⟩ := rfl
      simp only [tokens, List.foldlM_append, List.foldlM_cons, List.foldlM_nil, Option.bind_eq_bind,
        Option.bind_some, (iha hs.1 hg.2.1).2 hg.1 brackets pending, hbracket, hk]
      simp only [Reader.step, Reader.afterOperand, hy]
      rfl
    exact ⟨reads_of_operand rfl h, fun _ => h⟩
  | paren e ih =>
    have h : (paren e).ReadsOperand := by
      intro brackets pending
      obtain ⟨q, y, he, hy⟩ := (ih hs hg).1.whole (.paren pending :: brackets)
      have hparen : Reader.step ⟨brackets, pending, none⟩ .leftParen =
          some ⟨.paren pending :: brackets, ⟨none, 0⟩, none⟩ := rfl
      simp only [tokens, List.foldlM_append, List.foldlM_cons, List.foldlM_nil, Option.bind_eq_bind,
        Option.bind_some, hparen, he]
      simp only [Reader.step, Reader.afterOperand, hy]
      rfl
    exact ⟨reads_of_operand rfl h, fun _ => h⟩

/-- The reader accepts the text of a tree, and groups its operands as C does. -/
theorem parse_text {e : CExpr} (hs : e.Spelled) (hg : e.Grouped) : parse e.text = some e.reading := by
  obtain ⟨last, x, hrun, hx⟩ := (reads hs hg).1.whole []
  have hstart : ({} : Reader) = ⟨[], ⟨none, 0⟩, none⟩ := rfl
  unfold parse
  rw [lex_text hs, hstart]
  simp only [Option.bind_eq_bind, Option.bind_some, hrun, Reader.result?, hx]

/-! ## The value of a reading -/

/-- The value of an expression whose names have values, over the integers. Memory is not read. -/
def eval? (ρ : String → Option Int) : CExpr → Option Int
  | name id => ρ id
  | constant value _ => some value
  | negate e => (e.eval? ρ).map (- ·)
  | binary op l r => op.value? Arith.exact? (l.eval? ρ) (r.eval? ρ)
  | index _ _ => none
  | paren e => e.eval? ρ

/-- All operators outside brackets bind at least so tightly. -/
def Tight (n : Nat) (e : CExpr) : Prop := ∀ next ∈ e.chain.2, n ≤ next.1.level

/-- Where the grouping of a tree is not written out, it is the one that C gives, except that a
conjunction may be the right side of another. -/
def Ordered : CExpr → Prop
  | name _ | constant _ _ => True
  | negate e | paren e => e.Ordered
  | binary op l r =>
    l.Ordered ∧ r.Ordered ∧ l.Tight op.level ∧
      (r.Tight (op.level + 1) ∨ op = Connective.and ∧ r.Tight op.level)
  | index a k => a.Ordered ∧ k.Ordered

/-- The operator at the root binds at least so tightly. -/
def RootTight (n : Nat) : CExpr → Prop
  | binary op _ _ => n ≤ op.level
  | _ => True

theorem attach_of_rootTight {op : Operator} {e operand : CExpr} (h : e.RootTight op.level) :
    e.attach op operand = binary op e operand := by
  cases e with
  | binary o l r => exact if_neg (Nat.not_lt.2 h)
  | _ => rfl

theorem RootTight.mono {m n : Nat} {e : CExpr} (h : e.RootTight n) (hmn : m ≤ n) : e.RootTight m := by
  cases e with
  | binary op l r => exact Nat.le_trans hmn h
  | _ => trivial

theorem RootTight.attach {n : Nat} {op : Operator} {e : CExpr} (h : e.RootTight n) (hop : n ≤ op.level)
    (operand : CExpr) : (e.attach op operand).RootTight n := by
  cases e with
  | binary o l r =>
    unfold CExpr.attach
    split
    · exact h
    · exact hop
  | _ => exact hop

/-- The first operand is no operation. -/
theorem rootTight_chain (e : CExpr) (n : Nat) : e.chain.1.RootTight n := by
  induction e with
  | binary op l r ihl _ => exact ihl
  | _ => trivial

theorem RootTight.attachAll {n : Nat} {e : CExpr} (h : e.RootTight n) {rest : List (Operator × CExpr)}
    (hrest : ∀ next ∈ rest, n ≤ next.1.level) : (e.attachAll rest).RootTight n := by
  induction rest generalizing e with
  | nil => exact h
  | cons next rest ih =>
    exact ih (h.attach (hrest next (.head _)) next.2) fun next hnext => hrest next (.tail _ hnext)

theorem Tight.reading {n : Nat} {e : CExpr} (h : e.Tight n) : e.reading.RootTight n :=
  (e.rootTight_chain n).attachAll h

theorem reading_binary (op : Operator) (l r : CExpr) :
    (binary op l r).reading = (l.reading.attach op r.chain.1).attachAll r.chain.2 := by
  simp only [CExpr.reading, chain, CExpr.attachAll, List.foldl_append, List.foldl_cons]

/-- Operators that bind more tightly than the one at the root belong to its right side. -/
theorem attachAll_binary {op : Operator} {l : CExpr} {rest : List (Operator × CExpr)}
    (hrest : ∀ next ∈ rest, op.level < next.1.level) (r : CExpr) :
    (binary op l r).attachAll rest = binary op l (r.attachAll rest) := by
  induction rest generalizing r with
  | nil => rfl
  | cons next rest ih =>
    have hnext : (binary op l r).attach next.1 next.2 = binary op l (r.attach next.1 next.2) :=
      if_pos (hrest next (.head _))
    show ((binary op l r).attach next.1 next.2).attachAll rest = _
    rw [hnext]
    exact ih (fun next hnext => hrest next (.tail _ hnext)) _

/-! ### Conjunctions without parentheses -/

/-- `t` is the conjunction of `l` and `s`, grouped from the left. -/
inductive Regrouped (l : CExpr) : CExpr → CExpr → Prop where
  | whole {s : CExpr} (hs : s.RootTight 3) : Regrouped l s (binary Connective.and l s)
  | conjunct {s t r : CExpr} (h : Regrouped l s t) :
      Regrouped l (binary Connective.and s r) (binary Connective.and t r)

theorem eq_and_of_level {op : Operator} (h : op.level = 2) : op = Connective.and := by
  cases op with
  | arith op => cases op <;> cases h
  | compare op => cases op <;> cases h
  | connect op =>
    cases op with
    | and => rfl
    | or => cases h

theorem Regrouped.attach {l s t : CExpr} (h : Regrouped l s t) {op : Operator} (hop : 2 ≤ op.level)
    (operand : CExpr) : Regrouped l (s.attach op operand) (t.attach op operand) := by
  rcases Nat.lt_or_eq_of_le hop with hlt | heq
  · -- the operator goes into the last conjunct
    have hinside : ∀ l r : CExpr, (binary Connective.and l r).attach op operand =
        binary Connective.and l (r.attach op operand) := fun _ _ => if_pos hlt
    cases h with
    | whole hs =>
      rw [hinside]
      exact .whole (hs.attach hlt operand)
    | conjunct h =>
      rw [hinside, hinside]
      exact .conjunct h
  · -- the operator begins a new conjunct
    obtain rfl := eq_and_of_level heq.symm
    have houtside : ∀ l r : CExpr, (binary Connective.and l r).attach Connective.and operand =
        binary Connective.and (binary Connective.and l r) operand := fun _ _ => if_neg (by decide)
    cases h with
    | whole hs =>
      rw [houtside, attach_of_rootTight (hs.mono (by decide))]
      exact .conjunct (.whole hs)
    | conjunct h =>
      rw [houtside, houtside]
      exact .conjunct (.conjunct h)

theorem Regrouped.attachAll {l s t : CExpr} (h : Regrouped l s t) {rest : List (Operator × CExpr)}
    (hrest : ∀ next ∈ rest, 2 ≤ next.1.level) : Regrouped l (s.attachAll rest) (t.attachAll rest) := by
  induction rest generalizing s t with
  | nil => exact h
  | cons next rest ih =>
    exact ih (h.attach (hrest next (.head _)) next.2) fun next hnext => hrest next (.tail _ hnext)

theorem value?_and_assoc {arith : Arith → Int → Int → Option Int} (a b c : Option Int) :
    Operator.value? arith (.connect .and) (Operator.value? arith (.connect .and) a b) c =
      Operator.value? arith (.connect .and) a (Operator.value? arith (.connect .and) b c) := by
  cases a with
  | none => rfl
  | some x =>
    by_cases hx : x = 0
    · simp [Operator.value?, hx]
    · cases b with
      | none => simp [Operator.value?, hx]
      | some y =>
        by_cases hy : y = 0
        · simp [Operator.value?, hy, truth]
        · cases c <;> simp [Operator.value?, hx, hy, truth]

theorem Regrouped.eval?_eq {l s t : CExpr} (h : Regrouped l s t) (ρ : String → Option Int) :
    t.eval? ρ = (binary Connective.and l s).eval? ρ := by
  induction h with
  | whole _ => rfl
  | conjunct _ ih =>
    simp only [eval?] at ih ⊢
    rw [ih]
    exact value?_and_assoc _ _ _

/-- The operands of an ordered operation are read on their own, but for `a && b && c`, which is read
from the left whichever side the tree has it on. -/
theorem reading_ordered {op : Operator} {l r : CExpr} (hleft : l.Tight op.level)
    (hright : r.Tight (op.level + 1) ∨ op = Connective.and ∧ r.Tight op.level) :
    (binary op l r).reading = binary op l.reading r.reading ∨
      op = Connective.and ∧ Regrouped l.reading r.reading (binary op l r).reading := by
  rw [reading_binary, attach_of_rootTight hleft.reading]
  rcases hright with htight | ⟨rfl, htight⟩
  · -- all operators of `r` bind more tightly and stay on the right
    left
    rw [attachAll_binary htight]
    rfl
  · right
    exact ⟨rfl, (Regrouped.whole (r.rootTight_chain 3)).attachAll htight⟩

/-- C reads the same value from a text as the tree has. -/
theorem eval?_reading {e : CExpr} (h : e.Ordered) (ρ : String → Option Int) :
    e.reading.eval? ρ = e.eval? ρ := by
  induction e with
  | name _ => rfl
  | constant _ _ => rfl
  | negate e ih =>
    show (e.reading.eval? ρ).map _ = (e.eval? ρ).map _
    rw [ih h]
  | binary op l r ihl ihr =>
    obtain ⟨hl, hr, hleft, hright⟩ := h
    have hvalues : (binary op l.reading r.reading).eval? ρ = (binary op l r).eval? ρ := by
      show op.value? _ (l.reading.eval? ρ) (r.reading.eval? ρ) = op.value? _ (l.eval? ρ) (r.eval? ρ)
      rw [ihl hl, ihr hr]
    rcases reading_ordered hleft hright with hsame | ⟨rfl, hgroup⟩
    · rw [hsame, hvalues]
    · rw [hgroup.eval?_eq, hvalues]
  | index _ _ _ _ => rfl
  | paren e ih => exact ih h

end CExpr

end GuardedC
