import GuardedC.Proofs.Recording
import GuardedC.Value
import Mathlib.Data.Int.Bitwise

/-!
# What expressions mean

The value of an expression, once its arguments have values and its arrays have contents. Values are
mathematical integers; an expression without a value (a division by zero, a byte beyond the end) has
none. `Expr.evalWith` leaves open how arithmetic is done; `Expr.eval?` does it exactly.

The main statement, `Cond.holds_iff_entries`, is what makes recording faithful: a condition that can
be recorded holds exactly if everything recorded for it does.
-/

namespace GuardedC

/-! ## Operators -/

/-- The exact value of an operation on integers of any size. Shifts move by any amount that is not
negative, to the right towards minus infinity; division is towards zero; bits are those of two's
complement. -/
def Arith.exact? : Arith → Int → Int → Option Int
  | add, a, b => some (a + b)
  | sub, a, b => some (a - b)
  | mul, a, b => some (a * b)
  | div, a, b => if b = 0 then none else some (a.tdiv b)
  | shl, a, b => if 0 ≤ b then some (a <<< b.toNat) else none
  | shr, a, b => if 0 ≤ b then some (a >>> b.toNat) else none
  | bitOr, a, b => some (a.lor b)
  | bitXor, a, b => some (a.xor b)
  | bitAnd, a, b => some (a.land b)

/-- A truth value as an integer. -/
def truth (p : Prop) [Decidable p] : Int := if p then 1 else 0

/-- An operator on operands that may have no value. The right side of a connective is looked at only
where the left side leaves it open. -/
def Operator.value? (arith : Arith → Int → Int → Option Int) :
    Operator → Option Int → Option Int → Option Int
  | .arith op, l, r => do
    let a ← l
    let b ← r
    arith op a b
  | .compare op, l, r => do
    let a ← l
    let b ← r
    return truth (op.Holds a b)
  | .connect .and, l, r => do
    let a ← l
    if a = 0 then return 0
    let b ← r
    return truth (b ≠ 0)
  | .connect .or, l, r => do
    let a ← l
    if a ≠ 0 then return 1
    let b ← r
    return truth (b ≠ 0)

/-- There is a value, and it counts as true. -/
def IsTrue (x : Option Int) : Prop := ∃ v, x = some v ∧ v ≠ 0

@[simp] theorem not_isTrue_none : ¬ IsTrue none := by
  rintro ⟨v, hv, _⟩
  cases hv

@[simp] theorem isTrue_some {v : Int} : IsTrue (some v) ↔ v ≠ 0 := by
  constructor
  · rintro ⟨_, h, hv⟩
    cases h
    exact hv
  · intro hv
    exact ⟨v, rfl, hv⟩

instance : DecidablePred IsTrue
  | none => isFalse not_isTrue_none
  | some _ => decidable_of_iff _ isTrue_some.symm

@[simp] theorem truth_ne_zero {p : Prop} [Decidable p] : truth p ≠ 0 ↔ p := by
  unfold truth
  split <;> simp_all

section

variable {arith : Arith → Int → Int → Option Int} {l r : Option Int}

theorem isTrue_compare {op : Comparison} :
    IsTrue (Operator.value? arith (.compare op) l r) ↔
      ∃ a b, l = some a ∧ r = some b ∧ op.Holds a b := by
  cases l with
  | none => simp [Operator.value?]
  | some a =>
    cases r with
    | none => simp [Operator.value?]
    | some b => simp [Operator.value?]

theorem isTrue_and :
    IsTrue (Operator.value? arith (.connect .and) l r) ↔ IsTrue l ∧ IsTrue r := by
  cases l with
  | none => simp [Operator.value?]
  | some a =>
    by_cases ha : a = 0
    · simp [Operator.value?, ha]
    · cases r with
      | none => simp [Operator.value?, ha]
      | some b => simp [Operator.value?, ha]

end

/-! ## Expressions -/

/-- All arguments in an expression. -/
def Expr.leaves : Expr → List Argument
  | lit _ => []
  | argument a => [a]
  | binary _ l r => l.leaves ++ r.leaves
  | byteIndex source key => source.leaves ++ key.leaves
  | byteSlice base start length => base.leaves ++ start.leaves ++ length.leaves

theorem Expr.mem_leaves_of_root? {e : Expr} {a : Argument} (h : e.root? = some a) : a ∈ e.leaves := by
  induction e with
  | lit v => cases h
  | argument b =>
    cases h
    exact .head _
  | binary op l r ihl ihr =>
    simp only [Expr.root?, Option.orElse_eq_some] at h
    rcases h with h | ⟨_, h⟩
    · exact List.mem_append_left _ (ihl h)
    · exact List.mem_append_right _ (ihr h)
  | byteIndex source key ihs _ => exact List.mem_append_left _ (ihs h)
  | byteSlice base start length ihb _ _ =>
    exact List.mem_append_left _ (List.mem_append_left _ (ihb h))

def Cond.leaves : Cond → List Argument
  | known _ => []
  | symbolic e => e.leaves

/-- All arguments in a value; those of a view are the arguments in its address. -/
def Value.leaves : Value → List Argument
  | nothing => []
  | int e => e.leaves
  | bytes b => b.expr.leaves
  | cond c => c.leaves

/-- What a call provides: the value of each argument, and the bytes that each pointer leads to. -/
structure Assignment where
  /-- Integers; for a pointer, its address. -/
  value : Argument → Int
  bytes : Argument → List UInt8

/-- The byte of an array at a position, if there is one. -/
def Assignment.byte? (σ : Assignment) (a : Argument) (i : Int) : Option Int :=
  if 0 ≤ i then (σ.bytes a)[i.toNat]?.map fun b => (b.toNat : Int) else none

theorem Assignment.byte?_eq_some {σ : Assignment} {a : Argument} {i v : Int} :
    σ.byte? a i = some v ↔ 0 ≤ i ∧ ∃ x, (σ.bytes a)[i.toNat]? = some x ∧ (x.toNat : Int) = v := by
  rw [Assignment.byte?, Option.ite_none_right_eq_some, Option.map_eq_some_iff]

/-- Every integer argument has a value of its type. -/
def Assignment.Represents (σ : Assignment) (args : List Argument) : Prop :=
  ∀ a ∈ args, ∀ type, a.ty = .integer type → σ.value a ∈ type.values

theorem Ty.integer?_eq_some {ty : Ty} {type : IntegerType} :
    ty.integer? = some type ↔ ty = .integer type := by
  cases ty <;> simp [Ty.integer?]

instance (σ : Assignment) (args : List Argument) : Decidable (σ.Represents args) :=
  decidable_of_iff (∀ a ∈ args, ∀ type ∈ a.ty.integer?, σ.value a ∈ type.values) (by
    simp only [Assignment.Represents, Option.mem_def, Ty.integer?_eq_some])

mutual

/-- The value of an expression. A view of bytes stands for its address. -/
def Expr.evalWith (arith : Arith → Int → Int → Option Int) (σ : Assignment) : Expr → Option Int
  | .lit v => some v
  | .argument a => some (σ.value a)
  | .binary op l r => op.value? arith (l.evalWith arith σ) (r.evalWith arith σ)
  | .byteIndex source key => do
    let (a, offset) ← source.locateWith arith σ
    let k ← key.evalWith arith σ
    σ.byte? a (offset + k)
  | .byteSlice base start _ => do
    let address ← base.evalWith arith σ
    let offset ← start.evalWith arith σ
    return address + offset

/-- The array that a view of bytes lies in, and where in it the view begins. -/
def Expr.locateWith (arith : Arith → Int → Int → Option Int) (σ : Assignment) :
    Expr → Option (Argument × Int)
  | .argument a => some (a, 0)
  | .byteSlice base start _ => do
    let (a, offset) ← base.locateWith arith σ
    let first ← start.evalWith arith σ
    return (a, offset + first)
  | _ => none

end

/-- The exact value of an expression. -/
abbrev Expr.eval? (σ : Assignment) (e : Expr) : Option Int := e.evalWith Arith.exact? σ

def Cond.Holds (σ : Assignment) : Cond → Prop
  | .known b => b = true
  | .symbolic e => IsTrue (e.eval? σ)

instance (σ : Assignment) : DecidablePred (Cond.Holds σ)
  | .known b => inferInstanceAs (Decidable (b = true))
  | .symbolic e => inferInstanceAs (Decidable (IsTrue (e.eval? σ)))

def Fact.Holds (σ : Assignment) (a : Argument) (f : Fact) : Prop :=
  ∃ v, f.operand.eval? σ = some v ∧ f.op.Holds (σ.value a) v

def ComplexFact.Holds (σ : Assignment) (f : ComplexFact) : Prop := IsTrue (f.expr.eval? σ)

instance (σ : Assignment) (a : Argument) (f : Fact) : Decidable (f.Holds σ a) :=
  decidable_of_iff (IsTrue ((Expr.binary (.compare f.op) (.argument a) f.operand).eval? σ)) <| by
    simp only [Expr.eval?, Expr.evalWith, isTrue_compare, Option.some.injEq, exists_and_left,
      exists_eq_left', Fact.Holds]

instance (σ : Assignment) (f : ComplexFact) : Decidable (f.Holds σ) :=
  inferInstanceAs (Decidable (IsTrue _))

def FrameEntry.Holds (σ : Assignment) : FrameEntry → Prop
  | .fact a f => f.Holds σ a
  | .complex _ f => f.Holds σ

/-! ## Operations keep their meaning -/

section

variable {σ : Assignment} {l r : Expr} {a b : Int}

@[simp] theorem Expr.eval?_lit (v : Int) : (Expr.lit v).eval? σ = some v := by
  simp only [Expr.eval?, Expr.evalWith]

@[simp] theorem Expr.eval?_argument (a : Argument) : (Expr.argument a).eval? σ = some (σ.value a) := by
  simp only [Expr.eval?, Expr.evalWith]

theorem Expr.eval?_binary (op : Operator) (l r : Expr) :
    (Expr.binary op l r).eval? σ = op.value? Arith.exact? (l.eval? σ) (r.eval? σ) := by
  simp only [Expr.eval?, Expr.evalWith]

theorem Expr.eq_lit_of_literal? {e : Expr} {v : Int} (h : e.literal? = some v) : e = .lit v := by
  cases e with
  | lit w =>
    cases h
    rfl
  | argument _ => cases h
  | binary _ _ _ => cases h
  | byteIndex _ _ => cases h
  | byteSlice _ _ _ => cases h

/-- An operation means the same whether it was computed while tracing or not, if it was computed
exactly. -/
theorem Expr.eval?_arith {op : Arith} (hexact : ∀ v, op.eval? a b = some v → op.exact? a b = some v)
    (hl : l.eval? σ = some a) (hr : r.eval? σ = some b) : (Expr.arith op l r).eval? σ = op.exact? a b := by
  have hsymbolic : (Expr.binary op l r).eval? σ = op.exact? a b := by
    rw [Expr.eval?_binary, hl, hr]
    rfl
  unfold Expr.arith
  split
  · rename_i x y hx hy
    rw [Expr.eq_lit_of_literal? hx, Expr.eval?_lit, Option.some.injEq] at hl
    rw [Expr.eq_lit_of_literal? hy, Expr.eval?_lit, Option.some.injEq] at hr
    subst hl hr
    cases hvalue : op.eval? x y with
    -- without a value it stays an operation
    | none => exact hsymbolic
    | some v =>
      rw [hexact v hvalue]
      exact Expr.eval?_lit v
  · exact hsymbolic

theorem Expr.eval?_arith_add (hl : l.eval? σ = some a) (hr : r.eval? σ = some b) :
    (Expr.arith .add l r).eval? σ = some (a + b) := by
  refine Expr.eval?_arith ?_ hl hr
  intro v hv
  rw [(Wide.checked_eq_some.1 hv).2]
  rfl

theorem Expr.eval?_arith_sub (hl : l.eval? σ = some a) (hr : r.eval? σ = some b) :
    (Expr.arith .sub l r).eval? σ = some (a - b) := by
  refine Expr.eval?_arith ?_ hl hr
  intro v hv
  rw [(Wide.checked_eq_some.1 hv).2]
  rfl

/-- A comparison means the same whether it was decided while tracing or not. -/
theorem Cond.holds_compare {op : Comparison} :
    (l.compare op r).Holds σ ↔ ∃ a b, l.eval? σ = some a ∧ r.eval? σ = some b ∧ op.Holds a b := by
  unfold Expr.compare
  split
  · rename_i hl hr
    rw [Expr.eq_lit_of_literal? hl, Expr.eq_lit_of_literal? hr]
    simp [Cond.Holds, Expr.eval?, Expr.evalWith]
  · simp only [Cond.Holds, Expr.eval?_binary]
    exact isTrue_compare

end

/-! ## Recording is faithful -/

section

variable {σ : Assignment}

theorem Comparison.isTrue_iff_entry {op : Comparison} {l r : Expr} {x : FrameEntry}
    (h : op.entry? l r = some x) :
    IsTrue ((Expr.binary (.compare op) l r).eval? σ) ↔ x.Holds σ := by
  unfold Comparison.entry? at h
  split at h
  · -- the left side is an argument
    cases h
    rw [Expr.eval?_binary, isTrue_compare]
    simp [FrameEntry.Holds, Fact.Holds]
  · -- the right side is, and the fact tells the comparison from there
    cases h
    rw [Expr.eval?_binary, isTrue_compare]
    simp [FrameEntry.Holds, Fact.Holds, Comparison.holds_reverse]
  · obtain ⟨a, _, rfl⟩ := Option.map_eq_some_iff.1 h
    rfl
  · obtain ⟨a, _, rfl⟩ := Option.map_eq_some_iff.1 h
    rfl
  · cases h

theorem Expr.isTrue_iff_entries {e : Expr} {es : List FrameEntry} (h : e.entries? = some es) :
    IsTrue (e.eval? σ) ↔ ∀ x ∈ es, x.Holds σ := by
  fun_induction Expr.entries? e generalizing es with
  | case1 l r ihl ihr =>
    simp only [Option.bind_eq_bind, Option.bind_eq_some_iff, Option.pure_def, Option.some.injEq] at h
    obtain ⟨ls, hls, rs, hrs, rfl⟩ := h
    rw [Expr.eval?_binary, isTrue_and, ihl hls, ihr hrs]
    simp only [List.mem_append, or_imp, forall_and]
  | case2 op l r =>
    simp only [Option.bind_eq_bind, Option.bind_eq_some_iff, Option.pure_def, Option.some.injEq] at h
    obtain ⟨x, hx, rfl⟩ := h
    rw [Comparison.isTrue_iff_entry hx]
    simp
  | case3 e _ _ => cases h

/-- A condition holds exactly if everything recorded for it does. -/
theorem Cond.holds_iff_entries {c : Cond} {es : List FrameEntry} (h : c.entries? = some es) :
    c.Holds σ ↔ ∀ x ∈ es, x.Holds σ := by
  cases c with
  | known b =>
    cases b with
    | false => cases h
    | true =>
      cases h
      simp [Cond.Holds]
  | symbolic e => exact Expr.isTrue_iff_entries h

theorem holds_iff_entriesOf {cs : List Cond} {es : List FrameEntry} (h : entriesOf? cs = some es) :
    (∀ c ∈ cs, c.Holds σ) ↔ ∀ x ∈ es, x.Holds σ := by
  induction cs generalizing es with
  | nil =>
    cases h
    simp
  | cons c cs ih =>
    rcases entriesOf?_cons.1 h with ⟨xs, hxs, ys, hys, rfl⟩
    simp only [List.mem_cons, forall_eq, List.mem_append, or_imp, forall_and,
      Cond.holds_iff_entries hxs, ih hys]

end

end GuardedC
