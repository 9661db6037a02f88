import GuardedC.Proofs.CText.Rendering

/-!
# C integers

The value of an expression by the rules of C, where `int` has 32 bits and `long long` has 64.
Operands that are narrower than `int` are promoted to it, and most operators bring their operands to
a common type. Unsigned types wrap around. There is no value (`CTree.value?` is `none`) where C
leaves the behaviour undefined: a result that a signed type does not have, a division by zero, a
shift by less than nothing or by the whole width, a shift of a negative integer to the left, a byte
outside of its array.

An integer is written so that C reads it as the same integer (`CTree.value?_ofInt`).
-/

namespace GuardedC

/-! ## Types -/

namespace IntegerType

def int : IntegerType := ⟨.w32, true⟩

def long : IntegerType := ⟨.w64, true⟩

/-- Narrow integers are computed with as `int`. -/
def promoted (t : IntegerType) : IntegerType := if t.bits < int.bits then int else t

/-- The type that promoted operands are brought to: the wider one, and the unsigned one of two types
that are equally wide. -/
def common (t u : IntegerType) : IntegerType :=
  if t.bits < u.bits then u
  else if u.bits < t.bits then t
  else ⟨t.width, t.signed && u.signed⟩

/-- An integer brought to a common type. If that is signed, it has all values of both operands. -/
def convert (t : IntegerType) (v : Int) : Int := if t.signed then v else v % t.width.count

/-- The result of an operation in the type. -/
def result? (t : IntegerType) (v : Int) : Option Int :=
  if t.signed then
    if t.low ≤ v ∧ v < t.high then some v else none
  else some (v % t.width.count)

/-- The type of a decimal constant, which is the first of its list that has the value. -/
def ofConstant? (value : Nat) (ull : Bool) : Option IntegerType :=
  (if ull then [⟨.w64, false⟩] else [int, long]).find? fun t => decide ((value : Int) < t.high)

end IntegerType

/-! ## Values -/

/-- A value of C: an integer of some type, or a pointer to a byte of an array. -/
inductive CValue where
  | integer (type : IntegerType) (value : Int)
  | pointer (bytes : List UInt8) (offset : Int)
deriving Repr, DecidableEq

namespace CValue

/-- Whether the value counts as true. A pointer into an array is not null. -/
def IsTrue : CValue → Prop
  | integer _ v => v ≠ 0
  | pointer _ _ => True

instance : DecidablePred IsTrue
  | integer _ v => inferInstanceAs (Decidable (v ≠ 0))
  | pointer _ _ => isTrue trivial

/-- A truth value is an `int`. -/
def ofProp (p : Prop) [Decidable p] : CValue := integer .int (truth p)

/-- `-x`. -/
def negate? : CValue → Option CValue
  | integer t v => (t.promoted.result? (-v)).map (integer t.promoted)
  | pointer _ _ => none

/-- `array[key]`. -/
def index? : CValue → CValue → Option CValue
  | pointer bytes i, integer _ k =>
    if 0 ≤ i + k then bytes[(i + k).toNat]?.map fun byte => integer ⟨.w8, false⟩ byte.toNat else none
  | _, _ => none

end CValue

/-! ## Operators -/

/-- An operation on integers of one type; of a shift, the right operand is of any type. Negative
integers are shifted to the right as implementations do it, towards minus infinity. -/
def Arith.inType? (t : IntegerType) : Arith → Int → Int → Option Int
  | add, a, b => t.result? (a + b)
  | sub, a, b => t.result? (a - b)
  | mul, a, b => t.result? (a * b)
  | div, a, b => if b = 0 then none else t.result? (a.tdiv b)
  | shl, a, b => if 0 ≤ a ∧ 0 ≤ b ∧ b < t.bits then t.result? (a <<< b.toNat) else none
  | shr, a, b => if 0 ≤ b ∧ b < t.bits then some (a >>> b.toNat) else none
  | bitOr, a, b => some (a.lor b)
  | bitXor, a, b => some (a.xor b)
  | bitAnd, a, b => some (a.land b)

/-- The operators whose operands are not brought to a common type. -/
def Arith.isShift : Arith → Bool
  | shl | shr => true
  | _ => false

/-- An operation on values. Of those on pointers there is only the one that moves a pointer on. -/
def Arith.cValue? (op : Arith) : CValue → CValue → Option CValue
  | .integer t a, .integer u b =>
    if op.isShift then (op.inType? t.promoted a b).map (.integer t.promoted)
    else
      let c := t.promoted.common u.promoted
      (op.inType? c (c.convert a) (c.convert b)).map (.integer c)
  | .pointer bytes i, .integer _ k =>
    if op = add ∧ 0 ≤ i + k ∧ i + k ≤ bytes.length then some (.pointer bytes (i + k)) else none
  | _, _ => none

/-- A comparison of integers. -/
def Comparison.cValue? (op : Comparison) : CValue → CValue → Option CValue
  | .integer t a, .integer u b =>
    let c := t.promoted.common u.promoted
    some (.ofProp (op.Holds (c.convert a) (c.convert b)))
  | _, _ => none

/-- An operator on operands that may have no value. -/
def Operator.cValue? : Operator → Option CValue → Option CValue → Option CValue
  | .arith op, l, r => do
    let a ← l
    let b ← r
    op.cValue? a b
  | .compare op, l, r => do
    let a ← l
    let b ← r
    op.cValue? a b
  | .connect .and, l, r => do
    let a ← l
    if a.IsTrue then return .ofProp (← r).IsTrue
    return .ofProp False
  | .connect .or, l, r => do
    let a ← l
    if a.IsTrue then return .ofProp True
    return .ofProp (← r).IsTrue

/-! ## Expressions -/

/-- The value of an expression, where names have the given values. -/
def CTree.value? (ρ : String → Option CValue) : CTree → Option CValue
  | name id => ρ id
  | constant value ull => (IntegerType.ofConstant? value ull).map (.integer · value)
  | negate e => do (← e.value? ρ).negate?
  | binary op l r => op.cValue? (l.value? ρ) (r.value? ρ)
  | index array key => do
    let a ← array.value? ρ
    let k ← key.value? ρ
    a.index? k

/-- An argument as C has it: an integer of its type, or a pointer to the first byte of its array. -/
def Assignment.cValue? (σ : Assignment) (a : Argument) : Option CValue :=
  match a.ty with
  | .integer type => some (.integer type (σ.value a))
  | .byteArray _ => some (.pointer (σ.bytes a) 0)
  | .void => none

/-- The values of the arguments, by their names. -/
def Assignment.cValues (σ : Assignment) (args : List Argument) (name : String) : Option CValue :=
  (args.find? fun a => a.name == name).bind σ.cValue?

theorem Signature.cValues_eq {id : FrameId} {args : List Argument} (h : Signature id args) {a : Argument}
    (ha : a ∈ args) (σ : Assignment) : σ.cValues args a.name = σ.cValue? a := by
  simp [Assignment.cValues, h.find?_name ha]

section

variable {ρ : String → Option CValue}

theorem IntegerType.ofConstant?_plain {n : Nat} (h : n ≤ CExpr.longMax) :
    ∃ t, ofConstant? n false = some t ∧ (t = int ∨ t = long) ∧ (n : Int) < t.high := by
  by_cases hint : (n : Int) < int.high
  · refine ⟨int, ?_, .inl rfl, hint⟩
    simp [ofConstant?, hint]
  · have hlong : (n : Int) < long.high := by
      have hhigh : long.high = 9223372036854775808 := by decide
      have hmax : CExpr.longMax = 9223372036854775807 := rfl
      omega
    refine ⟨long, ?_, .inr rfl, hlong⟩
    simp [ofConstant?, hint, hlong]

theorem IntegerType.ofConstant?_marked {n : Nat} (h : n ≤ CExpr.unsignedMax) :
    ofConstant? n true = some ⟨.w64, false⟩ := by
  have hhigh : (n : Int) < IntegerType.high ⟨.w64, false⟩ := by
    have hcount : IntegerType.high ⟨.w64, false⟩ = 18446744073709551616 := by decide
    have hmax : CExpr.unsignedMax = 18446744073709551615 := rfl
    omega
  simp [ofConstant?, hhigh]

/-- The negative of a constant has the type of the constant. -/
theorem CTree.value?_negate_constant {n : Nat} (h : n ≤ CExpr.longMax) :
    ∃ t, (t = IntegerType.int ∨ t = IntegerType.long) ∧
      (CTree.negate (.constant n false)).value? ρ = some (.integer t (-n)) := by
  rcases IntegerType.ofConstant?_plain h with ⟨t, htype, ht, hhigh⟩
  refine ⟨t, ht, ?_⟩
  have hpromoted : t.promoted = t := by
    rcases ht with rfl | rfl <;> rfl
  have hlow : t.low ≤ -(n : Int) ∧ -(n : Int) < t.high := by
    rcases ht with rfl | rfl
    · have hlow : IntegerType.int.low = -2147483648 := by decide
      have hhigh' : IntegerType.int.high = 2147483648 := by decide
      omega
    · have hlow : IntegerType.long.low = -9223372036854775808 := by decide
      have hhigh' : IntegerType.long.high = 9223372036854775808 := by decide
      omega
  have hsigned : t.signed = true := by
    rcases ht with rfl | rfl <;> rfl
  simp [CTree.value?, htype, CValue.negate?, hpromoted, IntegerType.result?, hsigned, hlow]

/-- An integer of C's widest types has its own value when it is written, in a type that reaches up
to it. This type is unsigned only if no signed type does. -/
theorem CTree.typed_ofInt {v : Int} (h : CExpr.InWidest v) :
    ∃ t : IntegerType, (CTree.ofInt v).value? ρ = some (.integer t v) ∧ v < t.high ∧
      (t.signed = true ∨ v > CExpr.longMax) := by
  rcases h with ⟨hlow, hhigh⟩
  unfold CTree.ofInt
  by_cases hleast : v = -CExpr.longMax - 1
  · rw [if_pos hleast, hleast]
    exact ⟨.long, rfl, by decide, .inl rfl⟩
  · rw [if_neg hleast]
    by_cases hneg : v < 0
    · rw [if_pos hneg]
      rcases CTree.value?_negate_constant (ρ := ρ) (n := v.natAbs) (by omega) with ⟨t, ht, htree⟩
      have hvalue : -(v.natAbs : Int) = v := by omega
      rw [hvalue] at htree
      have hsigned : 0 < t.high ∧ t.signed = true := by
        rcases ht with rfl | rfl <;> decide
      exact ⟨t, htree, by omega, .inl hsigned.2⟩
    · rw [if_neg hneg]
      have hvalue : ((v.toNat : Nat) : Int) = v := by omega
      by_cases hlong : v > CExpr.longMax
      · have htype := IntegerType.ofConstant?_marked (n := v.toNat) (by omega)
        have hcount : IntegerType.high ⟨.w64, false⟩ = CExpr.unsignedMax + 1 := by decide
        refine ⟨⟨.w64, false⟩, ?_, by omega, .inr hlong⟩
        rw [decide_eq_true hlong]
        simp only [CTree.value?, htype, Option.map_some, hvalue]
      · rcases IntegerType.ofConstant?_plain (n := v.toNat) (by omega) with ⟨t, htype, ht, hreach⟩
        have hsigned : t.signed = true := by
          rcases ht with rfl | rfl <;> rfl
        refine ⟨t, ?_, by omega, .inl hsigned⟩
        rw [decide_eq_false hlong]
        simp only [CTree.value?, htype, Option.map_some, hvalue]

theorem CTree.value?_ofInt {v : Int} (h : CExpr.InWidest v) :
    ∃ t, (CTree.ofInt v).value? ρ = some (.integer t v) := by
  rcases CTree.typed_ofInt (ρ := ρ) h with ⟨t, ht, _⟩
  exact ⟨t, ht⟩

/-! ## Conversions -/

/-- A signed type has no value beyond those of the widest signed type. -/
theorem IntegerType.high_le_of_signed {t : IntegerType} (h : t.signed = true) :
    t.high ≤ CExpr.longMax + 1 := by
  rcases t with ⟨width, signed⟩
  cases h
  cases width <;> decide

/-- The common type of two operands has room for all nonnegative values of both. -/
theorem IntegerType.high_le_common (t u : IntegerType) :
    t.high ≤ (t.promoted.common u.promoted).width.count ∧
      u.high ≤ (t.promoted.common u.promoted).width.count := by
  rcases t with ⟨width, signed⟩
  rcases u with ⟨width', signed'⟩
  cases width <;> cases signed <;> cases width' <;> cases signed' <;> decide

theorem IntegerType.signed_common {t u : IntegerType} (ht : t.signed = true) (hu : u.signed = true) :
    (t.promoted.common u.promoted).signed = true := by
  rcases t with ⟨width, signed⟩
  rcases u with ⟨width', signed'⟩
  cases ht
  cases hu
  cases width <;> cases width' <;> decide

/-- Operands keep their values if no negative one meets an unsigned one. -/
theorem IntegerType.convert_common {t u : IntegerType} {a b : Int} (ha : a < t.high) (hb : b < u.high)
    (hsign : t.signed = true ∧ u.signed = true ∨ 0 ≤ a ∧ 0 ≤ b) :
    (t.promoted.common u.promoted).convert a = a ∧ (t.promoted.common u.promoted).convert b = b := by
  unfold convert
  rcases hsign with ⟨ht, hu⟩ | ⟨ha', hb'⟩
  · rw [if_pos (signed_common ht hu), if_pos (signed_common ht hu)]
    exact ⟨rfl, rfl⟩
  · split
    · exact ⟨rfl, rfl⟩
    · have hroom := high_le_common t u
      exact ⟨Int.emod_eq_of_lt ha' (by omega), Int.emod_eq_of_lt hb' (by omega)⟩

theorem Comparison.cValue?_eq {t u : IntegerType} {a b : Int} (ha : a < t.high) (hb : b < u.high)
    (hsign : t.signed = true ∧ u.signed = true ∨ 0 ≤ a ∧ 0 ≤ b) (op : Comparison) :
    op.cValue? (.integer t a) (.integer u b) = some (.ofProp (op.Holds a b)) := by
  rcases IntegerType.convert_common ha hb hsign with ⟨hkeep, hkeep'⟩
  simp only [Comparison.cValue?, hkeep, hkeep']

end

end GuardedC
