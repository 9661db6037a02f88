/-!
# Wide integers

Every integer that is known while a function is traced is a signed 128-bit integer. Such integers
are carried as `Int`; this module holds the bounds of the format and the ways an operation may treat
a result beyond them: refuse it (`checked`), stop at the bound (`next`), or drop the high bits
(`wrap`).
-/

namespace GuardedC.Wide

/-- The least signed 128-bit integer, `-2 ^ 127`. -/
def lowest : Int := -170141183460469231731687303715884105728

/-- The greatest signed 128-bit integer, `2 ^ 127 - 1`. -/
def highest : Int := 170141183460469231731687303715884105727

/-- How many integers there are of 128 bits, `2 ^ 128`. -/
def count : Nat := 340282366920938463463374607431768211456

/-- `v` can be written in 128 bits. -/
def Fits (v : Int) : Prop := lowest ≤ v ∧ v ≤ highest

instance (v : Int) : Decidable (Fits v) := inferInstanceAs (Decidable (_ ∧ _))

/-- `v` itself when it fits; a result that does not fit is no result. -/
def checked (v : Int) : Option Int := if Fits v then some v else none

/-- The integer after `v`, where the greatest one is followed by itself. -/
def next (v : Int) : Int := min (v + 1) highest

/-- The integer that agrees with `v` in the low 128 bits. -/
def wrap (v : Int) : Int := v.bmod count

/-- The two's complement pattern of `v`. -/
def bits (v : Int) : BitVec 128 := BitVec.ofInt 128 v

theorem checked_eq_some {v w : Int} : checked v = some w ↔ Fits v ∧ w = v := by
  unfold checked
  split <;> simp_all [eq_comm]

end GuardedC.Wide
