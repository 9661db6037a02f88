import GuardedC.IntSet
import GuardedC.Operator

/-!
# Solutions of a comparison

The integers of an interval that compare with a known integer as asked. Main statement:
`mem_solutions`, the set holds these integers and no others.
-/

namespace GuardedC

/-- The integers `v` with `low ≤ v < high` for which `v op literal` holds. -/
def Comparison.solutions (op : Comparison) (literal low high : Int) : IntSet :=
  let next := Wide.next literal
  match op with
  | .eq => .range literal next ∩ .range low high
  | .ne => .range low (min literal high) ∪ .range (max next low) high
  | .lt => .range low (min literal high)
  | .le => .range low (min next high)
  | .gt => .range (max next low) high
  | .ge => .range (max literal low) high

/-- The solutions of an operator, if it is a comparison. -/
def Operator.solutions? : Operator → Int → Int → Int → Option IntSet
  | .compare op, literal, low, high => some (op.solutions literal low high)
  | _, _, _, _ => none

theorem Operator.solutions?_ne_none (op : Comparison) (literal low high : Int) :
    Operator.solutions? op literal low high ≠ none := Option.some_ne_none _

/-- The solutions are exact below the greatest wide integer, also where the literal has no
successor. -/
theorem Comparison.mem_solutions {op : Comparison} {literal low high v : Int} (hh : high ≤ Wide.highest) :
    v ∈ op.solutions literal low high ↔ (low ≤ v ∧ v < high) ∧ op.Holds v literal := by
  have next : Wide.next literal = min (literal + 1) Wide.highest := rfl
  cases op <;> simp only [solutions, Holds, IntSet.mem_inter, IntSet.mem_union, IntSet.mem_range, next] <;>
    omega

end GuardedC
