import GuardedC.Proofs.GuardText

/-!
# Guards of rows with an empty range

Facts that can be collapsed leave every argument a value, so no range that is computed from facts is
empty. A guard can be written for any rows, though. A row with an empty range has no pieces, and
without pieces there is no clause: its argument is not checked at all. The guard speaks of the other
rows only (`decides_nonempty_ranges`), and is true where these rows are met, although no value meets
the empty one.
-/

namespace GuardedC

theorem clause?_of_isEmpty {r : ArgumentRange} (h : r.range.isEmpty = true) : r.clause? = none := by
  have hpieces : r.range.pieces = [] := List.isEmpty_iff.1 h
  unfold ArgumentRange.clause?
  rw [hpieces]
  split
  · rfl
  · split
    · rfl
    · rfl

/-- Rows with an empty range leave no trace in the guard. -/
theorem guard_filter (rows : List ArgumentRange) :
    ArgumentRange.guard (rows.filter fun r => !r.range.isEmpty) = ArgumentRange.guard rows := by
  unfold ArgumentRange.guard
  rw [List.filterMap_filter]
  congr 2
  apply List.filterMap_congr
  intro r _
  cases hempty : r.range.isEmpty with
  | false => rfl
  | true => simp [clause?_of_isEmpty hempty]

/-- A guard is true exactly if every argument whose range has a member lies in its range. -/
theorem decides_nonempty_ranges {ρ : String → Option Int} {rows : List ArgumentRange}
    (value : ArgumentRange → Int)
    (hρ : ∀ r ∈ rows, ρ r.argument.name = some (value r)) (hvalue : ∀ r ∈ rows, value r ∈ r.possible) :
    Decides ((ArgumentRange.guard rows).eval? ρ) (∀ r ∈ rows, (∃ w, w ∈ r.range) → value r ∈ r.range) := by
  have hkept : ∀ r, r ∈ rows.filter (fun r => !r.range.isEmpty) ↔ r ∈ rows ∧ ∃ w, w ∈ r.range := by
    intro r
    rw [List.mem_filter, Bool.not_eq_true', IntSet.isEmpty_eq_false_iff]
  rw [← guard_filter]
  refine (decides_guard value ?_ ?_ ?_).congr ?_
  · intro r hr
    exact hρ r ((hkept r).1 hr).1
  · intro r hr
    exact hvalue r ((hkept r).1 hr).1
  · intro r hr
    exact ((hkept r).1 hr).2
  · simp only [hkept, and_imp]

section

variable {rows : List ArgumentRange}

/-- Not to look at empty ranges makes no difference exactly if there are none, or if another row is
not met. -/
theorem nonempty_met_iff_met (value : ArgumentRange → Int) :
    ((∀ r ∈ rows, (∃ w, w ∈ r.range) → value r ∈ r.range) ↔ ∀ r ∈ rows, value r ∈ r.range) ↔
      (∀ r ∈ rows, ∃ w, w ∈ r.range) ∨ ∃ r ∈ rows, (∃ w, w ∈ r.range) ∧ value r ∉ r.range := by
  constructor
  · intro hagree
    by_cases hmet : ∀ r ∈ rows, (∃ w, w ∈ r.range) → value r ∈ r.range
    · -- all rows with a member are met, so by agreement all rows are
      left
      intro r hr
      exact ⟨value r, hagree.1 hmet r hr⟩
    · right
      simp only [not_forall] at hmet
      rcases hmet with ⟨r, hr, hmember, hout⟩
      exact ⟨r, hr, hmember, hout⟩
  · rintro (hall | ⟨r, hr, hmember, hout⟩)
    · constructor
      · intro hmet r hr
        exact hmet r hr (hall r hr)
      · intro hmet r hr _
        exact hmet r hr
    · -- one row with a member is not met, so both sides are false
      apply iff_of_false
      · intro hmet
        exact hout (hmet r hr hmember)
      · intro hmet
        exact hout (hmet r hr)

/-- Which values a guard lets through, for any rows and any values of their arguments that are
possible. The text is read as an expression that is true exactly if every row with a nonempty range
is met. So it says that all rows are met, unless some row has an empty range and all others are met;
then it is true although it should not be. -/
theorem guard_true_iff_nonempty_ranges (hnames : ∀ r ∈ rows, isIdentifier r.argument.name = true)
    (value : String → Int) (hvalue : ∀ r ∈ rows, value r.argument.name ∈ r.possible) :
    ∃ guard v, CExpr.parse (ArgumentRange.guard rows).text = some guard ∧
      guard.eval? (fun name => some (value name)) = some v ∧
      (v ≠ 0 ↔ ∀ r ∈ rows, (∃ w, w ∈ r.range) → value r.argument.name ∈ r.range) ∧
      ((v ≠ 0 ↔ ∀ r ∈ rows, value r.argument.name ∈ r.range) ↔
        (∀ r ∈ rows, ∃ w, w ∈ r.range) ∨
          ∃ r ∈ rows, (∃ w, w ∈ r.range) ∧ value r.argument.name ∉ r.range) := by
  rcases (readable_guard hnames).parse with ⟨guard, hparse, heval⟩
  have hdecides :=
    decides_nonempty_ranges (ρ := fun name => some (value name)) (fun r => value r.argument.name)
    (fun _ _ => rfl) hvalue
  rcases hdecides with ⟨v, hv, htrue⟩
  refine ⟨guard, v, hparse, (heval _).trans hv, htrue, ?_⟩
  rw [htrue]
  exact nonempty_met_iff_met fun r => value r.argument.name

end

/-- A byte argument and the values that are left for it. -/
def byteRow (index : Nat) (name : String) (pieces : List Interval)
    (proper : ∀ p ∈ pieces, p.low < p.high := by decide) : ArgumentRange where
  argument := ⟨index, name, .integer ⟨.w8, false⟩, 0⟩
  possible := IntegerType.values ⟨.w8, false⟩
  range := .ofIntervals pieces proper

/-- A row in two pieces that is not met is reported, whatever the range of the other row. -/
theorem guard_true_iff_nonempty_ranges_betweenPieces :
    let rows := [byteRow 0 "arg_0" [⟨0, 10⟩, ⟨20, 30⟩], byteRow 1 "arg_1" []]
    ∃ guard, CExpr.parse (ArgumentRange.guard rows).text = some guard ∧
      guard.eval? (fun _ => some 15) = some 0 := by
  intro rows
  have hnames : ∀ r ∈ rows, isIdentifier r.argument.name = true := by decide +kernel
  have hvalue : ∀ r ∈ rows, (15 : Int) ∈ r.possible := by decide +kernel
  rcases guard_true_iff_nonempty_ranges hnames (fun _ => 15) hvalue with ⟨guard, v, hparse, hv, htrue, _⟩
  have hfalse : ¬ v ≠ 0 := by
    rw [htrue]
    intro hmet
    have hout : (15 : Int) ∉ (byteRow 0 "arg_0" [⟨0, 10⟩, ⟨20, 30⟩]).range := by decide +kernel
    exact hout (hmet _ (.head _) ⟨25, by decide +kernel⟩)
  rw [not_not] at hfalse
  rw [hfalse] at hv
  exact ⟨guard, hparse, hv⟩

/-- No value is left for a byte, and the guard lets all of them through. -/
theorem guard_true_of_empty_range :
    let row := byteRow 0 "arg_0" []
    row.range.isSubset row.possible = true ∧ (∀ v, v ∉ row.range) ∧
      ∃ guard, CExpr.parse (ArgumentRange.guard [row]).text = some guard ∧
        ∀ value : String → Int, value row.argument.name ∈ row.possible →
          guard.eval? (fun name => some (value name)) = some 1 := by
  intro row
  refine ⟨by decide +kernel, ?_, .constant 1 false, by decide +kernel, ?_⟩
  · intro v
    exact IntSet.not_mem_empty v
  · intro value _
    rfl

end GuardedC
