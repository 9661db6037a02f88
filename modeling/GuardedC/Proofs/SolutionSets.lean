import GuardedC.Proofs.SetTerm

/-!
# The sets that comparisons imply

A comparison with a known integer leaves, of the integers between two bounds, those for which it
holds. The bounds and the known integer may be any wide integers: the bounds may be crossed, and the
known integer may have no successor. `solutions_exact` says that the set is exact in all these
cases, that it has a gap only where one integer is taken out from between two others, and that
reading the comparison from the other side changes nothing.
-/

namespace GuardedC

/-- The pieces of a set reach no further than its members do. -/
theorem IntSet.bounds_of_forall_mem {s : IntSet} {low high : Int} (h : ∀ v ∈ s, low ≤ v ∧ v < high) :
    ∀ p ∈ s.pieces, low ≤ p.low ∧ p.high ≤ high := by
  intro p hp
  have hproper : p.low < p.high := s.separated.nonempty p hp
  have hfirst : p.low ∈ s := IntSet.mem_def.2 ⟨p, hp, Int.le_refl _, hproper⟩
  have hlast : p.high - 1 ∈ s := IntSet.mem_def.2 ⟨p, hp, by omega, by omega⟩
  have hafter := (h _ hlast).2
  exact ⟨(h _ hfirst).1, by omega⟩

namespace Comparison

variable {op : Comparison} {literal low high : Int}

/-- Only the one integer that an inequality takes out can leave a gap, if there are others on both
sides. -/
theorem isContiguous_solutions (hhigh : high ≤ Wide.highest) :
    (op.solutions literal low high).isContiguous = false ↔
      op = .ne ∧ low < literal ∧ literal + 1 < high := by
  rw [← Bool.not_eq_true, not_iff_comm, IntSet.isContiguous_iff]
  simp only [mem_solutions hhigh]
  constructor
  · intro hgap a b v ha hb hav hvb
    refine ⟨by omega, ?_⟩
    cases op with
    | ne =>
      -- between two members there is the literal only if it lies inside the bounds
      rintro rfl
      have hsides := And.intro ha.2 hb.2
      unfold Holds at hsides
      exact hgap ⟨rfl, by omega, by omega⟩
    | _ =>
      unfold Holds at ha hb ⊢
      omega
  · rintro hall ⟨rfl, hbelow, habove⟩
    have hmissing := hall (literal - 1) (literal + 1) literal ⟨by omega, by unfold Holds; omega⟩
      ⟨by omega, by unfold Holds; omega⟩ (by omega) (by omega)
    exact hmissing.2 rfl

theorem mem_solutions_reverse (hhigh : high ≤ Wide.highest) {v : Int} :
    v ∈ op.solutions literal low high ↔ (low ≤ v ∧ v < high) ∧ op.reverse.Holds literal v := by
  rw [mem_solutions hhigh, holds_reverse]

/-- A comparison has a set of solutions and a reverse, of which it is the reverse again. The pieces
of the set are proper, ascending, apart and within the bounds, with a gap only where one integer
between others is excluded; and the set contains the integers between the bounds for which the
comparison holds, which are those for which its reverse holds with the sides exchanged. -/
theorem solutions_exact (op : Comparison) (literal low : Int) (hhigh : high ≤ Wide.highest) :
    ∃ set reverse, Operator.solutions? op literal low high = some set ∧
      Operator.reverse? op = some (.compare reverse) ∧ Operator.reverse? reverse = some (.compare op) ∧
      Separated set.pieces ∧ (∀ p ∈ set.pieces, low ≤ p.low ∧ p.high ≤ high) ∧
      (set.isContiguous = false ↔ op = .ne ∧ low < literal ∧ literal + 1 < high) ∧
      ∀ v, (set.contains v = true ↔ (low ≤ v ∧ v < high) ∧ op.Holds v literal) ∧
        (set.contains v = true ↔ (low ≤ v ∧ v < high) ∧ reverse.Holds literal v) := by
  refine ⟨op.solutions literal low high, op.reverse, rfl, rfl, ?_, ?_, ?_, isContiguous_solutions hhigh, ?_⟩
  · rw [Operator.reverse?, reverse_reverse]
  · exact (op.solutions literal low high).separated
  · refine IntSet.bounds_of_forall_mem fun v hv => ?_
    exact ((mem_solutions hhigh).1 hv).1
  · intro v
    rw [IntSet.contains_iff]
    exact ⟨mem_solutions hhigh, mem_solutions_reverse hhigh⟩

/-- All wide integers but the greatest are unequal to the greatest, and none of them is beyond
it. -/
theorem solutions_exact_greatest :
    Wide.highest ≤ Wide.highest ∧
      (∃ set reverse, Operator.solutions? Comparison.ne Wide.highest Wide.lowest Wide.highest = some set ∧
        Operator.reverse? Comparison.ne = some (.compare reverse) ∧
          set.pieces = [⟨Wide.lowest, Wide.highest⟩] ∧
        ∀ v, (set.contains v = true ↔ (Wide.lowest ≤ v ∧ v < Wide.highest) ∧ v ≠ Wide.highest) ∧
          (set.contains v = true ↔ (Wide.lowest ≤ v ∧ v < Wide.highest) ∧ reverse.Holds Wide.highest v)) ∧
      ∃ set, Operator.solutions? Comparison.gt Wide.highest Wide.lowest Wide.highest = some set ∧
        set.pieces = [] ∧ ∀ v, ¬ set.contains v = true := by
  have hbound : Wide.highest ≤ Wide.highest := Int.le_refl _
  obtain ⟨unequal, reverse, hunequal, hreverse, _, _, _, _, hmem⟩ :=
    solutions_exact .ne Wide.highest Wide.lowest hbound
  obtain ⟨beyond, _, hbeyond, _, _, _, _, _, hnone⟩ := solutions_exact .gt Wide.highest Wide.lowest hbound
  refine ⟨hbound, ⟨unequal, reverse, hunequal, hreverse, ?_, hmem⟩, beyond, hbeyond, ?_, ?_⟩
  · cases hunequal
    decide
  · cases hbeyond
    decide
  · intro v hv
    have hlater : Wide.highest < v := ((hnone v).1.1 hv).2
    have hbefore : v < Wide.highest := ((hnone v).1.1 hv).1.2
    omega

end Comparison

end GuardedC
