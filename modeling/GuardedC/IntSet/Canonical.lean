import GuardedC.IntSet

/-!
# Equality of integer sets

Canonical lists of pieces are determined by their members, so two sets with the same members are
equal. Main statements: `IntSet.ext`, and `IntSet.isSubset_iff`, which rests on it.
-/

namespace GuardedC

namespace Separated

/-- Every member lies above the low bound of the first piece. -/
theorem low_le {p : Interval} {ps : List Interval} (h : Separated (p :: ps)) {v : Int}
    (hv : ∃ q ∈ p :: ps, v ∈ q) : p.low ≤ v := by
  obtain ⟨q, hq, hvq⟩ := hv
  have member := Interval.mem_def.1 hvq
  rcases List.mem_cons.1 hq with rfl | hq
  · exact member.1
  · have gap := (List.pairwise_cons.1 h.gaps).1 q hq
    have first := h.nonempty p (.head _)
    omega

theorem low_mem {p : Interval} {ps : List Interval} (h : Separated (p :: ps)) :
    ∃ q ∈ p :: ps, p.low ∈ q := by
  have first := h.nonempty p (.head _)
  exact ⟨p, .head _, Interval.mem_def.2 ⟨by omega, first⟩⟩

/-- The first piece is followed by a gap. -/
theorem high_not_mem {p : Interval} {ps : List Interval} (h : Separated (p :: ps)) :
    ¬ ∃ q ∈ p :: ps, p.high ∈ q := by
  rintro ⟨q, hq, hvq⟩
  rcases List.mem_cons.1 hq with rfl | hq
  · have member := Interval.mem_def.1 hvq
    omega
  · have beyond := h.high_lt ⟨q, hq, hvq⟩
    omega

/-- If two lists have the same members, the first piece of one does not end before that of the
other. -/
theorem high_le_of_same {p q : Interval} {ps qs : List Interval} (hp : Separated (p :: ps))
    (low : p.low = q.low)
    (same : ∀ v, (∃ r ∈ p :: ps, v ∈ r) ↔ ∃ r ∈ q :: qs, v ∈ r) : q.high ≤ p.high := by
  have first := hp.nonempty p (.head _)
  by_cases h : q.high ≤ p.high
  · exact h
  · -- the end of `p` would still be a member, by `q`
    have member : p.high ∈ q := Interval.mem_def.2 ⟨by omega, by omega⟩
    exact absurd ((same p.high).2 ⟨q, .head _, member⟩) hp.high_not_mem

theorem eq_of_same {ps qs : List Interval} (hp : Separated ps) (hq : Separated qs)
    (same : ∀ v, (∃ r ∈ ps, v ∈ r) ↔ ∃ r ∈ qs, v ∈ r) : ps = qs := by
  induction ps generalizing qs with
  | nil =>
    cases qs with
    | nil => rfl
    | cons q qs => simpa using (same q.low).2 hq.low_mem
  | cons p ps ih =>
    cases qs with
    | nil => simpa using (same p.low).1 hp.low_mem
    | cons q qs =>
      have low : p.low = q.low := by
        have left := hq.low_le ((same p.low).1 hp.low_mem)
        have right := hp.low_le ((same q.low).2 hq.low_mem)
        omega
      have high : p.high = q.high := by
        have left := high_le_of_same hp low same
        have right := high_le_of_same hq low.symm fun v => (same v).symm
        omega
      have head : p = q := by
        cases p
        cases q
        simp_all
      subst head
      refine congrArg (p :: ·) (ih hp.tail hq.tail fun v => ?_)
      -- members of the tails are the members beyond the common first piece
      constructor
      · intro hv
        have beyond := hp.high_lt hv
        obtain ⟨r, hr, hvr⟩ := (same v).1 (hv.elim fun r h => ⟨r, .tail _ h.1, h.2⟩)
        rcases List.mem_cons.1 hr with rfl | hr
        · have member := Interval.mem_def.1 hvr
          omega
        · exact ⟨r, hr, hvr⟩
      · intro hv
        have beyond := hq.high_lt hv
        obtain ⟨r, hr, hvr⟩ := (same v).2 (hv.elim fun r h => ⟨r, .tail _ h.1, h.2⟩)
        rcases List.mem_cons.1 hr with rfl | hr
        · have member := Interval.mem_def.1 hvr
          omega
        · exact ⟨r, hr, hvr⟩

end Separated

namespace IntSet

/-- Sets with the same members are equal. -/
theorem ext {s t : IntSet} (h : ∀ v, v ∈ s ↔ v ∈ t) : s = t := by
  have pieces : s.pieces = t.pieces := s.separated.eq_of_same t.separated h
  cases s
  cases t
  simpa using pieces

theorem isSubset_iff {s t : IntSet} : s.isSubset t = true ↔ ∀ v, v ∈ s → v ∈ t := by
  simp only [isSubset, beq_iff_eq]
  constructor
  · intro h v hv
    rw [← h] at hv
    exact (mem_inter.1 hv).2
  · intro h
    apply ext
    intro v
    rw [mem_inter]
    exact and_iff_left_of_imp (h v)

end IntSet

end GuardedC
