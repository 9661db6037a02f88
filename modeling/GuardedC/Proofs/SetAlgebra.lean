import GuardedC.Proofs.SetTerm

/-!
# Equality and the laws of sets

Sets of integers are kept as lists of pieces, and two sets are compared by comparing the lists. This
module says that nothing is lost by that:

* `SetTerm.fits_of_contains`: a set that is made of wide integers holds wide integers only, so it is
  enough to look at those;
* `IntSet.laws`: the pieces of sets obey the laws of an algebra of sets, since pieces are determined
  by members;
* `SetTerm.equality_canonical` puts this together for sets that were made in any way.
-/

namespace GuardedC

/-! ## Wide members -/

namespace SetTerm

/-- All integers that the set is made of are wide. -/
def IsWide : SetTerm → Prop
  | ofIntervals ps => ∀ p ∈ ps, Wide.Fits p.low ∧ Wide.Fits p.high
  | range low high => Wide.Fits low ∧ Wide.Fits high
  | singleton v => Wide.Fits v
  | empty | default => True
  | union a b | inter a b => a.IsWide ∧ b.IsWide

instance decidableIsWide : (t : SetTerm) → Decidable t.IsWide
  | ofIntervals ps => inferInstanceAs (Decidable (∀ p ∈ ps, Wide.Fits p.low ∧ Wide.Fits p.high))
  | range low high => inferInstanceAs (Decidable (Wide.Fits low ∧ Wide.Fits high))
  | singleton v => inferInstanceAs (Decidable (Wide.Fits v))
  | empty | default => isTrue trivial
  | union a b | inter a b =>
    have := decidableIsWide a
    have := decidableIsWide b
    inferInstanceAs (Decidable (a.IsWide ∧ b.IsWide))

/-- What lies between two wide integers is wide. -/
theorem fits_between {low high v : Int} (hlow : Wide.Fits low) (hhigh : Wide.Fits high)
    (hv : low ≤ v ∧ v < high) :
    Wide.Fits v := by
  have hleast : Wide.lowest ≤ low := hlow.1
  have hgreatest : high ≤ Wide.highest := hhigh.2
  constructor
  · omega
  · omega

theorem fits_of_contains {t : SetTerm} (ht : t.IsWide) {v : Int} (hv : t.Contains v) : Wide.Fits v := by
  induction t with
  | ofIntervals ps =>
    rcases hv with ⟨p, hp, hbetween⟩
    exact fits_between (ht p hp).1 (ht p hp).2 hbetween
  | range low high => exact fits_between ht.1 ht.2 hv
  | singleton w =>
    rw [hv.1]
    exact ht
  | empty => exact hv.elim
  | default => exact hv.elim
  | union a b iha ihb =>
    rcases hv with hv | hv
    · exact iha ht.1 hv
    · exact ihb ht.2 hv
  | inter a b iha _ => exact iha ht.1 hv.1

theorem fits_of_mem {t : SetTerm} {s : IntSet} (ht : t.IsWide) (hs : t.eval = .ok s) {v : Int}
    (hv : v ∈ s) :
    Wide.Fits v := by
  have hcontains : t.Contains v := (mem_of_eval hs v).1 hv
  exact fits_of_contains ht hcontains

end SetTerm

/-! ## Laws -/

namespace IntSet

/-- The laws of union and intersection, as equations between the pieces that are kept. -/
structure Laws (A B C : IntSet) : Prop where
  union_comm : (A ∪ B).pieces = (B ∪ A).pieces
  union_assoc : (A ∪ B ∪ C).pieces = (A ∪ (B ∪ C)).pieces
  union_self : (A ∪ A).pieces = A.pieces
  union_empty : (A ∪ ∅).pieces = A.pieces
  empty_union : (∅ ∪ A).pieces = A.pieces
  inter_comm : (A ∩ B).pieces = (B ∩ A).pieces
  inter_assoc : (A ∩ B ∩ C).pieces = (A ∩ (B ∩ C)).pieces
  inter_self : (A ∩ A).pieces = A.pieces
  inter_empty : (A ∩ ∅).pieces = []
  empty_inter : (∅ ∩ A).pieces = []
  union_inter_self : (A ∪ A ∩ B).pieces = A.pieces
  inter_union_self : (A ∩ (A ∪ B)).pieces = A.pieces
  union_inter_distrib : (A ∪ B ∩ C).pieces = ((A ∪ B) ∩ (A ∪ C)).pieces
  inter_union_distrib : (A ∩ (B ∪ C)).pieces = (A ∩ B ∪ A ∩ C).pieces

/-- A law on members is a law on pieces. -/
theorem pieces_eq {s t : IntSet} (h : ∀ v, v ∈ s ↔ v ∈ t) : s.pieces = t.pieces :=
  congrArg pieces (ext h)

theorem laws (A B C : IntSet) : Laws A B C where
  union_comm := pieces_eq fun v => by
    simp only [mem_union]
    exact or_comm
  union_assoc := pieces_eq fun v => by
    simp only [mem_union]
    exact or_assoc
  union_self := pieces_eq fun v => by
    simp only [mem_union]
    exact or_self_iff
  union_empty := pieces_eq fun v => by simp
  empty_union := pieces_eq fun v => by simp
  inter_comm := pieces_eq fun v => by
    simp only [mem_inter]
    exact and_comm
  inter_assoc := pieces_eq fun v => by
    simp only [mem_inter]
    exact and_assoc
  inter_self := pieces_eq fun v => by
    simp only [mem_inter]
    exact and_self_iff
  inter_empty := pieces_eq (t := ∅) fun v => by simp
  empty_inter := pieces_eq (t := ∅) fun v => by simp
  union_inter_self := pieces_eq fun v => by
    simp only [mem_union, mem_inter]
    exact or_iff_left_of_imp And.left
  inter_union_self := pieces_eq fun v => by
    simp only [mem_union, mem_inter]
    exact and_iff_left_of_imp Or.inl
  union_inter_distrib := pieces_eq fun v => by
    simp only [mem_union, mem_inter]
    exact or_and_left
  inter_union_distrib := pieces_eq fun v => by
    simp only [mem_union, mem_inter]
    exact and_or_left

theorem contains_eq_iff {s t : IntSet} {v : Int} : s.contains v = t.contains v ↔ (v ∈ s ↔ v ∈ t) := by
  rw [Bool.eq_iff_iff, contains_iff, contains_iff]

end IntSet

/-! ## Sets that were made -/

/-- Sets that are made of wide integers are equal exactly if they contain the same wide integers,
one is a subset of the other exactly if its wide members are members of the other, and their pieces
obey the laws of an algebra of sets. -/
theorem SetTerm.equality_canonical {a b : SetTerm} {A B : IntSet} (hwideA : a.IsWide) (hwideB : b.IsWide)
    (hA : a.eval = .ok A) (hB : b.eval = .ok B) :
    ((A == B) = true ↔ ∀ v, Wide.Fits v → A.contains v = B.contains v) ∧
      (A.isSubset B = true ↔ ∀ v, Wide.Fits v → A.contains v = true → B.contains v = true) ∧
      ∀ c C, SetTerm.eval c = .ok C → IntSet.Laws A B C := by
  refine ⟨?_, ?_, fun _ C _ => IntSet.laws A B C⟩
  · rw [beq_iff_eq]
    constructor
    · intro heq v _
      rw [heq]
    · intro hsame
      apply IntSet.ext
      intro v
      -- an integer that is not wide is in neither set
      constructor
      · intro hv
        have hfits : Wide.Fits v := fits_of_mem hwideA hA hv
        exact (IntSet.contains_eq_iff.1 (hsame v hfits)).1 hv
      · intro hv
        have hfits : Wide.Fits v := fits_of_mem hwideB hB hv
        exact (IntSet.contains_eq_iff.1 (hsame v hfits)).2 hv
  · rw [IntSet.isSubset_iff]
    simp only [IntSet.contains_iff]
    constructor
    · intro hsubset v _ hv
      exact hsubset v hv
    · intro hsubset v hv
      exact hsubset v (fits_of_mem hwideA hA hv) hv

/-- Three intervals, out of order, two of which touch. -/
def SetTerm.outOfOrder : SetTerm := .ofIntervals [⟨10, 20⟩, ⟨0, 5⟩, ⟨5, 8⟩]

/-- The same set, by way of a larger one that is cut. -/
def SetTerm.cutToSize : SetTerm :=
  .inter (.union (.range (-3) 8) (.range 10 Wide.highest)) (.union (.range 0 20) (.singleton Wide.highest))

theorem SetTerm.equality_canonical_outOfOrder :
    outOfOrder.IsWide ∧ cutToSize.IsWide ∧ ∃ A B, outOfOrder.eval = .ok A ∧ cutToSize.eval = .ok B ∧
      A.pieces = [⟨0, 8⟩, ⟨10, 20⟩] ∧ (A == B) = true ∧
      ((A == B) = true ↔ ∀ v, Wide.Fits v → A.contains v = B.contains v) ∧
      (A.isSubset B = true ↔ ∀ v, Wide.Fits v → A.contains v = true → B.contains v = true) ∧
      ∀ c C, SetTerm.eval c = .ok C → IntSet.Laws A B C := by
  have hwide : outOfOrder.IsWide := by decide
  have hcut : cutToSize.IsWide := by decide
  exact ⟨hwide, hcut, _, _, rfl, rfl, by decide, by decide +kernel, equality_canonical hwide hcut rfl rfl⟩

end GuardedC
