import GuardedC.Wide
import GuardedC.Diagnostic

/-!
# Sets of integers

A finite union of half-open intervals, kept in canonical form: the pieces are in ascending order,
none is empty, and between two of them there is a gap. Two sets with the same members therefore have
the same pieces, and equality of sets is equality of lists.

* `normalize` makes canonical pieces of intervals in any order: it sorts them by their low bounds
  and merges those that overlap or touch, in one pass. What the pass keeps up is `Merged`.
* `sweep` finds the common parts of two canonical lists, with one cursor in each.
* The lemmas `mem_*` say what each operation does to membership.
-/

namespace GuardedC

/-! ## Intervals -/

/-- The integers from `low` up to, and not including, `high`. -/
structure Interval where
  low : Int
  high : Int
deriving Repr, DecidableEq

namespace Interval

instance : Membership Int Interval := ⟨fun p v => p.low ≤ v ∧ v < p.high⟩

theorem mem_def {v : Int} {p : Interval} : v ∈ p ↔ p.low ≤ v ∧ v < p.high := Iff.rfl

instance (v : Int) (p : Interval) : Decidable (v ∈ p) := inferInstanceAs (Decidable (_ ∧ _))

/-- The common part; empty intervals included. -/
def overlap (p q : Interval) : Interval := ⟨max p.low q.low, min p.high q.high⟩

theorem mem_overlap {v : Int} {p q : Interval} : v ∈ p.overlap q ↔ v ∈ p ∧ v ∈ q := by
  simp only [mem_def, overlap]
  omega

/-- The common part in a list, which is empty if they have no integer in common. -/
def common (p q : Interval) : List Interval :=
  if (p.overlap q).low < (p.overlap q).high then [p.overlap q] else []

theorem proper_common {p q r : Interval} (hr : r ∈ p.common q) : r.low < r.high := by
  unfold common at hr
  split at hr
  · cases List.mem_singleton.1 hr
    assumption
  · cases hr

theorem mem_common {v : Int} {p q : Interval} : (∃ r ∈ p.common q, v ∈ r) ↔ v ∈ p ∧ v ∈ q := by
  rw [← mem_overlap]
  unfold common
  split
  · simp
  · rename_i hempty
    refine iff_of_false (by simp) ?_
    intro hv
    have := mem_def.1 hv
    omega

/-- `[low, high)`. -/
def text (p : Interval) : String := s!"[{p.low}, {p.high})"

end Interval

/-! ## Canonical lists of pieces -/

/-- No piece is empty, and each ends before the next begins, with a gap between them. -/
structure Separated (ps : List Interval) : Prop where
  nonempty : ∀ p ∈ ps, p.low < p.high
  gaps : ps.Pairwise fun p q => p.high < q.low

namespace Separated

theorem nil : Separated [] := ⟨by simp, .nil⟩

theorem tail {p : Interval} {ps : List Interval} (h : Separated (p :: ps)) : Separated ps :=
  ⟨fun q hq => h.nonempty q (.tail _ hq), h.gaps.tail⟩

theorem cons {p : Interval} {ps : List Interval} (hp : p.low < p.high)
    (gap : ∀ q ∈ ps, p.high < q.low) (h : Separated ps) : Separated (p :: ps) :=
  ⟨by simpa using ⟨hp, h.nonempty⟩, .cons gap h.gaps⟩

/-- What lies in a later piece lies beyond the end of the first one. -/
theorem high_lt {p : Interval} {ps : List Interval} (h : Separated (p :: ps)) {v : Int}
    (hv : ∃ q ∈ ps, v ∈ q) : p.high < v := by
  obtain ⟨q, hq, hvq⟩ := hv
  have member := Interval.mem_def.1 hvq
  have gap := (List.pairwise_cons.1 h.gaps).1 q hq
  omega

end Separated

/-! ## Sorting -/

/-- Puts an interval in front of the first one that does not begin before it. -/
def insertByLow (p : Interval) : List Interval → List Interval
  | [] => [p]
  | q :: qs => if p.low ≤ q.low then p :: q :: qs else q :: insertByLow p qs

/-- The intervals in the order of their low bounds; those that begin together stay in their
order. -/
def sortByLow (ps : List Interval) : List Interval := ps.foldr insertByLow []

theorem mem_insertByLow {p q : Interval} {ps : List Interval} : q ∈ insertByLow p ps ↔ q = p ∨ q ∈ ps := by
  fun_induction insertByLow p ps with
  | case1 => simp
  | case2 r rs _ => simp
  | case3 r rs _ ih =>
    simp only [List.mem_cons, ih]
    exact or_left_comm

@[simp] theorem mem_sortByLow {q : Interval} {ps : List Interval} : q ∈ sortByLow ps ↔ q ∈ ps := by
  induction ps with
  | nil => exact Iff.rfl
  | cons p ps ih =>
    show q ∈ insertByLow p (sortByLow ps) ↔ _
    rw [mem_insertByLow, ih, List.mem_cons]

theorem pairwise_insertByLow {p : Interval} {ps : List Interval}
    (h : ps.Pairwise fun p q => p.low ≤ q.low) :
    (insertByLow p ps).Pairwise fun p q => p.low ≤ q.low := by
  fun_induction insertByLow p ps with
  | case1 => exact .cons (by simp) .nil
  | case2 r rs before =>
    refine .cons ?_ h
    intro q hq
    rcases List.mem_cons.1 hq with rfl | hq
    · exact before
    · exact Int.le_trans before ((List.pairwise_cons.1 h).1 q hq)
  | case3 r rs after ih =>
    refine .cons ?_ (ih h.tail)
    intro q hq
    rcases mem_insertByLow.1 hq with rfl | hq
    · omega
    · exact (List.pairwise_cons.1 h).1 q hq

theorem pairwise_sortByLow (ps : List Interval) : (sortByLow ps).Pairwise fun p q => p.low ≤ q.low := by
  induction ps with
  | nil => exact .nil
  | cons p ps ih => exact pairwise_insertByLow ih

/-! ## Merging -/

/-- One step of the merge. The pieces so far stand in reverse, the last one first: it grows if the
next interval overlaps or touches it, and otherwise the interval is a piece of its own. -/
def mergeStep : List Interval → Interval → List Interval
  | [], p => [p]
  | last :: out, p =>
    if p.low ≤ last.high then ⟨last.low, max last.high p.high⟩ :: out else p :: last :: out

/-- The canonical pieces of intervals in any order. -/
def normalize (ps : List Interval) : List Interval := ((sortByLow ps).foldl mergeStep []).reverse

/-- What the merge keeps up: the pieces so far, read backwards, are canonical, and none of them
begins after the interval that came last. -/
structure Merged (out : List Interval) (low : Int) : Prop where
  nonempty : ∀ p ∈ out, p.low < p.high
  gaps : out.Pairwise fun p q => q.high < p.low
  begun : ∀ p ∈ out, p.low ≤ low

namespace Merged

variable {out : List Interval} {low : Int}

theorem separated (h : Merged out low) : Separated out.reverse :=
  ⟨by simpa using h.nonempty, List.pairwise_reverse.2 h.gaps⟩

theorem step (h : Merged out low) {p : Interval} (hp : p.low < p.high) (hlow : low ≤ p.low) :
    Merged (mergeStep out p) p.low := by
  cases out with
  | nil => exact ⟨by simpa [mergeStep] using hp, .cons (by simp) .nil, by simp [mergeStep]⟩
  | cons last out =>
    obtain ⟨hproper, hnonempty⟩ := List.forall_mem_cons.1 h.nonempty
    obtain ⟨hgap, hgaps⟩ := List.pairwise_cons.1 h.gaps
    have hbegun : ∀ q ∈ last :: out, q.low ≤ p.low := fun q hq => Int.le_trans (h.begun q hq) hlow
    rw [mergeStep]
    split
    · -- the last piece keeps its low bound, and with it the gap before it
      refine ⟨List.forall_mem_cons.2 ⟨?_, hnonempty⟩, .cons hgap hgaps, ?_⟩
      · show last.low < max last.high p.high
        omega
      · exact List.forall_mem_cons.2 (List.forall_mem_cons.1 hbegun)
    · rename_i hapart
      refine ⟨List.forall_mem_cons.2 ⟨hp, h.nonempty⟩, .cons ?_ h.gaps, ?_⟩
      · intro q hq
        rcases List.mem_cons.1 hq with rfl | hq
        · omega
        · have hbefore := hgap q hq
          omega
      · exact List.forall_mem_cons.2 ⟨Int.le_refl _, hbegun⟩

theorem mem_step (h : Merged out low) {p : Interval} (hlow : low ≤ p.low) {v : Int} :
    (∃ q ∈ mergeStep out p, v ∈ q) ↔ v ∈ p ∨ ∃ q ∈ out, v ∈ q := by
  cases out with
  | nil => simp [mergeStep]
  | cons last out =>
    have hbegun := h.begun last (.head _)
    rw [mergeStep]
    split
    · have hmerged : v ∈ (⟨last.low, max last.high p.high⟩ : Interval) ↔ v ∈ p ∨ v ∈ last := by
        simp only [Interval.mem_def]
        omega
      simp only [List.mem_cons, exists_eq_or_imp, hmerged, or_assoc]
    · simp only [List.mem_cons, exists_eq_or_imp]

/-- The whole pass, over proper intervals in the order of their low bounds. -/
theorem run (h : Merged out low) {ps : List Interval} (hproper : ∀ p ∈ ps, p.low < p.high)
    (hsorted : ps.Pairwise fun p q => p.low ≤ q.low) (hlow : ∀ p ∈ ps, low ≤ p.low) :
    (∃ low', Merged (ps.foldl mergeStep out) low') ∧
      ∀ v, (∃ q ∈ ps.foldl mergeStep out, v ∈ q) ↔ (∃ p ∈ ps, v ∈ p) ∨ ∃ q ∈ out, v ∈ q := by
  induction ps generalizing out low with
  | nil => exact ⟨⟨low, h⟩, by simp⟩
  | cons p ps ih =>
    obtain ⟨hp, hps⟩ := List.forall_mem_cons.1 hproper
    obtain ⟨hnext, hrest⟩ := List.pairwise_cons.1 hsorted
    have hfirst : low ≤ p.low := hlow p (.head _)
    obtain ⟨hmerged, hmem⟩ := ih (h.step hp hfirst) hps hrest hnext
    refine ⟨hmerged, fun v => ?_⟩
    rw [List.foldl_cons, hmem v, h.mem_step hfirst]
    simp only [List.mem_cons, exists_eq_or_imp]
    exact or_left_comm.trans or_assoc.symm

end Merged

section

variable {ps : List Interval} (hproper : ∀ p ∈ ps, p.low < p.high)

include hproper

theorem merged_normalize :
    (∃ low, Merged ((sortByLow ps).foldl mergeStep []) low) ∧
      ∀ v, (∃ q ∈ (sortByLow ps).foldl mergeStep [], v ∈ q) ↔ ∃ p ∈ ps, v ∈ p := by
  have hsorted := pairwise_sortByLow ps
  have hmem : ∀ v, (∃ p ∈ sortByLow ps, v ∈ p) ↔ ∃ p ∈ ps, v ∈ p := fun v => by simp
  have hproper' : ∀ p ∈ sortByLow ps, p.low < p.high := by simpa using hproper
  cases hps : sortByLow ps with
  | nil =>
    rw [hps] at hmem
    exact ⟨⟨0, by simp, .nil, by simp⟩, fun v => hmem v⟩
  | cons first rest =>
    rw [hps] at hsorted hmem hproper'
    -- nothing is merged yet, and the first interval begins before all others
    have hlow : ∀ p ∈ first :: rest, first.low ≤ p.low :=
      List.forall_mem_cons.2 ⟨Int.le_refl _, (List.pairwise_cons.1 hsorted).1⟩
    have hempty : Merged [] first.low := ⟨by simp, .nil, by simp⟩
    obtain ⟨hmerged, hmembers⟩ := hempty.run hproper' hsorted hlow
    refine ⟨hmerged, fun v => ?_⟩
    rw [hmembers v, ← hmem v]
    simp

theorem separated_normalize : Separated (normalize ps) := by
  obtain ⟨⟨low, hmerged⟩, _⟩ := merged_normalize hproper
  exact hmerged.separated

theorem mem_normalize {v : Int} : (∃ q ∈ normalize ps, v ∈ q) ↔ ∃ p ∈ ps, v ∈ p := by
  rw [← (merged_normalize hproper).2 v]
  simp [normalize]

end

/-! ## Common parts -/

/-- The common parts of two lists of pieces. Of the first pieces, the one that ends first is left
behind; the other may still overlap the next one. -/
def sweep : List Interval → List Interval → List Interval
  | p :: ps, q :: qs =>
    p.common q ++ if p.high ≤ q.high then sweep ps (q :: qs) else sweep (p :: ps) qs
  | _, _ => []
termination_by ps qs => ps.length + qs.length

theorem proper_sweep (ps qs : List Interval) : ∀ r ∈ sweep ps qs, r.low < r.high := by
  induction ps, qs using sweep.induct with
  | case1 p ps q qs left right =>
    rw [sweep]
    intro r hr
    rcases List.mem_append.1 hr with hr | hr
    · exact Interval.proper_common hr
    · split at hr
      · exact left r hr
      · exact right r hr
  | case2 ps qs hnone =>
    rw [sweep]
    · simp
    · exact hnone

/-- A piece that ends first meets nothing behind the piece that it is compared with. -/
theorem Separated.not_mem_later {p q : Interval} {qs : List Interval} (h : Separated (q :: qs))
    (hends : p.high ≤ q.high) {v : Int} (hv : v ∈ p) : ¬ ∃ r ∈ qs, v ∈ r := by
  intro hlater
  have hbeyond := h.high_lt hlater
  have hbefore := (Interval.mem_def.1 hv).2
  omega

theorem mem_sweep {ps qs : List Interval} (hps : Separated ps) (hqs : Separated qs) {v : Int} :
    (∃ r ∈ sweep ps qs, v ∈ r) ↔ (∃ p ∈ ps, v ∈ p) ∧ ∃ q ∈ qs, v ∈ q := by
  induction ps, qs using sweep.induct with
  | case1 p ps q qs left right =>
    rw [sweep]
    simp only [List.mem_append, or_and_right, exists_or, Interval.mem_common]
    split
    · rename_i hends
      rw [left hps.tail hqs]
      have hlater := fun hv : v ∈ p => hqs.not_mem_later hends hv
      simp only [List.mem_cons, exists_eq_or_imp]
      grind
    · rename_i hends
      rw [right hps hqs.tail]
      have hlater := fun hv : v ∈ q => hps.not_mem_later (p := q) (by omega) hv
      simp only [List.mem_cons, exists_eq_or_imp]
      grind
  | case2 ps qs hnone =>
    rw [sweep]
    · rcases ps with _ | ⟨p, ps⟩
      · simp
      · rcases qs with _ | ⟨q, qs⟩
        · simp
        · exact (hnone p ps q qs rfl rfl).elim
    · exact hnone

/-! ## The sets -/

/-- A finite union of half-open intervals of integers. -/
structure IntSet where
  /-- The maximal intervals of the set, in ascending order. -/
  pieces : List Interval
  separated : Separated pieces
deriving DecidableEq

namespace IntSet

instance : Repr IntSet := ⟨fun s n => reprPrec s.pieces n⟩

instance : Membership Int IntSet := ⟨fun s v => ∃ p ∈ s.pieces, v ∈ p⟩

theorem mem_def {v : Int} {s : IntSet} : v ∈ s ↔ ∃ p ∈ s.pieces, v ∈ p := Iff.rfl

instance (v : Int) (s : IntSet) : Decidable (v ∈ s) :=
  inferInstanceAs (Decidable (∃ p ∈ s.pieces, v ∈ p))

def empty : IntSet := ⟨[], .nil⟩

instance : EmptyCollection IntSet := ⟨empty⟩

instance : Inhabited IntSet := ⟨empty⟩

/-- The union of proper intervals, in any order. -/
def ofIntervals (ps : List Interval) (proper : ∀ p ∈ ps, p.low < p.high := by decide) : IntSet :=
  ⟨normalize ps, separated_normalize proper⟩

/-- The integers `v` with `low ≤ v < high`. -/
def range (low high : Int) : IntSet :=
  if h : low < high then ⟨[⟨low, high⟩], .cons h (by simp) .nil⟩ else empty

/-- The set of `v` alone. The greatest wide integer has no interval of its own and gives the empty
set. -/
def singleton (v : Int) : IntSet := range v (Wide.next v)

theorem proper_append (s t : IntSet) : ∀ p ∈ s.pieces ++ t.pieces, p.low < p.high :=
  List.forall_mem_append.2 ⟨s.separated.nonempty, t.separated.nonempty⟩

def union (s t : IntSet) : IntSet := ofIntervals (s.pieces ++ t.pieces) (proper_append s t)

def inter (s t : IntSet) : IntSet := ofIntervals (sweep s.pieces t.pieces) (proper_sweep _ _)

instance : Union IntSet := ⟨union⟩

instance : Inter IntSet := ⟨inter⟩

def isEmpty (s : IntSet) : Bool := s.pieces.isEmpty

/-- There is no gap between two members. -/
def isContiguous (s : IntSet) : Bool := s.pieces.length ≤ 1

/-- The least member. -/
def low? (s : IntSet) : Option Int := s.pieces.head?.map (·.low)

/-- The integer after the greatest member. -/
def high? (s : IntSet) : Option Int := s.pieces.getLast?.map (·.high)

def contains (s : IntSet) (v : Int) : Bool := decide (v ∈ s)

/-- Every member of `s` is a member of `t`. -/
def isSubset (s t : IntSet) : Bool := s ∩ t == s

/-- The pieces, joined by bars; a pair of braces when there is none. -/
def text (s : IntSet) : String :=
  if s.isEmpty then "\x7b\x7d" else " | ".intercalate (s.pieces.map Interval.text)

/-! ## Membership -/

@[simp] theorem not_mem_empty (v : Int) : v ∉ (∅ : IntSet) := by
  rintro ⟨p, hp, _⟩
  cases hp

@[simp] theorem mem_ofIntervals {v : Int} {ps : List Interval} {proper : ∀ p ∈ ps, p.low < p.high} :
    v ∈ ofIntervals ps proper ↔ ∃ p ∈ ps, v ∈ p :=
  mem_normalize proper

@[simp] theorem mem_range {v low high : Int} : v ∈ range low high ↔ low ≤ v ∧ v < high := by
  unfold range
  split
  · simp [mem_def, Interval.mem_def]
  · refine iff_of_false (not_mem_empty v) ?_
    omega

@[simp] theorem mem_union {v : Int} {s t : IntSet} : v ∈ s ∪ t ↔ v ∈ s ∨ v ∈ t := by
  show v ∈ ofIntervals (s.pieces ++ t.pieces) (proper_append s t) ↔ _
  simp only [mem_ofIntervals, List.mem_append, or_and_right, exists_or]
  exact Iff.rfl

@[simp] theorem mem_inter {v : Int} {s t : IntSet} : v ∈ s ∩ t ↔ v ∈ s ∧ v ∈ t := by
  show v ∈ ofIntervals (sweep s.pieces t.pieces) (proper_sweep _ _) ↔ _
  rw [mem_ofIntervals]
  exact mem_sweep s.separated t.separated

end IntSet

/-! ## Sets given by their bounds -/

/-- An interval whose low bound is not below its high bound, where a proper one was asked for. -/
structure IntervalError where
  interval : Interval
deriving Repr, DecidableEq

def IntervalError.diagnostic (e : IntervalError) : Diagnostic where
  message := s!"invalid interval {e.interval.text}: low bound must be below high bound"
  code := some "sya::ir"
  help := none

/-- The union of proper intervals. The first improper one is reported. -/
def IntSet.ofIntervals? (ps : List Interval) : Except IntervalError IntSet :=
  match h : ps.find? fun p => decide (p.high ≤ p.low) with
  | some p => .error ⟨p⟩
  | none => .ok (.ofIntervals ps (by simpa using h))

end GuardedC
