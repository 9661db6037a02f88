import GuardedC.Proofs.Ranges
import Mathlib.Order.Bounds.Defs

/-!
# How sets are put together

Sets of integers are made of given intervals and joined or cut with one another. A `SetTerm` writes
down how a set is made, and `SetTerm.Contains` which integers it is meant to hold, one case for each
operation.

* `SetTerm.eval_eq_error`: a set is not made exactly if one of the given intervals is improper, and
  then the first of them is reported;
* `SetTerm.mem_of_eval`: a set that is made holds the integers it is meant to hold;
* `SetTerm.eval_exact` adds what the pieces of the set tell of its members: the least and the
  greatest one, and whether there is a gap between two of them.
-/

namespace GuardedC

/-! ## Terms -/

inductive SetTerm where
  /-- The union of intervals that are given by their bounds. -/
  | ofIntervals (ps : List Interval)
  | range (low high : Int)
  | singleton (v : Int)
  | empty
  | default
  | union (a b : SetTerm)
  | inter (a b : SetTerm)
deriving Repr, DecidableEq

namespace SetTerm

/-- Makes the set, unless some interval is improper. -/
def eval : SetTerm → Except IntervalError IntSet
  | ofIntervals ps => IntSet.ofIntervals? ps
  | range low high => .ok (IntSet.range low high)
  | singleton v => .ok (IntSet.singleton v)
  | empty => .ok IntSet.empty
  | default => .ok Inhabited.default
  | union a b => do
    let s ← a.eval
    let t ← b.eval
    return s ∪ t
  | inter a b => do
    let s ← a.eval
    let t ← b.eval
    return s ∩ t

/-- The integer is one of those that the set is meant to hold. The greatest wide integer has no set
of its own. -/
def Contains : SetTerm → Int → Prop
  | ofIntervals ps, v => ∃ p ∈ ps, p.low ≤ v ∧ v < p.high
  | range low high, v => low ≤ v ∧ v < high
  | singleton w, v => v = w ∧ w < Wide.highest
  | empty, _ => False
  | default, _ => False
  | union a b, v => a.Contains v ∨ b.Contains v
  | inter a b, v => a.Contains v ∧ b.Contains v

/-- All intervals given by their bounds, from the left. -/
def intervals : SetTerm → List Interval
  | ofIntervals ps => ps
  | range _ _ | singleton _ | empty | default => []
  | union a b | inter a b => a.intervals ++ b.intervals

end SetTerm

/-! ## Improper intervals -/

/-- The interval has no room for an integer. -/
def Interval.improper (p : Interval) : Bool := decide (p.high ≤ p.low)

theorem IntSet.ofIntervals?_eq_error {ps : List Interval} {e : IntervalError} :
    ofIntervals? ps = .error e ↔ ps.find? Interval.improper = some e.interval := by
  unfold ofIntervals?
  split
  · rename_i p hp
    have hfind : ps.find? Interval.improper = some p := hp
    rcases e with ⟨q⟩
    simp [hfind]
  · rename_i hnone
    have hfind : ps.find? Interval.improper = none := hnone
    simp [hfind]

namespace SetTerm

/-- Where two sets are joined or cut, the left one is made first. -/
theorem eval_pair_eq_error {a b : SetTerm} {op : IntSet → IntSet → IntSet} {e : IntervalError}
    (ha : ∀ e, a.eval = .error e ↔ a.intervals.find? Interval.improper = some e.interval)
    (hb : ∀ e, b.eval = .error e ↔ b.intervals.find? Interval.improper = some e.interval) :
    (do let s ← a.eval
        let t ← b.eval
        return op s t : Except IntervalError IntSet) = .error e ↔
      (a.intervals ++ b.intervals).find? Interval.improper = some e.interval := by
  rw [List.find?_append, except_bind_error, ha]
  cases hfind : a.intervals.find? Interval.improper with
  | some p =>
    -- the set on the left fails, and the one on the right is not looked at
    have hfail : a.eval = .error ⟨p⟩ := (ha ⟨p⟩).2 hfind
    simp [hfail]
  | none =>
    have hmade : ∃ s, a.eval = .ok s := by
      cases heval : a.eval with
      | ok s => exact ⟨s, rfl⟩
      | error e' =>
        rw [ha, hfind] at heval
        cases heval
    obtain ⟨s, hs⟩ := hmade
    have hright : (do
        let t ← b.eval
        return op s t : Except IntervalError IntSet) = .error e ↔ b.eval = .error e := by
      rw [except_bind_error]
      refine or_iff_left ?_
      rintro ⟨t, _, h⟩
      cases h
    simp only [hs, Except.ok.injEq, exists_eq_left', hright, hb, Option.none_or, reduceCtorEq, false_or]

theorem eval_eq_error {t : SetTerm} {e : IntervalError} :
    t.eval = .error e ↔ t.intervals.find? Interval.improper = some e.interval := by
  induction t generalizing e with
  | ofIntervals ps => exact IntSet.ofIntervals?_eq_error
  | union a b iha ihb => exact eval_pair_eq_error (fun _ => iha) (fun _ => ihb)
  | inter a b iha ihb => exact eval_pair_eq_error (fun _ => iha) (fun _ => ihb)
  | _ => simp [eval, intervals]

/-! ## Members -/

theorem mem_of_eval {t : SetTerm} {s : IntSet} (h : t.eval = .ok s) (v : Int) : v ∈ s ↔ t.Contains v := by
  induction t generalizing s with
  | ofIntervals ps =>
    unfold eval IntSet.ofIntervals? at h
    split at h
    · cases h
    · cases h
      exact IntSet.mem_ofIntervals
  | range low high =>
    cases h
    exact IntSet.mem_range
  | singleton w =>
    cases h
    have hnext : Wide.next w = min (w + 1) Wide.highest := rfl
    unfold IntSet.singleton Contains
    rw [IntSet.mem_range, hnext]
    omega
  | empty =>
    cases h
    exact iff_of_false (IntSet.not_mem_empty v) id
  | default =>
    cases h
    exact iff_of_false (IntSet.not_mem_empty v) id
  | union a b iha ihb =>
    simp only [eval, except_bind_ok, except_pure_ok] at h
    obtain ⟨s₁, h₁, s₂, h₂, rfl⟩ := h
    rw [IntSet.mem_union, iha h₁, ihb h₂]
    rfl
  | inter a b iha ihb =>
    simp only [eval, except_bind_ok, except_pure_ok] at h
    obtain ⟨s₁, h₁, s₂, h₂, rfl⟩ := h
    rw [IntSet.mem_inter, iha h₁, ihb h₂]
    rfl

end SetTerm

/-! ## What the pieces tell -/

theorem Separated.pairwise_low {ps : List Interval} (h : Separated ps) :
    ps.Pairwise fun p q => p.low < q.low := by
  refine h.gaps.imp_of_mem ?_
  intro p q hp _ hgap
  have hproper := h.nonempty p hp
  omega

namespace IntSet

theorem contains_iff {s : IntSet} {v : Int} : s.contains v = true ↔ v ∈ s := by
  rw [contains, decide_eq_true_eq]

theorem isEmpty_iff {s : IntSet} : s.isEmpty = true ↔ ∀ v, v ∉ s := by
  rw [← Bool.not_eq_false, isEmpty_eq_false_iff, not_exists]

theorem low_mem {s : IntSet} {low : Int} (hlow : s.low? = some low) : low ∈ s := by
  obtain ⟨first, hfirst, rfl⟩ := Option.map_eq_some_iff.1 hlow
  obtain ⟨rest, hpieces⟩ := List.head?_eq_some_iff.1 hfirst
  have hsep := s.separated
  rw [hpieces] at hsep
  rw [mem_def, hpieces]
  exact hsep.low_mem

/-- One piece has no gap, and two pieces have one between them. -/
theorem isContiguous_iff {s : IntSet} :
    s.isContiguous = true ↔ ∀ a b v, a ∈ s → b ∈ s → a ≤ v → v ≤ b → v ∈ s := by
  have hsep := s.separated
  unfold isContiguous
  simp only [decide_eq_true_eq, mem_def]
  rcases hpieces : s.pieces with _ | ⟨p, _ | ⟨q, ps⟩⟩
  · simp
  · simp only [List.length_singleton, Nat.le_refl, List.mem_singleton, exists_eq_left, true_iff,
      Interval.mem_def]
    intro a b v ha hb hav hvb
    omega
  · rw [hpieces] at hsep
    have hgap : p.high < q.low := (List.pairwise_cons.1 hsep.gaps).1 q (.head _)
    have hproper := hsep.nonempty p (.head _)
    refine iff_of_false (by simp) ?_
    intro hall
    have hq : ∃ r ∈ p :: q :: ps, q.low ∈ r := by
      obtain ⟨r, hr, hmem⟩ := hsep.tail.low_mem
      exact ⟨r, .tail _ hr, hmem⟩
    -- the end of the first piece lies between two members
    exact hsep.high_not_mem (hall p.low q.low p.high hsep.low_mem hq (by omega) (by omega))

theorem bounds_of_isEmpty_eq_false {s : IntSet} (h : s.isEmpty = false) :
    ∃ low high, s.low? = some low ∧ s.high? = some high ∧ IsLeast {v | v ∈ s} low ∧
      IsGreatest {v | v ∈ s} (high - 1) := by
  obtain ⟨v, hv⟩ := isEmpty_eq_false_iff.1 h
  obtain ⟨low, high, hlow, hhigh⟩ := exists_bounds hv
  refine ⟨low, high, hlow, hhigh, ⟨low_mem hlow, ?_⟩, ⟨pred_high_mem hhigh, ?_⟩⟩
  · intro w hw
    exact low_le_of_mem hlow hw
  · intro w hw
    have hlt := lt_high_of_mem hhigh hw
    omega

end IntSet

/-! ## Together -/

/-- A set is made unless an interval is improper, and the first improper one is reported. The pieces
of a set that is made are proper, ascending and apart; it contains the integers that it is meant to
hold; its bounds are its least member and the successor of its greatest; and it is contiguous
exactly if no integer is missing between two members. -/
theorem SetTerm.eval_exact (t : SetTerm) :
    (∀ e, t.eval = .error e ↔
      ∃ before after, t.intervals = before ++ e.interval :: after ∧ (∀ p ∈ before, p.low < p.high) ∧
        e.interval.high ≤ e.interval.low) ∧
    ∀ s, t.eval = .ok s →
      Separated s.pieces ∧ (s.pieces.Pairwise fun p q => p.low < q.low) ∧
      (∀ v, s.contains v = true ↔ t.Contains v) ∧
      (s.isEmpty = true ↔ ∀ v, ¬ t.Contains v) ∧
      (s.isEmpty = false → ∃ low high, s.low? = some low ∧ s.high? = some high ∧
        IsLeast {v | t.Contains v} low ∧ IsGreatest {v | t.Contains v} (high - 1)) ∧
      (s.isContiguous = true ↔
        ∀ a b v, t.Contains a → t.Contains b → a ≤ v → v ≤ b → t.Contains v) := by
  constructor
  · intro e
    rw [eval_eq_error, List.find?_eq_some_iff_append]
    simp only [Interval.improper, decide_eq_true_eq, Bool.not_eq_true', decide_eq_false_iff_not, Int.not_le]
    constructor
    · rintro ⟨himproper, before, after, hsplit, hbefore⟩
      exact ⟨before, after, hsplit, hbefore, himproper⟩
    · rintro ⟨before, after, hsplit, hbefore, himproper⟩
      exact ⟨himproper, before, after, hsplit, hbefore⟩
  · intro s hs
    have hmem : ∀ v, v ∈ s ↔ t.Contains v := mem_of_eval hs
    simp only [← hmem]
    exact ⟨s.separated, s.separated.pairwise_low, fun _ => IntSet.contains_iff, IntSet.isEmpty_iff,
      IntSet.bounds_of_isEmpty_eq_false, IntSet.isContiguous_iff⟩

/-- Intervals out of order, two of which overlap and two of which touch, cut by a range and joined
with a neighbour. -/
def SetTerm.touching : SetTerm :=
  .union (.inter (.ofIntervals [⟨10, 20⟩, ⟨0, 5⟩, ⟨5, 8⟩, ⟨15, 30⟩]) (.range 3 25)) (.singleton 8)

/-- The second and the third interval are improper. -/
def SetTerm.inverted : SetTerm := .inter .default (.ofIntervals [⟨0, 4⟩, ⟨3, 3⟩, ⟨9, 2⟩])

theorem SetTerm.eval_exact_touching :
    (∃ s, touching.eval = .ok s ∧ s.pieces = [⟨3, 9⟩, ⟨10, 25⟩] ∧ s.isContiguous = false ∧
      (s.isEmpty = false → ∃ low high, s.low? = some low ∧ s.high? = some high ∧
        IsLeast {v | touching.Contains v} low ∧ IsGreatest {v | touching.Contains v} (high - 1))) ∧
    inverted.eval = .error ⟨⟨3, 3⟩⟩ ∧
    ∃ before after, inverted.intervals = before ++ ⟨3, 3⟩ :: after ∧ ∀ p ∈ before, p.low < p.high := by
  have hmade : ∃ s, touching.eval = .ok s ∧ s.pieces = [⟨3, 9⟩, ⟨10, 25⟩] := ⟨_, rfl, by decide +kernel⟩
  have hinverted : inverted.eval = .error ⟨⟨3, 3⟩⟩ := by decide
  obtain ⟨s, hs, hpieces⟩ := hmade
  obtain ⟨_, _, _, _, hbounds, _⟩ := (eval_exact touching).2 s hs
  obtain ⟨before, after, hsplit, hbefore, _⟩ := ((eval_exact inverted).1 _).1 hinverted
  refine ⟨⟨s, hs, hpieces, ?_, hbounds⟩, hinverted, before, after, hsplit, hbefore⟩
  rw [IntSet.isContiguous, hpieces]
  decide

end GuardedC
