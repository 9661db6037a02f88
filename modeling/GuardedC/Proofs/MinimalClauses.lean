import GuardedC.Proofs.CompileOutcome
import GuardedC.Proofs.GuardComparisons
import GuardedC.Proofs.Reachable
import Mathlib.Data.List.Perm.Subperm

/-!
# Clauses are minimal

The clause of an argument has one comparison for each endpoint of its range that lies strictly
between the bounds of the type. No formula does with less. Going up from one integer to the next, a
comparison by order changes its truth at one place only, its cut, and a formula can change only at
the cuts of its comparisons (`Formula.holds_pred_iff`). Membership in a set changes at every
endpoint (`IntSet.mem_pred_iff`). So every endpoint is a cut.
-/

namespace GuardedC

/-! ## Endpoints -/

namespace IntSet

variable {s : IntSet} {v : Int}

theorem nodup_endpoints (s : IntSet) : s.endpoints.Nodup := by
  have hincreasing : s.endpoints.Pairwise (· < ·) := by
    unfold endpoints
    rw [List.pairwise_flatMap]
    constructor
    · intro p hp
      have hproper := s.separated.nonempty p hp
      simpa using hproper
    · refine s.separated.gaps.imp_of_mem ?_
      intro p q hp hq hgap
      have hp' := s.separated.nonempty p hp
      have hq' := s.separated.nonempty q hq
      simp only [List.mem_cons, List.not_mem_nil, or_false]
      omega
  exact hincreasing.imp fun h => Int.ne_of_lt h

/-- Two pieces are the same, or there is a gap between them. -/
theorem apart {p q : Interval} (hp : p ∈ s.pieces) (hq : q ∈ s.pieces) :
    q = p ∨ q.high < p.low ∨ p.high < q.low := by
  rcases List.append_of_mem hp with ⟨before, after, hsplit⟩
  have hgaps := s.separated.gaps
  rw [hsplit, List.pairwise_append, List.pairwise_cons] at hgaps
  rw [hsplit, List.mem_append, List.mem_cons] at hq
  rcases hq with hq | hq | hq
  · exact .inr (.inl (hgaps.2.2 q hq p (.head _)))
  · exact .inl hq
  · exact .inr (.inr (hgaps.2.1.1 q hq))

/-- From right before a piece to right behind it, a set has the members of the piece. -/
theorem mem_iff_of_near {p : Interval} (hp : p ∈ s.pieces) (hlow : p.low - 1 ≤ v) (hhigh : v ≤ p.high) :
    v ∈ s ↔ v ∈ p := by
  constructor
  · rintro ⟨q, hq, hv⟩
    rcases apart hp hq with rfl | hbefore | hafter
    · exact hv
    · have hend := (Interval.mem_def.1 hv).2
      omega
    · have hbegin := (Interval.mem_def.1 hv).1
      omega
  · intro hv
    exact ⟨p, hp, hv⟩

/-- At an endpoint a set begins or ends. -/
theorem mem_pred_iff (hv : v ∈ s.endpoints) : v - 1 ∈ s ↔ v ∉ s := by
  unfold endpoints at hv
  rcases List.mem_flatMap.1 hv with ⟨p, hp, hv⟩
  have hproper := s.separated.nonempty p hp
  -- `v` is the first member of the piece, or the first integer behind it
  simp only [List.mem_cons, List.not_mem_nil, or_false] at hv
  rw [mem_iff_of_near hp (by omega) (by omega), mem_iff_of_near hp (by omega) (by omega), Interval.mem_def,
    Interval.mem_def]
  omega

end IntSet

/-! ## Formulas -/

/-- A comparison by order. -/
inductive Inequality where
  | lt
  | gt
  | le
  | ge
deriving Repr, DecidableEq

namespace Inequality

def comparison : Inequality → Comparison
  | lt => .lt
  | gt => .gt
  | le => .le
  | ge => .ge

/-- `x op c` is true below this integer and false from it on, or the other way round. -/
def cut : Inequality → Int → Int
  | lt, c | ge, c => c
  | le, c | gt, c => c + 1

/-- The same for `c op x`. -/
def cutFrom : Inequality → Int → Int
  | le, c | gt, c => c
  | lt, c | ge, c => c + 1

end Inequality

/-- Conditions on an integer: comparisons with constants by order, which may be combined in any
way. -/
inductive Formula where
  | known (truth : Bool)
  /-- The integer is compared with the constant. -/
  | compare (op : Inequality) (constant : Int)
  /-- The constant is compared with the integer. -/
  | compareFrom (constant : Int) (op : Inequality)
  | not (φ : Formula)
  | and (φ ψ : Formula)
  | or (φ ψ : Formula)
deriving Repr, DecidableEq

namespace Formula

/-- The formula is true of the integer. -/
def Holds (x : Int) : Formula → Prop
  | known truth => truth = true
  | compare op c => op.comparison.Holds x c
  | compareFrom c op => op.comparison.Holds c x
  | not φ => ¬ φ.Holds x
  | and φ ψ => φ.Holds x ∧ ψ.Holds x
  | or φ ψ => φ.Holds x ∨ ψ.Holds x

/-- How many comparisons stand in the formula. -/
def comparisons : Formula → Nat
  | known _ => 0
  | compare _ _ | compareFrom _ _ => 1
  | not φ => φ.comparisons
  | and φ ψ | or φ ψ => φ.comparisons + ψ.comparisons

/-- Where the comparisons change. -/
def cuts : Formula → List Int
  | known _ => []
  | compare op c => [op.cut c]
  | compareFrom c op => [op.cutFrom c]
  | not φ => φ.cuts
  | and φ ψ | or φ ψ => φ.cuts ++ ψ.cuts

variable {φ : Formula}

theorem length_cuts (φ : Formula) : φ.cuts.length = φ.comparisons := by
  induction φ with
  | known _ => rfl
  | compare _ _ => rfl
  | compareFrom _ _ => rfl
  | not φ ih => exact ih
  | and φ ψ ihφ ihψ => rw [cuts, List.length_append, ihφ, ihψ, comparisons]
  | or φ ψ ihφ ihψ => rw [cuts, List.length_append, ihφ, ihψ, comparisons]

/-- Where no comparison changes, the formula does not change either. -/
theorem holds_pred_iff {v : Int} (hv : v ∉ φ.cuts) : φ.Holds (v - 1) ↔ φ.Holds v := by
  induction φ with
  | known _ => rfl
  | compare op c =>
    have hne : v ≠ op.cut c := fun heq => hv (List.mem_singleton.2 heq)
    cases op <;> simp only [Inequality.cut] at hne <;>
      simp only [Holds, Inequality.comparison, Comparison.Holds] <;> omega
  | compareFrom c op =>
    have hne : v ≠ op.cutFrom c := fun heq => hv (List.mem_singleton.2 heq)
    cases op <;> simp only [Inequality.cutFrom] at hne <;>
      simp only [Holds, Inequality.comparison, Comparison.Holds] <;> omega
  | not φ ih => exact not_congr (ih hv)
  | and φ ψ ihφ ihψ =>
    rw [cuts, List.mem_append, not_or] at hv
    exact and_congr (ihφ hv.1) (ihψ hv.2)
  | or φ ψ ihφ ihψ =>
    rw [cuts, List.mem_append, not_or] at hv
    exact or_congr (ihφ hv.1) (ihψ hv.2)

/-- A formula that tells the members of a set between two bounds has a comparison for each endpoint
between them. -/
theorem length_endpoints_le {s : IntSet} {low high : Int}
    (hφ : ∀ v, low ≤ v → v < high → (φ.Holds v ↔ v ∈ s)) :
    (s.endpoints.filter fun v => low < v ∧ v < high).length ≤ φ.comparisons := by
  rw [← length_cuts]
  have hnodup : (s.endpoints.filter fun v => low < v ∧ v < high).Nodup := s.nodup_endpoints.filter _
  refine (List.subperm_of_subset hnodup ?_).length_le
  intro v hv
  rw [List.mem_filter, decide_eq_true_eq] at hv
  rcases hv with ⟨hendpoint, hlow, hhigh⟩
  by_contra hcut
  -- the set changes at `v`, and the formula does not
  have hset := IntSet.mem_pred_iff hendpoint
  have hformula := holds_pred_iff hcut
  rw [hφ (v - 1) (by omega) (by omega), hφ v (by omega) hhigh, hset] at hformula
  exact not_iff_self hformula

end Formula

/-! ## Clauses -/

/-- A restricted argument has a clause. -/
theorem ArgumentRange.Exact.exists_clause {f : Frame} {r : ArgumentRange} (h : r.Exact f)
    (hne : r.range ≠ r.possible) : ∃ e, r.clause? = some e := by
  rw [← Option.ne_none_iff_exists']
  intro hnone
  -- without a clause all possible values are in the range
  apply hne
  apply IntSet.ext
  intro v
  constructor
  · intro hv
    exact ((h.refines.mem v).1 hv).1
  · intro hv
    exact mem_of_clause?_none hnone hv h.exists_mem

section

variable {id : FrameId} {f : Frame} {s s' : Session} {rows : List ArgumentRange} {r : ArgumentRange}

/-- The clause of a row that is restricted says that the argument lies in its range, and it has as
many comparisons as the range has endpoints strictly between the bounds of the type. Every formula
of order comparisons that tells the range from the other values of the type has at least that
many. -/
theorem clause_minimal (hlaid : f.Laid id) (hcollapse : Returns f.collapse s rows s') (hr : r ∈ rows)
    (hrestricted : r.range ≠ r.possible) :
    ∃ type clause tree, r.argument.ty = .integer type ∧ r.possible = type.values ∧ r.clause? = some clause ∧
      CExpr.parse clause.text = some tree ∧
      (∀ ρ v, ρ r.argument.name = some v → v ∈ type.values → Decides (tree.eval? ρ) (v ∈ r.range)) ∧
      tree.comparisons.length = (r.range.endpoints.filter fun v => type.low < v ∧ v < type.high).length ∧
      ∀ φ : Formula, (∀ v ∈ type.values, φ.Holds v ↔ v ∈ r.range) →
        tree.comparisons.length ≤ φ.comparisons := by
  have hrows : f.RowsOf f.arguments rows := Frame.rowsOf_of_rangesOf (Frame.returns_collapse hcollapse)
  have hexact := hrows.exact r hr
  rcases hexact.typed with ⟨type, htype, hpossible⟩
  rcases hexact.exists_clause hrestricted with ⟨clause, hclause⟩
  have hname := hlaid.signature.identifier _ (hrows.argument_mem r hr)
  have hreadable := (conjunct_clause hname hclause).1
  have hcount : clause.reading.comparisons.length =
      (r.range.endpoints.filter fun v => type.low < v ∧ v < type.high).length := by
    have hchecks := (checks_clause hclause).reading hreadable.ordered
    rw [← hchecks.forall₂_comparisons.length_eq, ArgumentRange.namedBounds, List.length_map,
      hexact.bounds_eq hrestricted hpossible]
  refine ⟨type, clause, clause.reading, htype, hpossible, hclause,
    CExpr.parse_text hreadable.spelled hreadable.grouped, ?_, hcount, ?_⟩
  · intro ρ v hρ hv
    rw [CExpr.eval?_reading hreadable.ordered]
    exact decides_clause hclause hρ (hpossible ▸ hv)
  · intro φ hφ
    rw [hcount]
    apply Formula.length_endpoints_le
    intro v hlow hhigh
    exact hφ v (IntSet.mem_range.2 ⟨hlow, hhigh⟩)

end

/-- A signed byte. -/
def signedByte : Argument := ⟨0, "arg_0", .integer ⟨.w8, true⟩, 0⟩

/-- A frame of a signed byte, with facts about it. -/
def signedByteFrame (facts : List Fact) : Frame :=
  (Frame.ofSlots [⟨[signedByte], .int (.argument signedByte)⟩]).enterAll (facts.map (.fact signedByte))

/-- A lower bound and an excluded value leave two pieces, up to the greatest value of the type. No
formula tells them with less than three comparisons. -/
theorem clause_minimal_twoPieces :
    let f := signedByteFrame [⟨.ge, .lit (-3)⟩, ⟨.ne, .lit 5⟩]
    let r : ArgumentRange := ⟨signedByte, IntegerType.values ⟨.w8, true⟩, .ofIntervals [⟨-3, 5⟩, ⟨6, 128⟩]⟩
    (∃ s', Returns f.collapse Session.empty [r] s') ∧
      ∃ clause tree, r.clause? = some clause ∧ CExpr.parse clause.text = some tree ∧
        tree.comparisons.length = 3 ∧
        ∀ φ : Formula, (∀ v ∈ IntegerType.values ⟨.w8, true⟩, φ.Holds v ↔ v ∈ r.range) →
          3 ≤ φ.comparisons := by
  intro f r
  have hlayout : Layout 0 0 0 [.integer ⟨.w8, true⟩] [⟨[signedByte], .int (.argument signedByte)⟩] :=
    .integer (by decide +kernel) .nil
  have hlaid : f.Laid 0 := ⟨_, _, _, hlayout, rfl⟩
  have hcollapse : Returns f.collapse Session.empty [r] (f.collapse.run.run Session.empty).2 :=
    Prod.ext (by decide +kernel) rfl
  have hrestricted : r.range ≠ r.possible := by decide +kernel
  rcases clause_minimal hlaid hcollapse (.head _) hrestricted with
    ⟨type, clause, tree, htype, _, hclause, hparse, _, hcount, hminimal⟩
  cases htype
  have hthree : (r.range.endpoints.filter fun v =>
      IntegerType.low ⟨.w8, true⟩ < v ∧ v < IntegerType.high ⟨.w8, true⟩).length = 3 := by
    decide +kernel
  rw [hthree] at hcount
  rw [hcount] at hminimal
  exact ⟨⟨_, hcollapse⟩, clause, tree, hclause, hparse, hcount, hminimal⟩

end GuardedC
