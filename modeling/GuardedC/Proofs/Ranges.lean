import GuardedC.ArgumentRange
import GuardedC.IntSet.Canonical
import GuardedC.Proofs.Meaning

/-!
# Ranges are exact

The range of an argument holds exactly the values of its type for which every fact about the
argument holds.

* `IntSet.mem_restrict`: one fact keeps the values that satisfy it and no others, although it is
  solved on the hull of a set that may have gaps;
* `refines_of_foldlM`: so do all facts, and a chain of refinements succeeds only if every fact
  compares with a known integer and some value is left;
* `Frame.rowsOf_of_rangesOf`: there is a row for each integer argument, and each row is exact.
-/

namespace GuardedC

/-! ## Bounds of a set -/

namespace IntSet

theorem low_le_of_mem {s : IntSet} {low v : Int} (hlow : s.low? = some low) (hv : v ∈ s) : low ≤ v := by
  obtain ⟨first, hfirst, rfl⟩ := Option.map_eq_some_iff.1 hlow
  obtain ⟨rest, hpieces⟩ := List.head?_eq_some_iff.1 hfirst
  rw [mem_def, hpieces] at hv
  have hsep := s.separated
  rw [hpieces] at hsep
  exact hsep.low_le hv

theorem lt_high_of_mem {s : IntSet} {high v : Int} (hhigh : s.high? = some high) (hv : v ∈ s) :
    v < high := by
  obtain ⟨last, hlast, rfl⟩ := Option.map_eq_some_iff.1 hhigh
  obtain ⟨front, hpieces⟩ := List.getLast?_eq_some_iff.1 hlast
  obtain ⟨p, hp, hvp⟩ := hv
  have hmem := Interval.mem_def.1 hvp
  have hproper := s.separated.nonempty last (List.mem_of_getLast? hlast)
  have hgaps := s.separated.gaps
  rw [hpieces, List.pairwise_append] at hgaps
  rw [hpieces, List.mem_append, List.mem_singleton] at hp
  rcases hp with hp | rfl
  · have hgap := hgaps.2.2 p hp last (.head _)
    omega
  · exact hmem.2

/-- The last integer below the high bound is a member. -/
theorem pred_high_mem {s : IntSet} {high : Int} (hhigh : s.high? = some high) : high - 1 ∈ s := by
  obtain ⟨last, hlast, rfl⟩ := Option.map_eq_some_iff.1 hhigh
  have hmem : last ∈ s.pieces := List.mem_of_getLast? hlast
  have hproper := s.separated.nonempty last hmem
  exact ⟨last, hmem, Interval.mem_def.2 ⟨by omega, by omega⟩⟩

theorem isEmpty_eq_false_iff {s : IntSet} : s.isEmpty = false ↔ ∃ v, v ∈ s := by
  unfold isEmpty
  rw [List.isEmpty_eq_false_iff_exists_mem]
  constructor
  · rintro ⟨p, hp⟩
    have hproper := s.separated.nonempty p hp
    exact ⟨p.low, p, hp, Interval.mem_def.2 ⟨Int.le_refl _, hproper⟩⟩
  · rintro ⟨v, p, hp, _⟩
    exact ⟨p, hp⟩

/-- A set with a member has both bounds. -/
theorem exists_bounds {s : IntSet} {v : Int} (hv : v ∈ s) :
    ∃ low high, s.low? = some low ∧ s.high? = some high := by
  obtain ⟨p, hp, _⟩ := hv
  have hne : s.pieces ≠ [] := List.ne_nil_of_mem hp
  refine ⟨(s.pieces.head hne).low, (s.pieces.getLast hne).high, ?_, ?_⟩
  · rw [low?, List.head?_eq_some_head hne]
    rfl
  · rw [high?, List.getLast?_eq_some_getLast hne]
    rfl

/-- The values of a set that satisfy a comparison with a known integer. -/
def restrict (s : IntSet) (op : Comparison) (literal : Int) : IntSet :=
  match s.low?, s.high? with
  | some low, some high => s ∩ op.solutions literal low high
  | _, _ => ∅

/-- A fact is solved on the hull of the set; of the solutions there, those in the set are kept. -/
theorem mem_restrict {s : IntSet} {op : Comparison} {literal v : Int}
    (hs : ∀ w ∈ s, w < Wide.highest) : v ∈ s.restrict op literal ↔ v ∈ s ∧ op.Holds v literal := by
  unfold restrict
  split
  · rename_i low high hlow hhigh
    have hbound : high ≤ Wide.highest := by
      have hpred := hs _ (pred_high_mem hhigh)
      omega
    rw [mem_inter, Comparison.mem_solutions hbound]
    constructor
    · rintro ⟨hv, _, hop⟩
      exact ⟨hv, hop⟩
    · rintro ⟨hv, hop⟩
      exact ⟨hv, ⟨low_le_of_mem hlow hv, lt_high_of_mem hhigh hv⟩, hop⟩
  · rename_i hnone
    simp only [not_mem_empty, false_iff]
    rintro ⟨hv, _⟩
    obtain ⟨low, high, hlow, hhigh⟩ := exists_bounds hv
    exact hnone low high hlow hhigh

end IntSet

/-! ## Facts on one argument -/

/-- The fact compares its argument with a known integer, and `v` satisfies it. -/
def Fact.Admits (f : Fact) (v : Int) : Prop := ∃ w, f.operand = .lit w ∧ f.op.Holds v w

theorem Fact.Admits.holds {f : Fact} {σ : Assignment} {a : Argument} (h : f.Admits (σ.value a)) :
    f.Holds σ a := by
  obtain ⟨w, hw, hop⟩ := h
  exact ⟨w, by rw [hw, Expr.eval?_lit], hop⟩

theorem Fact.Holds.admits {f : Fact} {σ : Assignment} {a : Argument} {w : Int} (h : f.Holds σ a)
    (hw : f.operand = .lit w) : f.Admits (σ.value a) := by
  obtain ⟨v, hv, hop⟩ := h
  rw [hw, Expr.eval?_lit, Option.some.injEq] at hv
  subst hv
  exact ⟨w, hw, hop⟩

/-- A fact on a known integer restricts the values, and has to leave some. -/
theorem refine_of_literal {argument : String} {range : IntSet} {fact : Fact} {literal : Int}
    (h : fact.operand.literal? = some literal) :
    refine argument range fact =
      if (range.restrict fact.op literal).isEmpty then .error (.unsatisfiable argument)
      else .ok (range.restrict fact.op literal) := by
  have himplied : ∀ low high, fact.implied literal low high = fact.op.solutions literal low high :=
    fun _ _ => rfl
  have hempty : (∅ : IntSet).isEmpty = true := rfl
  cases hlow : range.low? with
  | none => simp only [refine, IntSet.restrict, h, hlow, hempty, if_true]
  | some low =>
    cases hhigh : range.high? with
    | none => simp only [refine, IntSet.restrict, h, hlow, hhigh, hempty, if_true]
    | some high => simp only [refine, IntSet.restrict, h, hlow, hhigh, himplied]

theorem refine_eq_ok {argument : String} {range rest : IntSet} {fact : Fact} :
    refine argument range fact = .ok rest ↔
      ∃ w, fact.operand = .lit w ∧ rest = range.restrict fact.op w ∧ ∃ v, v ∈ rest := by
  cases hliteral : fact.operand.literal? with
  | none =>
    simp only [refine, hliteral, reduceCtorEq, false_iff]
    rintro ⟨w, hw, _⟩
    simp [hw, Expr.literal?] at hliteral
  | some w =>
    have hoperand := Expr.eq_lit_of_literal? hliteral
    simp only [refine_of_literal hliteral, hoperand, Expr.lit.injEq, exists_eq_left']
    by_cases hempty : (range.restrict fact.op w).isEmpty
    · simp only [hempty, if_true, reduceCtorEq, false_iff]
      rintro ⟨rfl, hv⟩
      rw [← IntSet.isEmpty_eq_false_iff, hempty] at hv
      cases hv
    · simp only [hempty, Bool.false_eq_true, if_false, Except.ok.injEq]
      rw [Bool.not_eq_true, IntSet.isEmpty_eq_false_iff] at hempty
      constructor
      · rintro rfl
        exact ⟨rfl, hempty⟩
      · rintro ⟨rfl, _⟩
        rfl

/-- `range` is what some facts leave of `start`. -/
structure Refines (facts : List Fact) (start range : IntSet) : Prop where
  literal : ∀ fact ∈ facts, ∃ w, fact.operand = .lit w
  mem : ∀ v, v ∈ range ↔ v ∈ start ∧ ∀ fact ∈ facts, fact.Admits v
  nonempty : (∃ v, v ∈ start) → ∃ v, v ∈ range

theorem refines_of_foldlM {argument : String} {facts : List Fact} {start range : IntSet}
    (hstart : ∀ v ∈ start, v < Wide.highest) (h : facts.foldlM (refine argument) start = .ok range) :
    Refines facts start range := by
  induction facts generalizing start with
  | nil =>
    cases h
    exact ⟨by simp, by simp, id⟩
  | cons fact facts ih =>
    rw [List.foldlM_cons, except_bind_ok] at h
    obtain ⟨rest, hfact, hfacts⟩ := h
    obtain ⟨w, hoperand, rfl, hrest⟩ := refine_eq_ok.1 hfact
    have hmem : ∀ v, v ∈ start.restrict fact.op w ↔ v ∈ start ∧ fact.Admits v := by
      intro v
      rw [IntSet.mem_restrict hstart]
      simp [Fact.Admits, hoperand]
    have hstep := ih (fun v hv => hstart v ((hmem v).1 hv).1) hfacts
    refine ⟨?_, ?_, fun _ => hstep.nonempty hrest⟩
    · intro other hother
      rcases List.mem_cons.1 hother with rfl | hother
      · exact ⟨w, hoperand⟩
      · exact hstep.literal other hother
    · intro v
      rw [hstep.mem, hmem]
      simp only [List.mem_cons, forall_eq_or_imp, and_assoc]

/-! ## Rows -/

/-- Values of integer types are far below the greatest wide integer. -/
theorem IntegerType.lt_highest {type : IntegerType} {v : Int} (hv : v ∈ type.values) :
    v < Wide.highest := by
  have hhigh := (IntSet.mem_range.1 hv).2
  have hwide : type.high ≤ Wide.highest := by
    rcases type with ⟨width, signed⟩
    cases width <;> cases signed <;> decide
  omega

theorem IntegerType.exists_value (type : IntegerType) : ∃ v, v ∈ type.values := by
  refine ⟨type.low, IntSet.mem_range.2 ⟨Int.le_refl _, ?_⟩⟩
  rcases type with ⟨width, signed⟩
  cases width <;> cases signed <;> decide

/-- A row tells exactly which values the facts of a frame leave to an argument. -/
structure ArgumentRange.Exact (f : Frame) (r : ArgumentRange) : Prop where
  typed : ∃ type, r.argument.ty = .integer type ∧ r.possible = type.values
  refines : Refines (f.factsAt r.argument.index) r.possible r.range

namespace ArgumentRange.Exact

variable {f : Frame} {r : ArgumentRange}

theorem exists_possible (h : r.Exact f) : ∃ v, v ∈ r.possible := by
  obtain ⟨type, _, hpossible⟩ := h.typed
  rw [hpossible]
  exact type.exists_value

theorem exists_mem (h : r.Exact f) : ∃ v, v ∈ r.range := h.refines.nonempty h.exists_possible

end ArgumentRange.Exact

namespace Frame

variable {f : Frame}

theorem exact_of_range? {a : Argument} {row : Option ArgumentRange} (h : f.range? a = .ok row) :
    (row = none ∧ ∀ type, a.ty ≠ .integer type) ∨ ∃ r, row = some r ∧ r.argument = a ∧ r.Exact f := by
  unfold range? at h
  cases hty : a.ty with
  | integer type =>
    simp only [hty, Ty.values?, Ty.integer?, Option.map_some, except_bind_ok, except_pure_ok] at h
    obtain ⟨range, hrange, rfl⟩ := h
    refine .inr ⟨_, rfl, rfl, ⟨type, hty, rfl⟩, ?_⟩
    exact refines_of_foldlM (fun v hv => IntegerType.lt_highest hv) hrange
  | byteArray length =>
    simp only [hty, Ty.values?, Ty.integer?, Option.map_none, Except.ok.injEq] at h
    exact .inl ⟨h.symm, by simp⟩
  | void =>
    simp only [hty, Ty.values?, Ty.integer?, Option.map_none, Except.ok.injEq] at h
    exact .inl ⟨h.symm, by simp⟩

/-- There is one exact row for each integer argument. -/
structure RowsOf (f : Frame) (args : List Argument) (rows : List ArgumentRange) : Prop where
  argument_mem : ∀ r ∈ rows, r.argument ∈ args
  exact : ∀ r ∈ rows, r.Exact f
  exists_row : ∀ a ∈ args, ∀ type, a.ty = .integer type → ∃ r ∈ rows, r.argument = a

theorem rowsOf_of_rangesOf {args : List Argument} {rows : List ArgumentRange}
    (h : f.rangesOf args = .ok rows) : f.RowsOf args rows := by
  induction args generalizing rows with
  | nil =>
    cases h
    exact ⟨by simp, by simp, by simp⟩
  | cons a args ih =>
    simp only [rangesOf, except_bind_ok, except_pure_ok] at h
    obtain ⟨row, hrow, rest, hrest, rfl⟩ := h
    have hrows := ih hrest
    rcases exact_of_range? hrow with ⟨rfl, hty⟩ | ⟨r, rfl, rfl, hexact⟩
    · -- an argument that is no integer has no row
      refine ⟨fun r hr => .tail _ (hrows.argument_mem r hr), hrows.exact, ?_⟩
      intro b hb type htype
      rcases List.mem_cons.1 hb with rfl | hb
      · exact absurd htype (hty type)
      · exact hrows.exists_row b hb type htype
    · refine ⟨?_, ?_, ?_⟩
      · intro q hq
        rcases List.mem_cons.1 hq with rfl | hq
        · exact .head _
        · exact .tail _ (hrows.argument_mem q hq)
      · intro q hq
        rcases List.mem_cons.1 hq with rfl | hq
        · exact hexact
        · exact hrows.exact q hq
      · intro b hb type htype
        rcases List.mem_cons.1 hb with rfl | hb
        · exact ⟨r, .head _, rfl⟩
        · obtain ⟨q, hq, harg⟩ := hrows.exists_row b hb type htype
          exact ⟨q, .tail _ hq, harg⟩

end Frame

end GuardedC
