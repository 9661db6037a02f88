import GuardedC.Proofs.Constants

/-!
# The comparisons of a guard

A guard consists of comparisons of arguments with bounds, which are joined by connectives and
parentheses (`CExpr.Checks`). There is one comparison for each bound that is written
(`checks_clause`, `checks_guard`), and since reading a text only regroups the connectives, the same
comparisons stand in what C reads (`Checks.reading`).
-/

namespace GuardedC

namespace CExpr

/-- The comparisons in a tree from left to right. -/
def comparisons : CExpr → List CExpr
  | name _ | constant _ _ => []
  | negate e | paren e => e.comparisons
  | binary op l r => l.comparisons ++ (if op.isComparison then [binary op l r] else []) ++ r.comparisons
  | index a k => a.comparisons ++ k.comparisons

/-- The tree compares a name with an integer, which stands on either side. -/
inductive Compares (id : String) (v : Int) : CExpr → Prop where
  | left (op : Comparison) : Compares id v (binary op (name id) (ofInt v))
  | right (op : Comparison) : Compares id v (binary op (ofInt v) (name id))

/-- The tree is made of comparisons of these names with these integers, in this order. -/
inductive Checks : CExpr → List (String × Int) → Prop where
  | bound {c : CExpr} {id : String} {v : Int} (h : c.Compares id v) : Checks c [(id, v)]
  | connect {l r : CExpr} {bs cs : List (String × Int)} (op : Connective) (hl : Checks l bs)
      (hr : Checks r cs) :
      Checks (binary op l r) (bs ++ cs)
  | paren {e : CExpr} {bs : List (String × Int)} (h : Checks e bs) : Checks (paren e) bs

/-! ## One comparison -/

section

variable {c : CExpr} {id : String} {v : Int}

theorem comparisons_ofInt (v : Int) : (ofInt v).comparisons = [] := by
  unfold ofInt
  split
  · rfl
  · split
    · rfl
    · split <;> rfl

theorem Compares.comparisons (h : c.Compares id v) : c.comparisons = [c] := by
  cases h with
  | left op => simp [CExpr.comparisons, comparisons_ofInt, Operator.isComparison, Operator.reverse?]
  | right op => simp [CExpr.comparisons, comparisons_ofInt, Operator.isComparison, Operator.reverse?]

theorem Compares.reading (h : c.Compares id v) : c.reading = c := by
  cases h with
  | left op => exact (settled_name id).reading_binary (settled_ofInt v) op
  | right op => exact (settled_ofInt v).reading_binary (settled_name id) op

end

/-! ## All comparisons -/

section

variable {e l s t : CExpr} {bs cs : List (String × Int)}

/-- There is one comparison for each bound. -/
theorem Checks.forall₂_comparisons (h : e.Checks bs) :
    List.Forall₂ (fun b c => Compares b.1 b.2 c) bs e.comparisons := by
  induction h with
  | bound h =>
    rw [h.comparisons]
    exact .cons h .nil
  | @connect l r bs cs op _ _ ihl ihr =>
    have hjoined : (binary op l r).comparisons = l.comparisons ++ r.comparisons := by
      simp [CExpr.comparisons, Operator.isComparison, Operator.reverse?]
    rw [hjoined]
    exact List.rel_append ihl ihr
  | paren _ ih => exact ih

theorem Checks.exists_of_mem_comparisons {c : CExpr} (h : e.Checks bs) (hc : c ∈ e.comparisons) :
    ∃ b ∈ bs, Compares b.1 b.2 c := by
  rcases List.forall₂_iff_get.1 h.forall₂_comparisons with ⟨hlength, hget⟩
  rcases List.get_of_mem hc with ⟨i, rfl⟩
  have hi : i.1 < bs.length := by
    rw [hlength]
    exact i.2
  exact ⟨bs.get ⟨i, hi⟩, List.get_mem bs _, hget i.1 hi i.2⟩

/-- All constants stand in comparisons. -/
theorem Checks.constants (h : e.Checks bs) : e.constants = e.comparisons.flatMap CExpr.constants := by
  induction h with
  | bound h =>
    rw [h.comparisons]
    simp
  | connect op _ _ ihl ihr =>
    simp [CExpr.comparisons, CExpr.constants, Operator.isComparison, Operator.reverse?, ihl, ihr]
  | paren _ ih => exact ih

theorem Checks.of_and {r : CExpr} (h : (binary Connective.and s r).Checks bs) :
    ∃ bs₁ bs₂, s.Checks bs₁ ∧ r.Checks bs₂ ∧ bs = bs₁ ++ bs₂ := by
  cases h with
  | bound h => cases h
  | connect _ hs hr => exact ⟨_, _, hs, hr, rfl⟩

/-- Conjunctions that are grouped in another way check the same bounds. -/
theorem Regrouped.checks (h : Regrouped l s t) (hl : l.Checks bs) (hs : s.Checks cs) :
    t.Checks (bs ++ cs) := by
  induction h generalizing cs with
  | whole _ => exact .connect .and hl hs
  | conjunct _ ih =>
    rcases hs.of_and with ⟨cs₁, cs₂, hfirst, hlast, rfl⟩
    rw [← List.append_assoc]
    exact .connect .and (ih hfirst) hlast

/-- What C reads from a text checks the same bounds. -/
theorem Checks.reading (h : e.Checks bs) (hordered : e.Ordered) : e.reading.Checks bs := by
  induction h with
  | bound h =>
    rw [h.reading]
    exact .bound h
  | connect op _ _ ihl ihr =>
    rcases hordered with ⟨hl, hr, hleft, hright⟩
    -- the sides stay what they are, or a conjunction on the right is taken apart
    rcases reading_ordered hleft hright with hsame | ⟨_, hgroup⟩
    · rw [hsame]
      exact .connect op (ihl hl) (ihr hr)
    · exact hgroup.checks (ihl hl) (ihr hr)
  | paren _ ih => exact .paren (ih hordered)

/-- A chain checks the bounds of its members, one member after the other. -/
theorem checks_chain? {op : Connective} {es : List CExpr} {bss : List (List (String × Int))}
    (h : List.Forall₂ Checks es bss) (hchain : chain? op es = some e) : e.Checks bss.flatten := by
  cases h with
  | nil => cases hchain
  | @cons x bs es bss hx hes =>
    cases hchain
    rw [List.flatten_cons]
    -- `x` is what has been chained so far, and `bs` are its bounds
    induction hes generalizing x bs with
    | nil =>
      rw [List.flatten_nil, List.append_nil]
      exact hx
    | @cons y cs es bss hy _ ih =>
      rw [List.flatten_cons, ← List.append_assoc]
      exact ih (.paren (.connect op hx hy))

end

end CExpr

/-! ## Clauses and guards -/

/-- The bounds that are written for an argument, each with the name that it is compared with. -/
def ArgumentRange.namedBounds (r : ArgumentRange) : List (String × Int) := r.bounds.map (r.argument.name, ·)

theorem Interval.checks_condition (name : String) (low high : Int) (p : Interval) :
    (p.condition name low high).Checks ((p.bounds low high).map (name, ·)) := by
  unfold condition bounds
  split
  · exact .bound (.left .lt)
  · split
    · exact .bound (.left .ge)
    · exact .connect .and (.bound (.right .le)) (.bound (.left .lt))

theorem checks_clause {r : ArgumentRange} {e : CExpr} (h : r.clause? = some e) :
    e.Checks r.namedBounds := by
  unfold ArgumentRange.namedBounds
  rcases r.clause?_cases with ⟨hnone, _⟩ | ⟨low, high, hclause, hbounds⟩
  · rw [hnone] at h
    cases h
  · have hpieces : List.Forall₂ CExpr.Checks (r.range.pieces.map (·.condition r.argument.name low high))
        (r.range.pieces.map fun p => (p.bounds low high).map (r.argument.name, ·)) := by
      rw [List.forall₂_map_left_iff, List.forall₂_map_right_iff, List.forall₂_same]
      exact fun p _ => p.checks_condition _ _ _
    have hchecks := CExpr.checks_chain? hpieces (hclause.symm.trans h)
    rw [← List.flatMap_def, ← List.map_flatMap, ← hbounds] at hchecks
    exact hchecks

theorem namedBounds_of_clause?_none {r : ArgumentRange} (h : r.clause? = none) : r.namedBounds = [] := by
  unfold ArgumentRange.namedBounds
  rcases r.clause?_cases with ⟨_, hbounds⟩ | ⟨low, high, hclause, hbounds⟩
  · rw [hbounds]
    rfl
  · have hpieces := CExpr.chain?_eq_none.1 (hclause.symm.trans h)
    rw [hbounds, List.map_eq_nil_iff.1 hpieces]
    rfl

/-- Rows without a clause have no bounds, so nothing is lost with them. -/
theorem forall₂_clauses (rows : List ArgumentRange) :
    ∃ bss, List.Forall₂ CExpr.Checks (rows.filterMap (·.clause?)) bss ∧
      bss.flatten = rows.flatMap ArgumentRange.namedBounds := by
  induction rows with
  | nil => exact ⟨[], .nil, rfl⟩
  | cons r rows ih =>
    rcases ih with ⟨bss, hbss, hflatten⟩
    cases hclause : r.clause? with
    | none =>
      refine ⟨bss, ?_, ?_⟩
      · rw [List.filterMap_cons_none hclause]
        exact hbss
      · rw [hflatten, List.flatMap_cons, namedBounds_of_clause?_none hclause, List.nil_append]
    | some e =>
      refine ⟨r.namedBounds :: bss, ?_, ?_⟩
      · rw [List.filterMap_cons_some hclause]
        exact .cons (checks_clause hclause) hbss
      · rw [List.flatten_cons, hflatten, List.flatMap_cons]

/-- A guard checks all bounds that are written, or is `1` if there are none. -/
theorem checks_guard (rows : List ArgumentRange) :
    ArgumentRange.guard rows = .constant 1 false ∧ rows.flatMap ArgumentRange.namedBounds = [] ∨
      (ArgumentRange.guard rows).Checks (rows.flatMap ArgumentRange.namedBounds) := by
  rcases forall₂_clauses rows with ⟨bss, hbss, hflatten⟩
  rw [← hflatten]
  unfold ArgumentRange.guard
  cases hchain : CExpr.chain? Connective.and (rows.filterMap (·.clause?)) with
  | none =>
    left
    rw [CExpr.chain?_eq_none.1 hchain] at hbss
    cases hbss
    exact ⟨rfl, rfl⟩
  | some e =>
    right
    exact CExpr.checks_chain? hbss hchain

end GuardedC
