import GuardedC.Proofs.CText.Parser
import GuardedC.Proofs.Ranges

/-!
# What a guard says

A guard is true exactly if every argument lies in its range.

* `decides_guard` states this of the guard as a tree: a clause for each restricted argument, and in
  it a piece of the range after the other, where a bound that the type sets already is left out;
* `readable_guard` states that C reads the text of the guard as an expression of the same value,
  although conjunctions stand in it without parentheses.
-/

namespace GuardedC

/-! ## Truth values -/

/-- There is a value, and it counts as true exactly if `P` holds. -/
def Decides (x : Option Int) (P : Prop) : Prop := ∃ v, x = some v ∧ (v ≠ 0 ↔ P)

theorem Decides.congr {x : Option Int} {P Q : Prop} (h : Decides x P) (hPQ : P ↔ Q) : Decides x Q := by
  obtain ⟨v, hv, hP⟩ := h
  exact ⟨v, hv, hP.trans hPQ⟩

theorem Decides.isTrue_iff {x : Option Int} {P : Prop} (h : Decides x P) : IsTrue x ↔ P := by
  obtain ⟨v, rfl, hP⟩ := h
  rw [isTrue_some, hP]

section

variable {arith : Arith → Int → Int → Option Int}

theorem decides_compare (op : Comparison) (a b : Int) :
    Decides (Operator.value? arith (.compare op) (some a) (some b)) (op.Holds a b) :=
  ⟨truth (op.Holds a b), rfl, truth_ne_zero⟩

/-- A connective of propositions. -/
def Connective.Joins : Connective → Prop → Prop → Prop
  | .and => And
  | .or => Or

theorem Decides.connect {l r : Option Int} {P Q : Prop} (hl : Decides l P) (hr : Decides r Q)
    (op : Connective) : Decides (Operator.value? arith (.connect op) l r) (op.Joins P Q) := by
  obtain ⟨a, rfl, hP⟩ := hl
  obtain ⟨b, rfl, hQ⟩ := hr
  rw [← hP, ← hQ]
  cases op with
  | and =>
    by_cases ha : a = 0
    · exact ⟨0, by simp [Operator.value?, ha], by simp [Connective.Joins, ha]⟩
    · exact ⟨truth (b ≠ 0), by simp [Operator.value?, ha], by simp [Connective.Joins, ha]⟩
  | or =>
    by_cases ha : a = 0
    · exact ⟨truth (b ≠ 0), by simp [Operator.value?, ha], by simp [Connective.Joins, ha]⟩
    · exact ⟨1, by simp [Operator.value?, ha], by simp [Connective.Joins, ha]⟩

end

/-! ## Constants and chains -/

section

variable {ρ : String → Option Int}

theorem CExpr.eval?_ofInt (v : Int) : (CExpr.ofInt v).eval? ρ = some v := by
  unfold CExpr.ofInt
  split
  · have hpos : (0 : Int) ≤ v := by
      have hmax : CExpr.longMax = 9223372036854775807 := rfl
      omega
    simp [CExpr.eval?, Int.toNat_of_nonneg hpos]
  · split
    · rename_i hmin
      subst hmin
      rfl
    · split
      · simp only [CExpr.eval?, Option.map_some, Option.some.injEq]
        omega
      · simp only [CExpr.eval?, Option.some.injEq]
        omega

/-- What a chain of conditions says of them. -/
def Connective.Over {α : Type} (op : Connective) (P : α → Prop) (xs : List α) : Prop :=
  match op with
  | .and => ∀ x ∈ xs, P x
  | .or => ∃ x ∈ xs, P x

theorem decides_foldl {op : Connective} {es : List CExpr} {e : CExpr} {P : Prop}
    (he : Decides (e.eval? ρ) P) (hes : ∀ x ∈ es, ∃ v, x.eval? ρ = some v) :
    Decides ((es.foldl (CExpr.parenthesized op) e).eval? ρ)
      (op.Joins P (op.Over (fun x => IsTrue (x.eval? ρ)) es)) := by
  induction es generalizing e P with
  | nil => exact he.congr (by cases op <;> simp [Connective.Joins, Connective.Over])
  | cons x es ih =>
    obtain ⟨v, hv⟩ := hes x (.head _)
    have hx : Decides (x.eval? ρ) (IsTrue (x.eval? ρ)) := ⟨v, hv, by rw [hv, isTrue_some]⟩
    have hjoin : Decides ((CExpr.parenthesized op e x).eval? ρ) (op.Joins P (IsTrue (x.eval? ρ))) :=
      he.connect hx op
    refine (ih hjoin fun y hy => hes y (.tail _ hy)).congr ?_
    cases op <;> simp [Connective.Joins, Connective.Over, and_assoc, or_assoc]

theorem decides_chain {op : Connective} {es : List CExpr} {e : CExpr}
    (hes : ∀ x ∈ es, ∃ v, x.eval? ρ = some v) (h : CExpr.chain? op es = some e) :
    Decides (e.eval? ρ) (op.Over (fun x => IsTrue (x.eval? ρ)) es) := by
  cases es with
  | nil => cases h
  | cons x es =>
    cases h
    obtain ⟨v, hv⟩ := hes x (.head _)
    have hx : Decides (x.eval? ρ) (IsTrue (x.eval? ρ)) := ⟨v, hv, by rw [hv, isTrue_some]⟩
    refine (decides_foldl hx fun y hy => hes y (.tail _ hy)).congr ?_
    cases op <;> simp [Connective.Joins, Connective.Over]

/-! ## Clauses -/

/-- Below a bound that all possible values respect, the other bound decides. -/
theorem decides_condition {name : String} {v low high : Int} {p : Interval} (hρ : ρ name = some v)
    (hlow : low ≤ v) (hhigh : v < high) :
    Decides ((p.condition name low high).eval? ρ) (v ∈ p) := by
  unfold Interval.condition
  rw [Interval.mem_def]
  split
  · -- the lower bound is that of the type and goes without saying
    rename_i hshared
    simp only [CExpr.eval?, CExpr.eval?_ofInt, hρ]
    refine (decides_compare _ _ _).congr ?_
    simp only [Comparison.Holds]
    omega
  · split
    · -- the same for the upper bound
      rename_i hshared
      simp only [CExpr.eval?, CExpr.eval?_ofInt, hρ]
      refine (decides_compare _ _ _).congr ?_
      simp only [Comparison.Holds]
      omega
    · simp only [CExpr.eval?, CExpr.eval?_ofInt, hρ]
      exact (decides_compare _ _ _).connect (decides_compare _ _ _) .and

theorem CExpr.chain?_eq_none {op : Operator} {es : List CExpr} : chain? op es = none ↔ es = [] := by
  cases es <;> simp [chain?]

/-- The clause of a row whose range differs from the possible values, where there are any. -/
theorem clause?_eq {r : ArgumentRange} {low high : Int} (hlow : r.possible.low? = some low)
    (hhigh : r.possible.high? = some high) :
    r.clause? = if r.range = r.possible then none
      else CExpr.chain? Connective.or (r.range.pieces.map (·.condition r.argument.name low high)) := by
  simp only [ArgumentRange.clause?, hlow, hhigh]

/-- A row without a clause does not restrict its argument, as long as its range has a member. -/
theorem mem_of_clause?_none {r : ArgumentRange} {v : Int} (h : r.clause? = none) (hv : v ∈ r.possible)
    (hrange : ∃ w, w ∈ r.range) : v ∈ r.range := by
  obtain ⟨low, high, hlow, hhigh⟩ := IntSet.exists_bounds hv
  rw [clause?_eq hlow hhigh] at h
  by_cases hsame : r.range = r.possible
  · rw [hsame]
    exact hv
  · rw [if_neg hsame, CExpr.chain?_eq_none, List.map_eq_nil_iff] at h
    obtain ⟨w, p, hp, _⟩ := hrange
    rw [h] at hp
    cases hp

/-- A clause says that its argument lies in one of the pieces of the range. -/
theorem decides_clause {r : ArgumentRange} {e : CExpr} {v : Int} (h : r.clause? = some e)
    (hρ : ρ r.argument.name = some v) (hv : v ∈ r.possible) : Decides (e.eval? ρ) (v ∈ r.range) := by
  obtain ⟨low, high, hlow, hhigh⟩ := IntSet.exists_bounds hv
  have hcondition : ∀ p : Interval, Decides ((p.condition r.argument.name low high).eval? ρ) (v ∈ p) :=
    fun p => decides_condition hρ (IntSet.low_le_of_mem hlow hv) (IntSet.lt_high_of_mem hhigh hv)
  rw [clause?_eq hlow hhigh] at h
  by_cases hsame : r.range = r.possible
  · rw [if_pos hsame] at h
    cases h
  · rw [if_neg hsame] at h
    have hvalues : ∀ x ∈ r.range.pieces.map (·.condition r.argument.name low high),
        ∃ w, x.eval? ρ = some w := by
      intro x hx
      obtain ⟨p, _, rfl⟩ := List.mem_map.1 hx
      obtain ⟨w, hw, _⟩ := hcondition p
      exact ⟨w, hw⟩
    refine (decides_chain hvalues h).congr ?_
    simp only [Connective.Over, List.mem_map, exists_exists_and_eq_and, (hcondition _).isTrue_iff]
    exact IntSet.mem_def.symm

/-! ## Guards -/

/-- A guard is true exactly if every argument lies in its range. -/
theorem decides_guard {rows : List ArgumentRange} (value : ArgumentRange → Int)
    (hρ : ∀ r ∈ rows, ρ r.argument.name = some (value r)) (hvalue : ∀ r ∈ rows, value r ∈ r.possible)
    (hrange : ∀ r ∈ rows, ∃ v, v ∈ r.range) :
    Decides ((ArgumentRange.guard rows).eval? ρ) (∀ r ∈ rows, value r ∈ r.range) := by
  unfold ArgumentRange.guard
  -- rows without a clause hold by themselves
  have hopen : ∀ r ∈ rows, r.clause? = none → value r ∈ r.range :=
    fun r hr hnone => mem_of_clause?_none hnone (hvalue r hr) (hrange r hr)
  cases hchain : CExpr.chain? Connective.and (rows.filterMap (·.clause?)) with
  | none =>
    rw [CExpr.chain?_eq_none, List.filterMap_eq_nil_iff] at hchain
    refine ⟨1, rfl, ?_⟩
    simpa using fun r hr => hopen r hr (hchain r hr)
  | some e =>
    have hclause : ∀ x ∈ rows.filterMap (·.clause?), ∃ w, x.eval? ρ = some w := by
      intro x hx
      obtain ⟨r, hr, hclause⟩ := List.mem_filterMap.1 hx
      obtain ⟨w, hw, _⟩ := decides_clause hclause (hρ r hr) (hvalue r hr)
      exact ⟨w, hw⟩
    refine (decides_chain hclause hchain).congr ?_
    simp only [Connective.Over, List.mem_filterMap, forall_exists_index, and_imp]
    constructor
    · intro h r hr
      cases hclause : r.clause? with
      | none => exact hopen r hr hclause
      | some x => exact (decides_clause hclause (hρ r hr) (hvalue r hr)).isTrue_iff.1 (h x r hr hclause)
    · intro h x r hr hclause
      exact (decides_clause hclause (hρ r hr) (hvalue r hr)).isTrue_iff.2 (h r hr)

end

/-! ## The text of a guard -/

namespace CExpr

/-- The text of the tree is read back as a tree of the same value. -/
structure Readable (e : CExpr) : Prop where
  spelled : e.Spelled
  grouped : e.Grouped
  ordered : e.Ordered

theorem Readable.parse {e : CExpr} (h : e.Readable) :
    ∃ tree, CExpr.parse e.text = some tree ∧ ∀ ρ, tree.eval? ρ = e.eval? ρ :=
  ⟨e.reading, parse_text h.spelled h.grouped, eval?_reading h.ordered⟩

theorem Readable.binary {op : Operator} {l r : CExpr} (hl : l.Readable) (hr : r.Readable)
    (hleft : l.Tight op.level)
    (hright : r.Tight (op.level + 1) ∨ op = Connective.and ∧ r.Tight op.level) :
    (binary op l r).Readable :=
  ⟨⟨hl.spelled, hr.spelled⟩, ⟨hl.grouped, hr.grouped⟩, hl.ordered, hr.ordered, hleft, hright⟩

theorem Readable.paren {e : CExpr} (h : e.Readable) : (paren e).Readable :=
  ⟨h.spelled, h.grouped, h.ordered⟩

theorem tight_binary {n : Nat} {op : Operator} {l r : CExpr} :
    (binary op l r).Tight n ↔ l.Tight n ∧ n ≤ op.level ∧ r.Tight n := by
  simp only [Tight, chain, List.mem_append, List.mem_cons, or_imp, forall_and, forall_eq]

theorem Tight.mono {m n : Nat} {e : CExpr} (h : e.Tight n) (hmn : m ≤ n) : e.Tight m :=
  fun next hnext => Nat.le_trans hmn (h next hnext)

/-- An expression with no operator outside brackets. -/
def Operand (e : CExpr) : Prop := e.Readable ∧ ∀ n, e.Tight n

theorem operand_name {id : String} (h : isIdentifier id = true) : (name id).Operand :=
  ⟨⟨h, trivial, trivial⟩, fun _ _ hnext => nomatch hnext⟩

theorem operand_constant (value : Nat) (ull : Bool) : (constant value ull).Operand :=
  ⟨⟨trivial, trivial, trivial⟩, fun _ _ hnext => nomatch hnext⟩

theorem operand_negate (value : Nat) (ull : Bool) : (negate (constant value ull)).Operand :=
  ⟨⟨⟨value, ull, rfl⟩, trivial, trivial⟩, fun _ _ hnext => nomatch hnext⟩

theorem Readable.operand_paren {e : CExpr} (h : e.Readable) : (CExpr.paren e).Operand :=
  ⟨h.paren, fun _ _ hnext => nomatch hnext⟩

theorem Operand.binary {l r : CExpr} (hl : l.Operand) (hr : r.Operand) (op : Operator) :
    (CExpr.binary op l r).Readable :=
  hl.1.binary hr.1 (hl.2 _) (.inl (hr.2 _))

theorem operand_ofInt (v : Int) : (ofInt v).Operand := by
  unfold ofInt
  split
  · exact operand_constant _ _
  · split
    · exact ((operand_negate _ _).binary (operand_constant _ _) _).operand_paren
    · split
      · exact operand_negate _ _
      · exact operand_constant _ _

/-- A condition that may stand in a chain without parentheses of its own. -/
def Conjunct (e : CExpr) : Prop := e.Readable ∧ e.Tight 2

theorem Operand.compare {l r : CExpr} (hl : l.Operand) (hr : r.Operand) (op : Comparison) :
    (CExpr.binary op l r).Readable ∧ (CExpr.binary op l r).Tight 3 := by
  refine ⟨hl.binary hr op, tight_binary.2 ⟨hl.2 3, ?_, hr.2 3⟩⟩
  cases op <;> decide

theorem Conjunct.parenthesized {l r : CExpr} (hl : l.Conjunct) (hr : r.Conjunct) (op : Connective) :
    (parenthesized op l r).Conjunct := by
  have hlevel : Operator.level op ≤ 2 := by cases op <;> decide
  have hright : r.Tight (Operator.level op + 1) ∨
      (op : Operator) = Connective.and ∧ r.Tight (Operator.level op) := by
    cases op with
    | and => exact .inr ⟨rfl, hr.2⟩
    | or => exact .inl hr.2
  have hoperand := (hl.1.binary hr.1 (hl.2.mono hlevel) hright).operand_paren
  exact ⟨hoperand.1, hoperand.2 2⟩

theorem conjunct_chain {op : Connective} {es : List CExpr} {e : CExpr} (hes : ∀ x ∈ es, x.Conjunct)
    (h : chain? op es = some e) : e.Conjunct := by
  cases es with
  | nil => cases h
  | cons x es =>
    cases h
    have hx := hes x (.head _)
    have hrest : ∀ y ∈ es, y.Conjunct := fun y hy => hes y (.tail _ hy)
    clear hes
    induction es generalizing x with
    | nil => exact hx
    | cons y es ih =>
      exact ih _ (hx.parenthesized (hrest y (.head _)) op) fun z hz => hrest z (.tail _ hz)

end CExpr

theorem conjunct_condition {name : String} (hname : isIdentifier name = true) (low high : Int)
    (p : Interval) :
    (p.condition name low high).Conjunct := by
  have hid := CExpr.operand_name hname
  have hlow := CExpr.operand_ofInt p.low
  have hhigh := CExpr.operand_ofInt p.high
  unfold Interval.condition
  split
  · obtain ⟨hread, htight⟩ := hid.compare hhigh .lt
    exact ⟨hread, htight.mono (by decide)⟩
  · split
    · obtain ⟨hread, htight⟩ := hid.compare hlow .ge
      exact ⟨hread, htight.mono (by decide)⟩
    · obtain ⟨hleft, hltight⟩ := hlow.compare hid .le
      obtain ⟨hright, hrtight⟩ := hid.compare hhigh .lt
      refine ⟨hleft.binary hright (hltight.mono (by decide)) (.inl hrtight), CExpr.tight_binary.2 ?_⟩
      exact ⟨hltight.mono (by decide), by decide, hrtight.mono (by decide)⟩

theorem conjunct_clause {r : ArgumentRange} {e : CExpr} (hname : isIdentifier r.argument.name = true)
    (h : r.clause? = some e) : e.Conjunct := by
  unfold ArgumentRange.clause? at h
  split at h
  · cases h
  · split at h
    · refine CExpr.conjunct_chain ?_ h
      intro x hx
      obtain ⟨p, _, rfl⟩ := List.mem_map.1 hx
      exact conjunct_condition hname _ _ p
    · cases h

theorem readable_guard {rows : List ArgumentRange}
    (hnames : ∀ r ∈ rows, isIdentifier r.argument.name = true) : (ArgumentRange.guard rows).Readable := by
  unfold ArgumentRange.guard
  cases hchain : CExpr.chain? Connective.and (rows.filterMap (·.clause?)) with
  | none => exact (CExpr.operand_constant 1 false).1
  | some e =>
    refine (CExpr.conjunct_chain ?_ hchain).1
    intro x hx
    obtain ⟨r, hr, hclause⟩ := List.mem_filterMap.1 hx
    exact conjunct_clause (hnames r hr) hclause

end GuardedC
