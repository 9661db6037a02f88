import GuardedC.Proofs.CompileOutcome
import GuardedC.Proofs.CText.Integers
import GuardedC.Proofs.GuardComparisons
import GuardedC.Proofs.Reachable

/-!
# Guards in C

A guard is thought of as a condition on mathematical integers, and C compares its operands after it
has brought them to a common type. The two agree on every guard. A bound that is written lies
strictly between the bounds of the type of its argument, so an unsigned argument is compared with
positive constants only, and a signed one with constants that have a signed type themselves. No
negative operand meets an unsigned one, and all operands keep their values
(`CExpr.Compares.agreesInC`).
-/

namespace GuardedC

/-- C computes the same truth value from the tree as the integers give. -/
def CExpr.AgreesInC (integers : String → Option Int) (values : String → Option CValue) (e : CExpr) : Prop :=
  ∃ tree n, e.tree? = some tree ∧ e.eval? integers = some n ∧ tree.value? values = some (.integer .int n)

section

variable {ρ : String → Option Int} {κ : String → Option CValue}

/-! ## Connectives -/

/-- Of values that have been computed, C joins the truth as it is joined for integers. -/
theorem Connective.exists_values (op : Connective) (t u : IntegerType) (m n : Int) :
    ∃ k, Operator.value? Arith.exact? op (some m) (some n) = some k ∧
      Operator.cValue? op (some (.integer t m)) (some (.integer u n)) = some (.integer .int k) := by
  by_cases hm : m = 0
  · have hfalse : ¬ (CValue.integer t m).IsTrue := fun htrue => htrue hm
    cases op with
    | and =>
      refine ⟨0, by simp [Operator.value?, hm], ?_⟩
      exact if_neg hfalse
    | or =>
      refine ⟨truth (n ≠ 0), by simp [Operator.value?, hm], ?_⟩
      exact if_neg hfalse
  · have htrue : (CValue.integer t m).IsTrue := hm
    cases op with
    | and =>
      refine ⟨truth (n ≠ 0), by simp [Operator.value?, hm], ?_⟩
      exact if_pos htrue
    | or =>
      refine ⟨1, by simp [Operator.value?, hm], ?_⟩
      exact if_pos htrue

theorem CExpr.tree?_binary {l r : CExpr} {t u : CTree} (op : Operator) (hl : l.tree? = some t)
    (hr : r.tree? = some u) : (binary op l r).tree? = some (.binary op t u) := by
  rw [tree?, hl, hr]
  rfl

theorem CExpr.agreesInC_connect {l r : CExpr} (op : Connective) (hl : l.AgreesInC ρ κ)
    (hr : r.AgreesInC ρ κ) :
    (binary op l r).AgreesInC ρ κ := by
  rcases hl with ⟨t, m, ht, hm, htvalue⟩
  rcases hr with ⟨u, n, hu, hn, huvalue⟩
  rcases op.exists_values .int .int m n with ⟨k, hk, hkvalue⟩
  refine ⟨.binary op t u, k, tree?_binary op ht hu, ?_, ?_⟩
  · rw [eval?, hm, hn, hk]
  · rw [CTree.value?, htvalue, huvalue, hkvalue]

/-- Connectives keep the agreement, if all comparisons have it. -/
theorem CExpr.Checks.agreesInC {e : CExpr} {bs : List (String × Int)} (h : e.Checks bs)
    (hbounds : ∀ b ∈ bs, ∀ c, Compares b.1 b.2 c → c.AgreesInC ρ κ) : e.AgreesInC ρ κ := by
  induction h with
  | bound h => exact hbounds _ (.head _) _ h
  | connect op _ _ ihl ihr =>
    apply agreesInC_connect
    · exact ihl fun b hb => hbounds b (List.mem_append_left _ hb)
    · exact ihr fun b hb => hbounds b (List.mem_append_right _ hb)
  | paren _ ih => exact ih hbounds

/-! ## Comparisons -/

/-- A constant strictly between the bounds of a type is compared with a value of the type as
integers are. -/
theorem CExpr.Compares.agreesInC {c : CExpr} {id : String} {v x : Int} {type : IntegerType}
    (h : c.Compares id v)
    (hlow : type.low < v) (hhigh : v < type.high) (hx : x ∈ type.values) (hρ : ρ id = some x)
    (hκ : κ id = some (.integer type x)) : c.AgreesInC ρ κ := by
  have hwidest : InWidest v := IntegerType.inWidest (Int.le_of_lt hlow) hhigh
  rcases IntSet.mem_range.1 hx with ⟨hxlow, hxhigh⟩
  rcases CTree.typed_ofInt (ρ := κ) hwidest with ⟨u, hvalue, hreach, hmarked⟩
  have hsign : type.signed = true ∧ u.signed = true ∨ 0 ≤ x ∧ 0 ≤ v := by
    cases hsigned : type.signed with
    | false =>
      -- all values of an unsigned type are nonnegative
      have hzero : type.low = 0 := by simp [IntegerType.low, hsigned]
      exact .inr ⟨by omega, by omega⟩
    | true =>
      -- a constant below the upper bound of a signed type is not marked
      have hlong := IntegerType.high_le_of_signed hsigned
      exact .inl ⟨rfl, hmarked.resolve_right (by omega)⟩
  have hsign' : u.signed = true ∧ type.signed = true ∨ 0 ≤ v ∧ 0 ≤ x := hsign.imp And.symm And.symm
  cases h with
  | left op =>
    refine ⟨.binary op (.name id) (.ofInt v), truth (op.Holds x v),
      tree?_binary op rfl (tree?_ofInt hwidest), ?_, ?_⟩
    · rw [eval?, eval?_ofInt, eval?, hρ]
      rfl
    · rw [CTree.value?, CTree.value?, hκ, hvalue]
      exact op.cValue?_eq hxhigh hreach hsign
  | right op =>
    refine ⟨.binary op (.ofInt v) (.name id), truth (op.Holds v x),
      tree?_binary op (tree?_ofInt hwidest) rfl, ?_, ?_⟩
    · rw [eval?, eval?_ofInt, eval?, hρ]
      rfl
    · rw [CTree.value?, CTree.value?, hκ, hvalue]
      exact op.cValue?_eq hreach hxhigh hsign'

end

/-! ## Guards -/

section

variable {id : FrameId} {f : Frame} {s s' : Session} {rows : List ArgumentRange}

/-- The bounds of a guard belong to integer arguments, and lie strictly between the bounds of their
types. -/
theorem Frame.RowsOf.of_mem_namedBounds (h : f.RowsOf f.arguments rows) {b : String × Int}
    (hb : b ∈ rows.flatMap ArgumentRange.namedBounds) :
    ∃ a ∈ f.arguments, ∃ type, a.name = b.1 ∧ a.ty = .integer type ∧ type.low < b.2 ∧ b.2 < type.high := by
  rcases List.mem_flatMap.1 hb with ⟨r, hr, hb⟩
  rcases List.mem_map.1 hb with ⟨v, hv, rfl⟩
  rcases (h.exact r hr).bounds_inside with ⟨type, htype, hinside⟩
  rcases hinside v hv with ⟨hlow, hhigh⟩
  exact ⟨r.argument, h.argument_mem r hr, type, rfl, htype, hlow, hhigh⟩

theorem Signature.agreesInC {args : List Argument} (h : Signature id args) {a : Argument} (ha : a ∈ args)
    {type : IntegerType} (htype : a.ty = .integer type) {v : Int} {c : CExpr} (hc : c.Compares a.name v)
    (hlow : type.low < v) (hhigh : v < type.high) {σ : Assignment} (hσ : σ.Represents args) :
    c.AgreesInC (σ.names args) (σ.cValues args) := by
  apply hc.agreesInC hlow hhigh (hσ a ha type htype) (h.names_eq ha σ)
  rw [h.cValues_eq ha, Assignment.cValue?, htype]

/-- The guard of a frame means the same in C as over the integers. Its constants stand in
comparisons, unless it is `1`. Each of them is compared with an integer argument and lies strictly
between the bounds of the argument's type. Whatever values of their types the arguments have, C
computes from each comparison what it is over the integers, and from the guard as well. -/
theorem guard_comparisons_agree_in_c (hlaid : f.Laid id) (hcollapse : Returns f.collapse s rows s') :
    ∃ guard, CExpr.parse (ArgumentRange.guard rows).text = some guard ∧
      (guard = .constant 1 false ∨ guard.constants = guard.comparisons.flatMap CExpr.constants) ∧
      (∀ c ∈ guard.comparisons, ∃ a ∈ f.arguments, ∃ type v, a.ty = .integer type ∧ c.Compares a.name v ∧
        type.low < v ∧ v < type.high ∧
        ∀ σ : Assignment, σ.Represents f.arguments → c.AgreesInC (σ.names f.arguments)
          (σ.cValues f.arguments)) ∧
      ∀ σ : Assignment, σ.Represents f.arguments →
        guard.AgreesInC (σ.names f.arguments) (σ.cValues f.arguments) := by
  have hrows : f.RowsOf f.arguments rows := Frame.rowsOf_of_rangesOf (Frame.returns_collapse hcollapse)
  have hsig := hlaid.signature
  have hreadable := readable_guard fun r hr => hsig.identifier _ (hrows.argument_mem r hr)
  refine ⟨_, CExpr.parse_text hreadable.spelled hreadable.grouped, ?_⟩
  rcases checks_guard rows with ⟨hone, _⟩ | hchecks
  · -- nothing is compared
    rw [hone]
    refine ⟨.inl rfl, ?_, ?_⟩
    · intro c hc
      cases hc
    · intro σ _
      exact ⟨.constant 1 false, 1, rfl, rfl, rfl⟩
  · have hreading := hchecks.reading hreadable.ordered
    refine ⟨.inr hreading.constants, ?_, ?_⟩
    · intro c hc
      rcases hreading.exists_of_mem_comparisons hc with ⟨b, hb, hcompares⟩
      rcases hrows.of_mem_namedBounds hb with ⟨a, ha, type, hname, htype, hlow, hhigh⟩
      rw [← hname] at hcompares
      refine ⟨a, ha, type, b.2, htype, hcompares, hlow, hhigh, ?_⟩
      intro σ hσ
      exact hsig.agreesInC ha htype hcompares hlow hhigh hσ
    · intro σ hσ
      apply hreading.agreesInC
      intro b hb c hcompares
      rcases hrows.of_mem_namedBounds hb with ⟨a, ha, type, hname, htype, hlow, hhigh⟩
      rw [← hname] at hcompares
      exact hsig.agreesInC ha htype hcompares hlow hhigh hσ

end

def widestUnsigned : Argument := ⟨0, "arg_0", .integer ⟨.w64, false⟩, 0⟩

def widestSigned : Argument := ⟨1, "arg_1", .integer ⟨.w64, true⟩, 0⟩

/-- A frame of an unsigned and a signed integer of the widest types, with facts about them. -/
def widestFrame (facts : List FrameEntry) : Frame :=
  (Frame.ofSlots [⟨[widestUnsigned], .int (.argument widestUnsigned)⟩,
    ⟨[widestSigned], .int (.argument widestSigned)⟩]).enterAll facts

/-- Negative literals for an unsigned argument, literals beyond 64 bits, and the constants that are
closest to the bounds of the widest types. -/
theorem guard_comparisons_agree_in_c_widest :
    let f := widestFrame [.fact widestUnsigned ⟨.ge, .lit (-5)⟩,
      .fact widestUnsigned ⟨.ne, .lit 18446744073709551614⟩,
      .fact widestSigned ⟨.gt, .lit (-9223372036854775808)⟩,
      .fact widestSigned ⟨.lt, .lit 1267650600228229401496703205376⟩]
    let σ : Assignment := ⟨fun a => if a.index = 0 then 18446744073709551615 else -1, fun _ => []⟩
    ∃ rows s' guard, Returns f.collapse Session.empty rows s' ∧
      CExpr.parse (ArgumentRange.guard rows).text = some guard ∧
      guard.comparisons.length = 3 ∧ σ.Represents f.arguments ∧
      guard.AgreesInC (σ.names f.arguments) (σ.cValues f.arguments) := by
  intro f σ
  have hlayout : Layout 0 0 0 [.integer ⟨.w64, false⟩, .integer ⟨.w64, true⟩]
      [⟨[widestUnsigned], .int (.argument widestUnsigned)⟩,
        ⟨[widestSigned], .int (.argument widestSigned)⟩] :=
    .integer (by decide +kernel) (.integer (by decide +kernel) .nil)
  have hlaid : f.Laid 0 := ⟨_, _, _, hlayout, rfl⟩
  have hσ : σ.Represents f.arguments := by decide +kernel
  rcases exists_returns (s := Session.empty) (x := f.collapse)
    (f := fun rows => (CExpr.parse (ArgumentRange.guard rows).text).map (·.comparisons.length))
    (b := some 3) (by decide +kernel) with ⟨rows, s', hcollapse, hthree⟩
  rcases guard_comparisons_agree_in_c hlaid hcollapse with ⟨guard, hparse, _, _, hguard⟩
  rw [hparse, Option.map_some, Option.some.injEq] at hthree
  exact ⟨rows, s', guard, hcollapse, hparse, hthree, hσ, hguard σ hσ⟩

end GuardedC
