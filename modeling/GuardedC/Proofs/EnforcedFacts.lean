import GuardedC.Proofs.Compiled

/-!
# Which facts a guard enforces

A frame records facts about any of its arguments; a guard speaks of integers. So a fact about an
integer argument holds wherever the guard of the compiled function is true, and a fact about the
address of an array is lost: the guard stays true where the fact fails, whatever the fact is
(`fact_enforced_iff_integer`).

The second half needs a call that violates the fact and passes the guard. It exists because a
function is compiled only if the facts about its integers can be satisfied, and the address of an
array is free.
-/

namespace GuardedC

theorem Comparison.exists_not_holds (op : Comparison) (w : Int) : ∃ v, ¬ op.Holds v w := by
  cases op with
  | lt => exact ⟨w, by simp [Comparison.Holds]⟩
  | gt => exact ⟨w, by simp [Comparison.Holds]⟩
  | le => exact ⟨w + 1, by simp only [Comparison.Holds]; omega⟩
  | ge => exact ⟨w - 1, by simp only [Comparison.Holds]; omega⟩
  | eq => exact ⟨w + 1, by simp [Comparison.Holds]⟩
  | ne => exact ⟨w, by simp [Comparison.Holds]⟩

/-- The fact compares its argument with a known integer, and holds in every call that passes the
guard. -/
def Fact.Enforced (fact : Fact) (a : Argument) (guard : CExpr) (args : List Argument) : Prop :=
  (∃ w, fact.operand = .lit w) ∧
    ∀ σ : Assignment, σ.Represents args → IsTrue (guard.eval? (σ.names args)) → fact.Holds σ a

namespace Script

section

variable {t : Trace} {returns : Ty} {value : Value} {unit : CFunction} {a : Argument}

/-- What is not an integer may have any value in a call that satisfies the facts about integers. -/
theorem Compiled.exists_satisfied (h : Compiled t returns value unit) (ha : ∀ type, a.ty ≠ .integer type)
    (v : Int) :
    ∃ σ : Assignment, σ.Represents t.frame.arguments ∧ t.frame.Satisfied σ ∧ σ.value a = v := by
  have hadmitted : ∀ b, ∃ u, b ∈ t.frame.arguments → ∀ type, b.ty = .integer type →
      u ∈ type.values ∧ t.frame.Admits b u := by
    intro b
    by_cases hb : b ∈ t.frame.arguments ∧ ∃ type, b.ty = .integer type
    · obtain ⟨hmem, type, htype⟩ := hb
      obtain ⟨u, hu, hadmits⟩ := h.satisfiable b hmem type htype
      refine ⟨u, fun _ type' htype' => ?_⟩
      rw [htype, Ty.integer.injEq] at htype'
      exact ⟨htype' ▸ hu, hadmits⟩
    · exact ⟨0, fun hmem type htype => absurd ⟨hmem, type, htype⟩ hb⟩
  -- integers take the values that satisfy their facts, and `a` takes the one asked for
  choose u hu using hadmitted
  let σ : Assignment := ⟨Function.update u a v, fun _ => []⟩
  have hvalue : ∀ b type, b.ty = .integer type → σ.value b = u b := by
    intro b type htype
    refine Function.update_of_ne ?_ _ _
    rintro rfl
    exact ha type htype
  refine ⟨σ, ?_, ?_, Function.update_self _ _ _⟩
  · intro b hb type htype
    rw [hvalue b type htype]
    exact (hu b hb type htype).1
  · intro b hb type htype
    rw [hvalue b type htype]
    exact (hu b hb type htype).2

variable {guard : CExpr} (h : Compiled t returns value unit)
  (hguard : ∀ σ : Assignment, σ.Represents t.frame.arguments →
    Decides (guard.eval? (σ.names t.frame.arguments)) (t.frame.Satisfied σ))

include h hguard

theorem Compiled.enforced (ha : a ∈ t.frame.arguments) {type : IntegerType} (htype : a.ty = .integer type)
    {fact : Fact} (hfact : fact ∈ t.frame.factsAt a.index) : fact.Enforced a guard t.frame.arguments := by
  refine ⟨h.literal ha htype fact hfact, ?_⟩
  intro σ hσ htrue
  have hsatisfied := (hguard σ hσ).isTrue_iff.1 htrue
  exact (hsatisfied a ha type htype fact hfact).holds

/-- No guard enforces a fact about something that is not an integer. -/
theorem Compiled.not_enforced (ha : ∀ type, a.ty ≠ .integer type) (fact : Fact) :
    ¬ fact.Enforced a guard t.frame.arguments := by
  rintro ⟨⟨w, hw⟩, hholds⟩
  obtain ⟨v, hv⟩ := fact.op.exists_not_holds w
  obtain ⟨σ, hσ, hsatisfied, rfl⟩ := h.exists_satisfied ha v
  obtain ⟨w', hw', hop⟩ := (hholds σ hσ ((hguard σ hσ).isTrue_iff.2 hsatisfied)).admits hw
  rw [hw, Expr.lit.injEq] at hw'
  exact hv (hw' ▸ hop)

end

/-- The guard of a compiled function enforces the facts about integer arguments, and no others.
Complex facts are never left. -/
theorem fact_enforced_iff_integer {options : Options} {name : String} {params : List Ty} {returns : Ty}
    {steps : List Step} {result : Option Nat} {s s' : Session} {unit : CFunction}
    (h : Returns (compile options name params returns steps result) s unit s') :
    ∃ t s₁, Returns (takeTrace name params steps) s t s₁ ∧ t.frame.complex = [] ∧
      ∃ guard, CExpr.parse unit.guard = some guard ∧
        ∀ a ∈ t.frame.arguments, ∀ fact ∈ t.frame.factsAt a.index,
          (fact.Enforced a guard t.frame.arguments ↔ ∃ type, a.ty = .integer type) := by
  obtain ⟨t, s₁, value, htrace, _, hcompiled⟩ := compiled_of_returns h
  obtain ⟨guard, hparse, hguard⟩ := hcompiled.guard
  refine ⟨t, s₁, htrace, hcompiled.complex, guard, hparse, ?_⟩
  intro a ha fact hfact
  constructor
  · intro henforced
    by_contra hinteger
    exact hcompiled.not_enforced hguard (fun type htype => hinteger ⟨type, htype⟩) fact henforced
  · rintro ⟨type, htype⟩
    exact hcompiled.enforced hguard ha htype hfact

/-- A number is bounded, and so is the address of an array. -/
def numberAndAddress : List Step :=
  [.op (.int 0 .given), .op (.compare .lt (.register 0) (.lit 10)), .op (.assert (.register 1)),
    .op (.bytes 1 .given), .op (.asInt 3), .op (.compare .lt (.register 4) (.lit 5)),
    .op (.assert (.register 5))]

theorem fact_enforced_iff_integer_numberAndAddress :
    ∃ unit s', Returns (compile {} "f" [.integer ⟨.w32, false⟩, .byteArray ⟨.w32, false⟩] .void
        numberAndAddress none) Session.empty unit s' ∧
      unit.guard = "arg_0 < 10" ∧
      ∃ t s₁, Returns (takeTrace "f" [.integer ⟨.w32, false⟩, .byteArray ⟨.w32, false⟩] numberAndAddress)
          Session.empty t s₁ ∧ t.frame.complex = [] ∧
        ∃ guard, CExpr.parse unit.guard = some guard ∧
          ∀ a ∈ t.frame.arguments, ∀ fact ∈ t.frame.factsAt a.index,
            (fact.Enforced a guard t.frame.arguments ↔ ∃ type, a.ty = .integer type) := by
  obtain ⟨unit, s', h, hguard⟩ := exists_returns (s := Session.empty) (f := CFunction.guard)
    (b := "arg_0 < 10")
    (x := compile {} "f" [.integer ⟨.w32, false⟩, .byteArray ⟨.w32, false⟩] .void numberAndAddress none)
    (by decide +kernel)
  exact ⟨unit, s', h, hguard, fact_enforced_iff_integer h⟩

/-- The address of an array is compared with a number. -/
def boundedAddress : List Step :=
  [.op (.bytes 0 .given), .op (.asInt 0), .op (.compare .lt (.register 1) (.lit 5)),
    .op (.assert (.register 2))]

/-- The fact about the address is recorded, the function is compiled all the same, and its guard is
true where the fact fails. All values are those of the function's own arguments. -/
theorem boundedAddress_fact_not_enforced :
    ∃ unit s', Returns (compile {} "f" [.byteArray ⟨.w32, false⟩] .void boundedAddress none)
        Session.empty unit s' ∧
      ∃ t s₁, Returns (takeTrace "f" [.byteArray ⟨.w32, false⟩] boundedAddress) Session.empty t s₁ ∧
        (∀ v, some v ∈ t.env.registers → ∀ a ∈ v.leaves, a ∈ t.frame.arguments) ∧
        ∃ guard, CExpr.parse unit.guard = some guard ∧
          ∃ a ∈ t.frame.arguments, ∃ fact ∈ t.frame.factsAt a.index, fact.operand = .lit 5 ∧
            ∃ σ : Assignment, σ.Represents t.frame.arguments ∧
              IsTrue (guard.eval? (σ.names t.frame.arguments)) ∧ ¬ fact.Holds σ a := by
  obtain ⟨unit, s', h, hguard⟩ := exists_returns (s := Session.empty) (f := CFunction.guard) (b := "1")
    (x := compile {} "f" [.byteArray ⟨.w32, false⟩] .void boundedAddress none) (by decide +kernel)
  let array : Argument := ⟨0, "arg_0", .byteArray ⟨.w32, false⟩, 0⟩
  let size : Argument := ⟨1, "arg_0_len", .integer ⟨.w32, false⟩, 0⟩
  obtain ⟨t, s₁, htrace, ht⟩ := exists_returns (s := Session.empty)
    (x := takeTrace "f" [.byteArray ⟨.w32, false⟩] boundedAddress)
    (f := fun t => decide (t.frame.arguments = [array, size] ∧ t.frame.factsAt 0 = [⟨.lt, .lit 5⟩] ∧
      ∀ r ∈ t.env.registers, ∀ v ∈ r, ∀ a ∈ v.leaves, a ∈ t.frame.arguments)) (b := true)
    (by decide +kernel)
  obtain ⟨harguments, hfacts, hleaves⟩ := of_decide_eq_true ht
  have hparse : CExpr.parse unit.guard = some (.constant 1 false) := by
    rw [hguard]
    decide +kernel
  have hfive : ∀ type : IntegerType, (5 : Int) ∈ type.values := by
    rintro ⟨width, signed⟩
    cases width <;> cases signed <;> decide +kernel
  refine ⟨unit, s', h, t, s₁, htrace, fun v hv => hleaves (some v) hv v rfl, _, hparse,
    array, by simp [harguments], ⟨.lt, .lit 5⟩, by simp [array, hfacts], rfl, ⟨fun _ => 5, fun _ => []⟩,
    fun _ _ type _ => hfive type, ⟨1, rfl, by decide⟩, ?_⟩
  rintro ⟨v, hv, hlt⟩
  rw [Expr.eval?_lit, Option.some.injEq] at hv
  subst hv
  exact Int.lt_irrefl 5 hlt

end Script

end GuardedC
