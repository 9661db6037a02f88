import GuardedC.Proofs.Compiled

/-!
# When a frame has ranges

The facts of an argument are folded in one after the other, and the fold stops at the first fact
that compares with something unknown or that leaves no value. This module says in terms of the facts
alone which of the two it is.

* `foldlM_refine_eq_error`: a chain of refinements stops at an unknown operand exactly if the facts
  before it can hold together; otherwise it stops because all facts cannot;
* `Frame.rangesOf_eq_error`: the argument that is reported is the first one whose facts stop the
  fold;
* `Frame.collapse_exact` puts this together with the rows of the arguments that come through.
-/

namespace GuardedC

/-! ## Facts that stop a refinement -/

/-- Some value satisfies all the facts. -/
def Together (start : IntSet) (facts : List Fact) : Prop := ∃ v ∈ start, ∀ fact ∈ facts, fact.Admits v

/-- The fact is the first one with an unknown operand, and those before it can hold together. -/
def HaltsAt (start : IntSet) (facts : List Fact) (fact : Fact) : Prop :=
  ∃ before after, facts = before ++ fact :: after ∧ (∀ g ∈ before, ∃ w, g.operand = .lit w) ∧
    (∀ w, fact.operand ≠ .lit w) ∧ Together start before

section

variable {start : IntSet} {fact g : Fact} {facts : List Fact} {w : Int} {argument : String} {e : RangeError}

/-- What one fact with a known operand leaves. -/
theorem mem_restrict_iff_admits (hstart : ∀ v ∈ start, v < Wide.highest) (hg : g.operand = .lit w)
    (v : Int) :
    v ∈ start.restrict g.op w ↔ v ∈ start ∧ g.Admits v := by
  rw [IntSet.mem_restrict hstart]
  simp [Fact.Admits, hg]

theorem together_cons (hstart : ∀ v ∈ start, v < Wide.highest) (hg : g.operand = .lit w) :
    Together start (g :: facts) ↔ Together (start.restrict g.op w) facts := by
  unfold Together
  simp only [mem_restrict_iff_admits hstart hg, List.mem_cons, forall_eq_or_imp, and_assoc]

theorem haltsAt_unknown (hg : ∀ w, g.operand ≠ .lit w) (hne : ∃ v, v ∈ start) :
    HaltsAt start (g :: facts) fact ↔ fact = g := by
  constructor
  · rintro ⟨before, after, hsplit, hknown, _, _⟩
    cases before with
    | nil =>
      rw [List.nil_append, List.cons.injEq] at hsplit
      exact hsplit.1.symm
    | cons first before =>
      rw [List.cons_append, List.cons.injEq] at hsplit
      obtain ⟨w, hw⟩ := hknown first (.head _)
      exact absurd (hsplit.1 ▸ hw) (hg w)
  · rintro rfl
    obtain ⟨v, hv⟩ := hne
    exact ⟨[], facts, rfl, by simp, hg, v, hv, by simp⟩

theorem haltsAt_known (hstart : ∀ v ∈ start, v < Wide.highest) (hg : g.operand = .lit w) :
    HaltsAt start (g :: facts) fact ↔ HaltsAt (start.restrict g.op w) facts fact := by
  constructor
  · rintro ⟨before, after, hsplit, hknown, hunknown, htogether⟩
    cases before with
    | nil =>
      rw [List.nil_append, List.cons.injEq] at hsplit
      exact absurd (hsplit.1 ▸ hg) (hunknown w)
    | cons first before =>
      rw [List.cons_append, List.cons.injEq] at hsplit
      obtain ⟨rfl, hrest⟩ := hsplit
      exact ⟨before, after, hrest, fun f hf => hknown f (.tail _ hf), hunknown,
        (together_cons hstart hg).1 htogether⟩
  · rintro ⟨before, after, rfl, hknown, hunknown, htogether⟩
    refine ⟨g :: before, after, rfl, ?_, hunknown, (together_cons hstart hg).2 htogether⟩
    intro f hf
    rcases List.mem_cons.1 hf with rfl | hf
    · exact ⟨w, hg⟩
    · exact hknown f hf

theorem refine_unknown (argument : String) (range : IntSet) (hg : ∀ w, g.operand ≠ .lit w) :
    refine argument range g = .error (.nonLiteral argument g) := by
  have hnone : g.operand.literal? = none := by
    cases hliteral : g.operand.literal? with
    | none => rfl
    | some w => exact absurd (Expr.eq_lit_of_literal? hliteral) (hg w)
  simp only [refine, hnone]

theorem refine_unsatisfiable (argument : String) {range : IntSet} (hg : g.operand = .lit w)
    (hrest : ¬ ∃ v, v ∈ range.restrict g.op w) :
    refine argument range g = .error (.unsatisfiable argument) := by
  have hempty : (range.restrict g.op w).isEmpty = true := by
    rw [← Bool.not_eq_false, IntSet.isEmpty_eq_false_iff]
    exact hrest
  have hliteral : g.operand.literal? = some w := by rw [hg, Expr.literal?]
  rw [refine_of_literal hliteral, if_pos hempty]

/-- A chain of refinements stops at an unknown operand if it gets there, and otherwise where no
value is left. -/
theorem foldlM_refine_eq_error (hstart : ∀ v ∈ start, v < Wide.highest) (hne : ∃ v, v ∈ start) :
    facts.foldlM (refine argument) start = .error e ↔
      (∃ fact, HaltsAt start facts fact ∧ e = .nonLiteral argument fact) ∨
        (¬ ∃ fact, HaltsAt start facts fact) ∧ ¬ Together start facts ∧ e = .unsatisfiable argument := by
  induction facts generalizing start with
  | nil =>
    have hnever : ∀ fact, ¬ HaltsAt start [] fact := by
      rintro fact ⟨before, after, hsplit, _⟩
      simp at hsplit
    have htogether : Together start [] := by
      obtain ⟨v, hv⟩ := hne
      exact ⟨v, hv, by simp⟩
    simp [hnever, htogether, pure, Except.pure]
  | cons g facts ih =>
    rw [List.foldlM_cons, except_bind_error]
    by_cases hg : ∃ w, g.operand = .lit w
    · obtain ⟨w, hw⟩ := hg
      simp only [haltsAt_known hstart hw, together_cons hstart hw]
      by_cases hrest : ∃ v, v ∈ start.restrict g.op w
      · -- the fold goes on with what is left
        have hstep : refine argument start g = .ok (start.restrict g.op w) :=
          refine_eq_ok.2 ⟨w, hw, rfl, hrest⟩
        have hbound : ∀ v ∈ start.restrict g.op w, v < Wide.highest := by
          intro v hv
          exact hstart v ((mem_restrict_iff_admits hstart hw v).1 hv).1
        rw [← ih hbound hrest]
        simp [hstep]
      · have hstep := refine_unsatisfiable argument hw hrest
        have hapart : ∀ gs, ¬ Together (start.restrict g.op w) gs := by
          rintro gs ⟨v, hv, _⟩
          exact hrest ⟨v, hv⟩
        have hnever : ∀ fact, ¬ HaltsAt (start.restrict g.op w) facts fact := by
          rintro fact ⟨before, _, _, _, _, htogether⟩
          exact hapart before htogether
        simp [hstep, hapart, hnever, eq_comm]
    · have hunknown : ∀ w, g.operand ≠ .lit w := fun w hw => hg ⟨w, hw⟩
      have hstep := refine_unknown argument start hunknown
      simp [hstep, haltsAt_unknown hunknown hne, eq_comm]

/-- A chain of refinements comes through exactly if all operands are known and the facts can hold
together. -/
theorem exists_foldlM_refine_iff (argument : String) (hstart : ∀ v ∈ start, v < Wide.highest)
    (hne : ∃ v, v ∈ start) :
    (∃ range, facts.foldlM (refine argument) start = .ok range) ↔
      (∀ fact ∈ facts, ∃ w, fact.operand = .lit w) ∧ Together start facts := by
  constructor
  · rintro ⟨range, hrange⟩
    have hrefines := refines_of_foldlM hstart hrange
    obtain ⟨v, hv⟩ := hrefines.nonempty hne
    exact ⟨hrefines.literal, v, (hrefines.mem v).1 hv⟩
  · rintro ⟨hknown, htogether⟩
    cases hfold : facts.foldlM (refine argument) start with
    | ok range => exact ⟨range, rfl⟩
    | error e =>
      rcases (foldlM_refine_eq_error hstart hne).1 hfold with ⟨fact, hhalts, _⟩ | ⟨_, hapart, _⟩
      · obtain ⟨before, after, rfl, _, hunknown, _⟩ := hhalts
        obtain ⟨w, hw⟩ := hknown fact (List.mem_append_right _ (.head _))
        exact absurd hw (hunknown w)
      · exact absurd htogether hapart

end

/-! ## Arguments -/

namespace Frame

/-- The operands of all facts about the argument are known, and a value of its type satisfies them
all. Of arguments that are no integers nothing is asked. -/
def Collapsible (f : Frame) (a : Argument) : Prop :=
  ∀ type, a.ty = .integer type →
    (∀ fact ∈ f.factsAt a.index, ∃ w, fact.operand = .lit w) ∧ ∃ v ∈ type.values, f.Admits a v

/-- The failure that the facts about an argument lead to: an unknown operand, if the facts before it
can hold together, and otherwise that no value is left. -/
def Blames (f : Frame) (a : Argument) (e : RangeError) : Prop :=
  ∃ type, a.ty = .integer type ∧
    ((∃ fact, HaltsAt type.values (f.factsAt a.index) fact ∧ e = .nonLiteral a.name fact) ∨
      (¬ ∃ fact, HaltsAt type.values (f.factsAt a.index) fact) ∧ e = .unsatisfiable a.name)

variable {f : Frame} {a : Argument} {e : RangeError}

theorem range?_of_integer {type : IntegerType} (htype : a.ty = .integer type) :
    f.range? a = (do
      let range ← (f.factsAt a.index).foldlM (refine a.name) type.values
      return some ⟨a, type.values, range⟩) := by
  simp only [range?, htype, Ty.values?, Ty.integer?, Option.map_some]

theorem range?_of_not_integer (hty : ∀ type, a.ty ≠ .integer type) : f.range? a = .ok none := by
  unfold range?
  cases htype : a.ty with
  | integer type => exact absurd htype (hty type)
  | byteArray length => rfl
  | void => rfl

theorem collapsible_iff {type : IntegerType} (htype : a.ty = .integer type) :
    f.Collapsible a ↔
      (∀ fact ∈ f.factsAt a.index, ∃ w, fact.operand = .lit w) ∧
      Together type.values (f.factsAt a.index) := by
  constructor
  · intro h
    exact h type htype
  · intro h type' htype'
    rw [htype, Ty.integer.injEq] at htype'
    exact htype' ▸ h

theorem exists_range?_iff : (∃ row, f.range? a = .ok row) ↔ f.Collapsible a := by
  by_cases hinteger : ∃ type, a.ty = .integer type
  · obtain ⟨type, htype⟩ := hinteger
    rw [collapsible_iff htype, range?_of_integer htype,
      ← exists_foldlM_refine_iff a.name (fun _ => IntegerType.lt_highest) type.exists_value]
    constructor
    · rintro ⟨row, hrow⟩
      obtain ⟨range, hrange, _⟩ := except_bind_ok.1 hrow
      exact ⟨range, hrange⟩
    · rintro ⟨range, hrange⟩
      exact ⟨_, except_bind_ok.2 ⟨range, hrange, rfl⟩⟩
  · have hty : ∀ type, a.ty ≠ .integer type := fun type htype => hinteger ⟨type, htype⟩
    exact iff_of_true ⟨none, range?_of_not_integer hty⟩ fun type htype => absurd htype (hty type)

theorem range?_eq_error : f.range? a = .error e ↔ ¬ f.Collapsible a ∧ f.Blames a e := by
  by_cases hinteger : ∃ type, a.ty = .integer type
  · obtain ⟨type, htype⟩ := hinteger
    have hfold : f.range? a = .error e ↔
        (f.factsAt a.index).foldlM (refine a.name) type.values = .error e := by
      rw [range?_of_integer htype, except_bind_error]
      refine or_iff_left ?_
      rintro ⟨range, _, h⟩
      cases h
    have hblames : f.Blames a e ↔
        (∃ fact, HaltsAt type.values (f.factsAt a.index) fact ∧ e = .nonLiteral a.name fact) ∨
          (¬ ∃ fact, HaltsAt type.values (f.factsAt a.index) fact) ∧ e = .unsatisfiable a.name := by
      unfold Blames
      simp only [htype, Ty.integer.injEq, exists_eq_left']
    rw [hfold, foldlM_refine_eq_error (fun _ => IntegerType.lt_highest) type.exists_value, hblames,
      collapsible_iff htype]
    constructor
    · rintro (⟨fact, hhalts, rfl⟩ | ⟨hnever, hapart, rfl⟩)
      · refine ⟨?_, .inl ⟨fact, hhalts, rfl⟩⟩
        rintro ⟨hknown, _⟩
        obtain ⟨before, after, hsplit, _, hunknown, _⟩ := hhalts
        obtain ⟨w, hw⟩ := hknown fact (by rw [hsplit]; exact List.mem_append_right _ (.head _))
        exact hunknown w hw
      · exact ⟨fun h => hapart h.2, .inr ⟨hnever, rfl⟩⟩
    · rintro ⟨hnot, ⟨fact, hhalts, rfl⟩ | ⟨hnever, rfl⟩⟩
      · exact .inl ⟨fact, hhalts, rfl⟩
      · refine .inr ⟨hnever, ?_, rfl⟩
        -- facts that hold together have known operands
        intro htogether
        refine hnot ⟨?_, htogether⟩
        intro fact hfact
        obtain ⟨v, _, hadmits⟩ := htogether
        obtain ⟨w, hw, _⟩ := hadmits fact hfact
        exact ⟨w, hw⟩
  · have hty : ∀ type, a.ty ≠ .integer type := fun type htype => hinteger ⟨type, htype⟩
    rw [range?_of_not_integer hty]
    refine iff_of_false (by rintro ⟨⟩) ?_
    rintro ⟨_, type, htype, _⟩
    exact hty type htype

/-! ## Frames -/

/-- The first argument without a range is reported. -/
theorem rangesOf_eq_error {args : List Argument} :
    f.rangesOf args = .error e ↔
      ∃ before a after, args = before ++ a :: after ∧ (∀ b ∈ before, f.Collapsible b) ∧
        ¬ f.Collapsible a ∧ f.Blames a e := by
  induction args with
  | nil => simp [rangesOf]
  | cons b args ih =>
    rw [rangesOf, except_bind_error, range?_eq_error]
    constructor
    · rintro (hfail | ⟨row, hrow, hrest⟩)
      · exact ⟨[], b, args, rfl, by simp, hfail⟩
      · have hlater : f.rangesOf args = .error e := by
          rcases except_bind_error.1 hrest with h | ⟨_, _, h⟩
          · exact h
          · cases h
        obtain ⟨before, a, after, rfl, hbefore, ha⟩ := ih.1 hlater
        refine ⟨b :: before, a, after, rfl, ?_, ha⟩
        intro c hc
        rcases List.mem_cons.1 hc with rfl | hc
        · exact exists_range?_iff.1 ⟨row, hrow⟩
        · exact hbefore c hc
    · rintro ⟨before, a, after, hsplit, hbefore, ha⟩
      cases before with
      | nil =>
        rw [List.nil_append, List.cons.injEq] at hsplit
        rw [hsplit.1]
        exact .inl ha
      | cons c before =>
        rw [List.cons_append, List.cons.injEq] at hsplit
        obtain ⟨rfl, rfl⟩ := hsplit
        obtain ⟨row, hrow⟩ := exists_range?_iff.2 (hbefore b (.head _))
        have hlater := ih.2 ⟨before, a, after, rfl, fun c hc => hbefore c (.tail _ hc), ha⟩
        exact .inr ⟨row, hrow, except_bind_error.2 (.inl hlater)⟩

theorem exists_rangesOf_iff {args : List Argument} :
    (∃ rows, f.rangesOf args = .ok rows) ↔ ∀ a ∈ args, f.Collapsible a := by
  induction args with
  | nil => simp [rangesOf]
  | cons a args ih =>
    rw [List.forall_mem_cons, ← ih, ← exists_range?_iff]
    simp only [rangesOf, except_bind_ok, except_pure_ok]
    constructor
    · rintro ⟨_, row, hrow, rows, hrows, _⟩
      exact ⟨⟨row, hrow⟩, rows, hrows⟩
    · rintro ⟨⟨row, hrow⟩, rows, hrows⟩
      exact ⟨_, row, hrow, rows, hrows, rfl⟩

/-- The rows stand in the order of their arguments. -/
theorem map_argument_of_rangesOf {args : List Argument} {rows : List ArgumentRange}
    (h : f.rangesOf args = .ok rows) :
    rows.map ArgumentRange.argument = args.filter fun a => a.ty.integer?.isSome := by
  induction args generalizing rows with
  | nil =>
    cases h
    rfl
  | cons a args ih =>
    simp only [rangesOf, except_bind_ok, except_pure_ok] at h
    obtain ⟨row, hrow, rest, hrest, rfl⟩ := h
    rw [List.map_append, ih hrest]
    rcases exact_of_range? hrow with ⟨rfl, hty⟩ | ⟨r, rfl, rfl, hexact⟩
    · have hno : a.ty.integer?.isSome = false := by
        cases htype : a.ty with
        | integer type => exact absurd htype (hty type)
        | _ => rfl
      simp [hno]
    · obtain ⟨type, htype, _⟩ := hexact.typed
      simp [htype, Ty.integer?]

/-- Computing the ranges of a frame touches nothing but the log. -/
theorem run_collapse (f : Frame) (s : Session) :
    f.collapse.run.run s = (f.ranges, { s with log := s.log ++ f.rangesLog }) := rfl

/-- The ranges of a frame exist exactly if the facts about each integer argument have known operands
and can hold together. Then there is one row for each integer argument, in order, which holds
exactly the values that satisfy its facts. Otherwise the first argument that breaks this is
reported, with the fact whose operand is unknown if the facts before it can hold together, and
without one if not. No fact has an operator whose solutions are not known. -/
theorem collapse_exact (f : Frame) (s : Session) :
    ((∃ rows, (f.collapse.run.run s).1 = .ok rows) ↔
      ∀ a ∈ f.arguments, ∀ type, a.ty = .integer type →
        (∀ fact ∈ f.factsAt a.index, ∃ w, fact.operand = .lit w) ∧ ∃ v ∈ type.values, f.Admits a v) ∧
    (∀ rows, (f.collapse.run.run s).1 = .ok rows →
      rows.map ArgumentRange.argument = (f.arguments.filter fun a => a.ty.integer?.isSome) ∧
      ∀ r ∈ rows, ∃ type, r.argument.ty = .integer type ∧ r.possible = type.values ∧
        ∀ v, v ∈ r.range ↔ v ∈ type.values ∧ f.Admits r.argument v) ∧
    (∀ e, (f.collapse.run.run s).1 = .error e ↔
      ∃ before a after, f.arguments = before ++ a :: after ∧ (∀ b ∈ before, f.Collapsible b) ∧
        ¬ f.Collapsible a ∧ f.Blames a e) ∧
    ∀ a ∈ f.arguments, ∀ fact ∈ f.factsAt a.index, ∀ literal low high,
      Operator.solutions? fact.op literal low high = some (fact.op.solutions literal low high) := by
  rw [run_collapse]
  refine ⟨exists_rangesOf_iff, ?_, fun e => rangesOf_eq_error, fun _ _ _ _ _ _ _ => rfl⟩
  intro rows hrows
  have hrowsOf := rowsOf_of_rangesOf hrows
  refine ⟨map_argument_of_rangesOf hrows, ?_⟩
  intro r hr
  obtain ⟨type, htype, hpossible⟩ := (hrowsOf.exact r hr).typed
  refine ⟨type, htype, hpossible, ?_⟩
  intro v
  rw [(hrowsOf.exact r hr).refines.mem v, hpossible]
  rfl

/-- A frame of two bytes, with facts about the second one. -/
def twoBytes (facts : List Fact) : Frame where
  arguments := [⟨0, "arg_0", .integer ⟨.w8, false⟩, 0⟩, ⟨1, "arg_1", .integer ⟨.w8, false⟩, 0⟩]
  params := []
  facts := [[], facts]
  complex := []

/-- The byte is below the first one. -/
def belowFirst : Fact := ⟨.lt, .argument ⟨0, "arg_0", .integer ⟨.w8, false⟩, 0⟩⟩

/-- Of an unknown operand and a contradiction, what comes first is reported. -/
theorem collapse_exact_twoBytes :
    let unknownFirst := twoBytes [⟨.lt, .lit 10⟩, belowFirst, ⟨.eq, .lit 300⟩]
    let contradictionFirst := twoBytes [⟨.lt, .lit 10⟩, ⟨.eq, .lit 300⟩, belowFirst]
    (∃ before a after, unknownFirst.arguments = before ++ a :: after ∧
      (∀ b ∈ before, unknownFirst.Collapsible b) ∧ ¬ unknownFirst.Collapsible a ∧
        unknownFirst.Blames a (.nonLiteral "arg_1" belowFirst)) ∧
    ∃ before a after, contradictionFirst.arguments = before ++ a :: after ∧
      (∀ b ∈ before, contradictionFirst.Collapsible b) ∧ ¬ contradictionFirst.Collapsible a ∧
        contradictionFirst.Blames a (.unsatisfiable "arg_1") := by
  intro unknownFirst contradictionFirst
  have hunknown : (unknownFirst.collapse.run.run Session.empty).1 =
      .error (.nonLiteral "arg_1" belowFirst) := by
    decide +kernel
  have hcontradiction : (contradictionFirst.collapse.run.run Session.empty).1 =
      .error (.unsatisfiable "arg_1") := by
    decide +kernel
  have hfirst := (collapse_exact unknownFirst Session.empty).2.2.1 (.nonLiteral "arg_1" belowFirst)
  have hsecond := (collapse_exact contradictionFirst Session.empty).2.2.1 (.unsatisfiable "arg_1")
  exact ⟨hfirst.1 hunknown, hsecond.1 hcontradiction⟩

end Frame

end GuardedC
