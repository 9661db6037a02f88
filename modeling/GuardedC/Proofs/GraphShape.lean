import GuardedC.Proofs.Attempts

/-!
# The shape of values

Checked operations keep integers, conditions and byte views apart, compute what is known at once,
and express every view against the array itself. So whatever a script does with the parameters of a
frame, the expressions that it can get hold of have a narrow shape: `Expr.NodeOk` says of each node
what may stand below it, and `Value.WellFormed` what a register can hold.

`Expr.IsInteger`, `Expr.IsCondition` and `Bytes.IsView` describe the same values from the top down.
Operations keep these (`sortedClosed_shape`; for the five fields of a view, `ArrayIn.isView` and
`Bytes.IsView.part`), what is recorded for a condition has them too (`recorded_shape`), and every
node in such an expression is as it should be (`Expr.IsInteger.nodes`, `Expr.IsCondition.nodes`,
`Bytes.IsView.nodes`).
-/

namespace GuardedC

/-! ## Nodes -/

/-- An expression and all expressions in it. -/
def Expr.nodes : Expr → List Expr
  | lit v => [lit v]
  | argument a => [argument a]
  | binary op l r => binary op l r :: (l.nodes ++ r.nodes)
  | byteIndex source key => byteIndex source key :: (source.nodes ++ key.nodes)
  | byteSlice base start length =>
      byteSlice base start length :: (base.nodes ++ start.nodes ++ length.nodes)

/-- A comparison or a connective. -/
def Expr.isTest : Expr → Bool
  | binary (.compare _) _ _ | binary (.connect _) _ _ => true
  | _ => false

/-- No comparison and no connective stands in it. -/
def Expr.NoTest (e : Expr) : Prop := ∀ n ∈ e.nodes, n.isTest = false

/-- The pointer of a byte array. -/
def Expr.IsPointer (args : List Argument) (e : Expr) : Prop :=
  ∃ a ∈ args, e = .argument a ∧ ∃ length, a.ty = .byteArray length

/-- What stands directly below a node is of the right kind. -/
def Expr.NodeOk (args : List Argument) : Expr → Prop
  | lit _ | argument _ => True
  | binary (.arith op) l r =>
    -- known integers stay apart only where the operation has no value
    (∀ a b, l = lit a → r = lit b → op.eval? a b = none) ∧ l.NoTest ∧ r.NoTest
  | binary (.compare _) l r => (l.isLiteral = false ∨ r.isLiteral = false) ∧ l.NoTest ∧ r.NoTest
  | binary (.connect _) l r => l.isTest = true ∧ r.isTest = true
  | byteIndex source key => source.IsPointer args ∧ key.NoTest
  | byteSlice base start length => base.IsPointer args ∧ start.NoTest ∧ length.NoTest

/-! ## Values -/

/-- The five fields of a byte sequence belong together: what is seen is an array, from its start on
and in its length, or else the slice of an array that has the bounds of the sequence. The array is
an argument, and the argument that follows it is its length. -/
structure Bytes.WellFormed (args : List Argument) (b : Bytes) : Prop where
  consistent : b.Consistent
  array : ArrayIn args b.source b.sourceLength

/-- All expressions in a value. -/
def Value.nodes : Value → List Expr
  | nothing | cond (.known _) => []
  | int e | cond (.symbolic e) => e.nodes
  | bytes b => b.expr.nodes ++ b.start.nodes ++ b.length.nodes

structure Value.WellFormed (args : List Argument) (v : Value) : Prop where
  nodes : ∀ n ∈ v.nodes, n.NodeOk args
  integer : ∀ e, v = .int e → e.NoTest
  condition : ∀ e, v = .cond (.symbolic e) → e.isTest = true
  view : ∀ b, v = .bytes b → b.WellFormed args ∧ b.start.NoTest ∧ b.length.NoTest

/-- What a frame keeps is made of such values. -/
structure Frame.WellFormed (f : Frame) : Prop where
  facts : ∀ facts ∈ f.facts, ∀ fact ∈ facts, (Value.int fact.operand).WellFormed f.arguments
  complex : ∀ fact ∈ f.complex, (Value.cond (.symbolic fact.expr)).WellFormed f.arguments

/-! ## From the top down -/

/-- Made of known integers, integer arguments, arithmetic and bytes. -/
def Expr.IsInteger (args : List Argument) : Expr → Prop
  | lit _ => True
  | argument a => a ∈ args ∧ ∃ type, a.ty = .integer type
  | binary (.arith op) l r =>
    (∀ a b, l = lit a → r = lit b → op.eval? a b = none) ∧ l.IsInteger args ∧ r.IsInteger args
  | binary (.compare _) _ _ | binary (.connect _) _ _ => False
  | byteIndex source key => source.IsPointer args ∧ key.IsInteger args
  | byteSlice _ _ _ => False

/-- Made of comparisons of integers. -/
def Expr.IsCondition (args : List Argument) : Expr → Prop
  | binary (.compare _) l r =>
    (l.isLiteral = false ∨ r.isLiteral = false) ∧ l.IsInteger args ∧ r.IsInteger args
  | binary (.connect _) l r => l.IsCondition args ∧ r.IsCondition args
  | _ => False

/-- An array of the frame, or a window onto it between integers. -/
structure Bytes.IsView (args : List Argument) (b : Bytes) : Prop where
  wellFormed : b.WellFormed args
  start : b.start.IsInteger args
  length : b.length.IsInteger args

section

variable {args : List Argument}

theorem Expr.IsPointer.nodes {e : Expr} (h : e.IsPointer args) :
    (∀ n ∈ e.nodes, n.NodeOk args) ∧ e.NoTest := by
  rcases h with ⟨a, _, rfl, _⟩
  simp only [Expr.nodes, NoTest, List.forall_mem_singleton]
  exact ⟨trivial, rfl⟩

theorem ArrayIn.isPointer {data size : Argument} (h : ArrayIn args data size) :
    (Expr.argument data).IsPointer args := by
  rcases h.typed with ⟨type, _, hdata, _⟩
  exact ⟨data, h.data_mem, rfl, type, hdata⟩

theorem Expr.IsInteger.nodes {e : Expr} (h : e.IsInteger args) :
    (∀ n ∈ e.nodes, n.NodeOk args) ∧ e.NoTest := by
  induction e with
  | lit v =>
    simp only [Expr.nodes, NoTest, List.forall_mem_singleton]
    exact ⟨trivial, rfl⟩
  | argument a =>
    simp only [Expr.nodes, NoTest, List.forall_mem_singleton]
    exact ⟨trivial, rfl⟩
  | binary op l r ihl ihr =>
    cases op with
    | arith op =>
      rcases h with ⟨hfold, hl, hr⟩
      have hleft := ihl hl
      have hright := ihr hr
      have hnode : (binary (.arith op) l r).NodeOk args := ⟨hfold, hleft.2, hright.2⟩
      simp only [Expr.nodes, NoTest, List.forall_mem_cons, List.forall_mem_append]
      exact ⟨⟨hnode, hleft.1, hright.1⟩, rfl, hleft.2, hright.2⟩
    | compare op => exact h.elim
    | connect op => exact h.elim
  | byteIndex source key _ ihkey =>
    rcases h with ⟨hsource, hkey⟩
    have hpointer := hsource.nodes
    have hbelow := ihkey hkey
    have hnode : (byteIndex source key).NodeOk args := ⟨hsource, hbelow.2⟩
    simp only [Expr.nodes, NoTest, List.forall_mem_cons, List.forall_mem_append]
    exact ⟨⟨hnode, hpointer.1, hbelow.1⟩, rfl, hpointer.2, hbelow.2⟩
  | byteSlice base start length _ _ _ => exact h.elim

theorem Expr.IsCondition.nodes {e : Expr} (h : e.IsCondition args) :
    (∀ n ∈ e.nodes, n.NodeOk args) ∧ e.isTest = true := by
  fun_induction Expr.IsCondition args e with
  | case1 op l r =>
    rcases h with ⟨hsymbolic, hl, hr⟩
    have hnode : (binary (.compare op) l r).NodeOk args := ⟨hsymbolic, hl.nodes.2, hr.nodes.2⟩
    simp only [Expr.nodes, List.forall_mem_cons, List.forall_mem_append]
    exact ⟨⟨hnode, hl.nodes.1, hr.nodes.1⟩, rfl⟩
  | case2 op l r ihl ihr =>
    rcases h with ⟨hl, hr⟩
    have hleft := ihl hl
    have hright := ihr hr
    have hnode : (binary (.connect op) l r).NodeOk args := ⟨hleft.2, hright.2⟩
    simp only [Expr.nodes, List.forall_mem_cons, List.forall_mem_append]
    exact ⟨⟨hnode, hleft.1, hright.1⟩, rfl⟩
  | case3 e _ _ => exact h.elim

theorem ArrayIn.isInteger {data size : Argument} (h : ArrayIn args data size) :
    (Expr.argument size).IsInteger args := by
  rcases h.typed with ⟨type, _, _, hsize⟩
  exact ⟨h.size_mem, type, hsize⟩

/-- A whole array has the right fields. -/
theorem ArrayIn.isView {data size : Argument} (h : ArrayIn args data size) :
    (Bytes.array data size).IsView args :=
  ⟨⟨Bytes.consistent_array data size, h⟩, trivial, h.isInteger⟩

namespace Bytes.IsView

variable {b : Bytes}

theorem isPointer (h : b.IsView args) : b.base.IsPointer args := by
  rw [h.wellFormed.consistent.base]
  exact h.wellFormed.array.isPointer

theorem arrayLength (h : b.IsView args) : b.arrayLength.IsInteger args := by
  rw [h.wellFormed.consistent.arrayLength]
  exact h.wellFormed.array.isInteger

/-- A part between integers has the right fields, whatever it is a part of: it lies in the same
array. -/
theorem part (h : b.IsView args) {start length : Expr} (hstart : start.IsInteger args)
    (hlength : length.IsInteger args) : (b.part start length).IsView args :=
  ⟨⟨h.wellFormed.consistent.part start length, h.wellFormed.array⟩, hstart, hlength⟩

theorem nodes (h : b.IsView args) : ∀ n ∈ b.view.nodes, n.NodeOk args := by
  rcases h.wellFormed.consistent.shape with ⟨hview, _⟩ | hview
  · rw [hview]
    exact h.isPointer.nodes.1
  · have hstart := h.start.nodes
    have hlength := h.length.nodes
    have hnode : (Expr.byteSlice b.base b.start b.length).NodeOk args := ⟨h.isPointer, hstart.2, hlength.2⟩
    rw [hview]
    simp only [Expr.nodes, List.forall_mem_cons, List.forall_mem_append]
    exact ⟨hnode, ⟨h.isPointer.nodes.1, hstart.1⟩, hlength.1⟩

end Bytes.IsView

/-- What operations keep is enough. -/
theorem Value.Sorted.wellFormed {v : Value}
    (h : v.Sorted (Expr.IsInteger args) (Expr.IsCondition args) (Bytes.IsView args)) :
    v.WellFormed args := by
  -- of the last three fields, only the one for this kind of value says anything
  cases v with
  | nothing => refine ⟨by simp [Value.nodes], ?_, ?_, ?_⟩ <;> rintro _ ⟨⟩
  | int e =>
    have hnodes := Expr.IsInteger.nodes h
    refine ⟨hnodes.1, ?_, ?_, ?_⟩ <;> rintro _ ⟨⟩
    exact hnodes.2
  | bytes b =>
    have hview : b.IsView args := h
    have hstart := hview.start.nodes
    have hlength := hview.length.nodes
    refine ⟨?_, ?_, ?_, ?_⟩
    · simp only [Value.nodes, List.forall_mem_append]
      exact ⟨⟨hview.nodes, hstart.1⟩, hlength.1⟩
    · rintro _ ⟨⟩
    · rintro _ ⟨⟩
    · rintro _ ⟨⟩
      exact ⟨hview.wellFormed, hstart.2, hlength.2⟩
  | cond c =>
    cases c with
    | known b => refine ⟨by simp [Value.nodes], ?_, ?_, ?_⟩ <;> rintro _ ⟨⟩
    | symbolic e =>
      have hnodes := Expr.IsCondition.nodes h
      refine ⟨hnodes.1, ?_, ?_, ?_⟩ <;> rintro _ ⟨⟩
      exact hnodes.2

/-! ## What operations keep -/

theorem Expr.IsInteger.arith {op : Arith} {l r : Expr} (hl : l.IsInteger args) (hr : r.IsInteger args) :
    (Expr.arith op l r).IsInteger args := by
  unfold Expr.arith
  split
  · rename_i a b ha hb
    cases hfold : op.eval? a b with
    | some v => trivial
    | none =>
      -- the operation has no value, so the node stays
      refine ⟨?_, hl, hr⟩
      rintro _ _ rfl rfl
      cases ha
      cases hb
      exact hfold
  · rename_i hsymbolic
    refine ⟨?_, hl, hr⟩
    rintro a b rfl rfl
    exact (hsymbolic a b rfl rfl).elim

theorem Expr.IsInteger.compare {op : Comparison} {l r : Expr} (hl : l.IsInteger args)
    (hr : r.IsInteger args) :
    (l.compare op r).All (Expr.IsCondition args) := by
  unfold Expr.compare
  split
  · trivial
  · rename_i hsymbolic
    refine ⟨?_, hl, hr⟩
    by_contra hliteral
    simp only [not_or, Bool.not_eq_false, Expr.isLiteral, Option.isSome_iff_exists] at hliteral
    rcases hliteral with ⟨⟨a, ha⟩, ⟨b, hb⟩⟩
    exact hsymbolic a b ha hb

theorem sortedClosed_shape :
    SortedClosed (fun _ => True) (Expr.IsInteger args) (Expr.IsCondition args)
      (Bytes.IsView args) where
  lit _ := trivial
  arith hl hr := hl.arith hr
  compare hl hr := hl.compare hr
  connect hl hr := ⟨hl, hr⟩
  arrayLength hb := hb.arrayLength
  bounds hb := ⟨hb.start, hb.length⟩
  byteAt hb hkey _ := ⟨hb.isPointer, hkey⟩
  slice hb hstart hlength _ := hb.part hstart hlength

theorem Param.In.sorted {p : Param} (h : p.In args) :
    p.toValue.Sorted (Expr.IsInteger args) (Expr.IsCondition args) (Bytes.IsView args) := by
  cases p with
  | int e =>
    rcases h with ⟨a, ha, htype, rfl⟩
    exact ⟨ha, htype⟩
  | bytes b =>
    rcases h with ⟨data, size, harray, rfl⟩
    exact harray.isView

/-! ## What a frame keeps -/

/-- The operand of a fact is an integer, and a complex fact is a condition. -/
def FrameEntry.Sorted (I C : Expr → Prop) : FrameEntry → Prop
  | fact _ f => I f.operand
  | complex _ f => C f.expr

theorem recorded_shape :
    Recorded (Expr.IsCondition args) (FrameEntry.Sorted (Expr.IsInteger args) (Expr.IsCondition args)) where
  conjuncts h := h
  comparison h hx := by
    have hsides := h.2
    unfold Comparison.entry? at hx
    split at hx
    · cases hx
      exact hsides.2
    · cases hx
      exact hsides.1
    · rcases Option.map_eq_some_iff.1 hx with ⟨a, _, rfl⟩
      exact h
    · rcases Option.map_eq_some_iff.1 hx with ⟨a, _, rfl⟩
      exact h
    · cases hx

/-- All that the frame keeps is of the right kind. -/
structure Frame.Sorted (I C : Expr → Prop) (f : Frame) : Prop where
  facts : ∀ i, ∀ fact ∈ f.factsAt i, I fact.operand
  complex : ∀ fact ∈ f.complex, C fact.expr

theorem Frame.Sorted.enterAll {I C : Expr → Prop} {f : Frame} (hf : f.Sorted I C) {es : List FrameEntry}
    (hes : ∀ x ∈ es, x.Sorted I C) : (f.enterAll es).Sorted I C := by
  constructor
  · intro i
    rw [f.factsAt_enterAll]
    refine List.forall_mem_append.2 ⟨hf.facts i, ?_⟩
    intro new hnew
    rcases List.mem_filterMap.1 hnew with ⟨x, hx, hfact⟩
    have hsorted := hes x hx
    cases x with
    | fact a fact =>
      simp only [FrameEntry.factAt?] at hfact
      split at hfact
      · cases hfact
        exact hsorted
      · cases hfact
    | complex a fact => cases hfact
  · rw [f.complex_enterAll]
    refine List.forall_mem_append.2 ⟨hf.complex, ?_⟩
    intro new hnew
    rcases List.mem_filterMap.1 hnew with ⟨x, hx, hfact⟩
    have hsorted := hes x hx
    cases x with
    | fact a fact => cases hfact
    | complex a fact =>
      cases hfact
      exact hsorted

end

/-! ## Runs -/

namespace Script

variable {args : List Argument} {id : FrameId} {env : Env} {s : Session}

/-- A value of the shape that checked operations keep. -/
abbrev IsShaped (args : List Argument) : Value → Prop :=
  Value.Sorted (Expr.IsInteger args) (Expr.IsCondition args) (Bytes.IsView args)

/-- What a script on the frame `id` has got hold of, and what the frame keeps. -/
structure Shaped (args : List Argument) (id : FrameId) (env : Env) (s : Session) : Prop where
  registers : ∀ v, some v ∈ env.registers → IsShaped args v
  given : ∀ ps, env.given = some ps → ∀ p ∈ ps, IsShaped args p.toValue
  frames : ∀ j ∈ env.frames, j = id
  frame : ∃ f, s.frame? id = some f ∧ f.arguments = args ∧ (∀ p ∈ f.params, IsShaped args p.toValue) ∧
    f.Sorted (Expr.IsInteger args) (Expr.IsCondition args)

namespace Shaped

theorem all (h : Shaped args id env s) : env.All (IsShaped args) s := by
  refine .of_frames h.registers h.given ?_
  intro j hj f hf
  cases h.frames j hj
  rcases h.frame with ⟨g, hg, _, hparams, _⟩
  rw [hg] at hf
  cases hf
  exact hparams

theorem pushNone (h : Shaped args id env s) :
    Shaped args id { env with registers := env.registers ++ [none] } s :=
  ⟨Env.forall_registers_push h.registers (by simp), h.given, h.frames, h.frame⟩

theorem pushValue (h : Shaped args id env s) {v : Value} (hv : IsShaped args v) :
    Shaped args id (env.push (.ok (.value v))) s :=
  ⟨Env.forall_registers_push h.registers (by simpa using hv), h.given, h.frames, h.frame⟩

/-- What is recorded of the right kind keeps the frame as it should be. -/
theorem enterAll (h : Shaped args id env s) {es : List FrameEntry}
    (hes : ∀ x ∈ es, x.Sorted (Expr.IsInteger args) (Expr.IsCondition args)) :
    Shaped args id env (s.enterAll es) := by
  refine ⟨h.registers, h.given, h.frames, ?_⟩
  rcases h.frame with ⟨f, hf, hargs, hparams, hsorted⟩
  have hframe := s.frame?_enterAll es id
  rw [hf] at hframe
  refine ⟨_, hframe, by simpa using hargs, by simpa using hparams, hsorted.enterAll ?_⟩
  intro x hx
  exact hes x (List.mem_filter.1 hx).1

theorem step (h : Shaped args id env s) {step : Step} (hchecked : step.Checked) :
    Shaped args id (env.push (step.attempt env s).1) (step.attempt env s).2 := by
  cases step with
  | op o =>
    cases heval : o.eval env s with
    | error fault =>
      rw [attempt_op_error heval]
      exact h.pushNone
    | ok result =>
      have hkeeps := Op.keeps_sorted sortedClosed_shape hchecked (h.all.sees o) heval
      rcases hkeeps fun _ _ => trivial with ⟨hconditions, hvalue⟩
      rcases hmet : GuardedC.attempt s.alive (result.conditions.flatMap Cond.demands) with ⟨es, met⟩
      -- whatever was recorded, also before a failure, came from these conditions
      have hnext : Shaped args id env (s.enterAll es) := by
        refine h.enterAll ?_
        intro x hx
        have hmem : x ∈ (GuardedC.attempt s.alive (result.conditions.flatMap Cond.demands)).1 := by
          rw [hmet]
          exact hx
        exact recorded_shape.of_conditions hconditions (of_mem_attempt hmem).1
      rw [attempt_op_ok heval hmet]
      rcases met with e | _
      · exact hnext.pushNone
      · show Shaped args id (env.push (.ok result.value)) _
        cases hanswer : result.value with
        | value v =>
          rw [hanswer] at hvalue
          exact hnext.pushValue hvalue
        | truth b => exact hnext.pushNone
        | _ =>
          rw [hanswer] at hvalue
          exact hvalue.elim
  | _ => exact hchecked.elim

theorem run (h : Shaped args id env s) {steps : List Step} (hchecked : ∀ step ∈ steps, step.Checked) :
    Shaped args id (after env s steps).1 (after env s steps).2 := by
  induction steps generalizing env s with
  | nil => exact h
  | cons step steps ih =>
    rcases List.forall_mem_cons.1 hchecked with ⟨hfirst, hrest⟩
    exact ih (h.step hfirst) hrest

/-- A frame starts with facts about the lengths of its arrays. -/
theorem start {params : List Ty} {slots : List Slot} {s₀ : Session}
    (h : Session.Opened params slots s₀ s id) :
    Shaped (slots.flatMap Slot.arguments) id
      { given := some (slots.map Slot.param), frames := [id] } s := by
  have hparams : ∀ p ∈ slots.map Slot.param, IsShaped (slots.flatMap Slot.arguments) p.toValue :=
    fun p hp => (h.layout.params_in p hp).sorted
  refine ⟨?_, ?_, fun j hj => List.mem_singleton.1 hj, _, h.frame, by simp [Frame.ofSlots], ?_, ?_⟩
  · intro v hv
    cases hv
  · rintro ps ⟨⟩
    exact hparams
  · rw [Frame.params_enterAll]
    exact hparams
  · have hempty : (Frame.ofSlots slots).Sorted (Expr.IsInteger (slots.flatMap Slot.arguments))
        (Expr.IsCondition (slots.flatMap Slot.arguments)) := by
      refine ⟨?_, ?_⟩
      · intro i fact hfact
        rw [Frame.factsAt_ofSlots] at hfact
        cases hfact
      · intro fact hfact
        cases hfact
    refine hempty.enterAll ?_
    intro x hx
    rcases List.mem_filterMap.1 hx with ⟨p, _, hentry⟩
    cases p with
    | int e => cases hentry
    | bytes b =>
      cases hentry
      trivial

end Shaped

/-- Whatever checked steps are run on the parameters of a frame, and whichever of them fail, every
register holds a well-formed value, and the frame keeps well-formed values only. -/
theorem checked_steps_well_formed {params : List Ty} {steps : List Step} {s start : Session} {id : FrameId}
    (hopen : Returns (GuardedC.openFrame params) s id start) (hchecked : ∀ step ∈ steps, step.Checked) :
    let given : Env := { given := some (start.frameOf id).params, frames := [id] }
    let last := after given start steps
    ∃ f, last.2.frame? id = some f ∧ f.arguments = (start.frameOf id).arguments ∧ f.WellFormed ∧
      ∀ v, some v ∈ last.1.registers → v.WellFormed f.arguments := by
  rcases opened_of_returns hopen with ⟨slots, hopened⟩
  intro given last
  have hshaped : Shaped (slots.flatMap Slot.arguments) id last.1 last.2 := by
    have hrun := (Shaped.start hopened).run hchecked
    rw [← hopened.params_frameOf] at hrun
    exact hrun
  rcases hshaped.frame with ⟨f, hf, hfargs, _, hsorted⟩
  refine ⟨f, hf, hfargs.trans hopened.arguments_frameOf.symm, ⟨?_, ?_⟩, ?_⟩
  · intro facts hfacts fact hfact
    rcases List.mem_iff_getElem?.1 hfacts with ⟨i, hi⟩
    have hat : f.factsAt i = facts := by rw [Frame.factsAt, hi, Option.getD_some]
    rw [hfargs]
    exact Value.Sorted.wellFormed (hsorted.facts i fact (hat ▸ hfact))
  · intro fact hfact
    rw [hfargs]
    exact Value.Sorted.wellFormed (hsorted.complex fact hfact)
  · intro v hv
    rw [hfargs]
    exact (hshaped.registers v hv).wellFormed

/-- A word from a window onto a window, a division that has no value, and a conjunction whose second
half cannot be recorded. -/
def windowsAndDivision : List Step :=
  [.op (.bytes 0 .given), .op (.slice 0 (.lit 2) (.lit 10) 1), .op (.slice 1 (.lit 1) (.lit 5) 1),
    .op (.read (.word16 .big) 2 (.lit 2)), .op (.int 1 (.frame 0)), .op (.arith .div (.lit 1) (.lit 0)),
    .op (.compare .lt (.register 3) (.register 5)), .op (.compare .ge (.register 4) (.lit 7)),
    .op (.connect .and (.register 7) (.register 6)), .op (.assert (.register 8)),
    .op (.read .byte 0 (.lit 0)), .op (.compare .eq (.register 10) (.lit 7)),
    .op (.assert (.register 11))]

/-- A session with one frame, of an array and a byte. -/
def arrayAndByte : Session :=
  ((GuardedC.openFrame [.byteArray ⟨.w32, false⟩, .integer ⟨.w8, true⟩]).run.run Session.empty).2

theorem checked_steps_well_formed_windowsAndDivision :
    Returns (GuardedC.openFrame [.byteArray ⟨.w32, false⟩, .integer ⟨.w8, true⟩]) Session.empty 0
      arrayAndByte ∧
      (∀ step ∈ windowsAndDivision, step.Checked) ∧
        let given : Env := { given := some (arrayAndByte.frameOf 0).params, frames := [0] }
        let last := after given arrayAndByte windowsAndDivision
        last.1.registers.map (·.map Value.render) =
            [some "arg_0", some "(arg_0 + 2)", some "(arg_0 + 3)", some "((arg_0[6]) | ((arg_0[5]) << 8))",
              some "arg_1", some "(1 / 0)", some "(((arg_0[6]) | ((arg_0[5]) << 8)) < (1 / 0))",
              some "(arg_1 >= 7)",
              some "((arg_1 >= 7) && (((arg_0[6]) | ((arg_0[5]) << 8)) < (1 / 0)))", none,
              some "(arg_0[0])", some "((arg_0[0]) == 7)", some ""] ∧
          (last.1.bytes 2).toOption.map
              (fun b => [b.base, b.arrayLength, b.start, b.length, b.view].map Expr.render) =
            some ["arg_0", "arg_0_len", "3", "4", "(arg_0 + 3)"] ∧
          ∃ f, last.2.frame? 0 = some f ∧ f.arguments = (arrayAndByte.frameOf 0).arguments ∧ f.WellFormed ∧
            ∀ v, some v ∈ last.1.registers → v.WellFormed f.arguments := by
  have hopen : Returns (GuardedC.openFrame [.byteArray ⟨.w32, false⟩, .integer ⟨.w8, true⟩]) Session.empty 0
      arrayAndByte := rfl
  have hchecked : ∀ step ∈ windowsAndDivision, step.Checked := by decide
  exact ⟨hopen, hchecked, by decide +kernel, by decide +kernel, checked_steps_well_formed hopen hchecked⟩

end Script

end GuardedC
