import GuardedC.Proofs.Layout
import GuardedC.Proofs.Registers

/-!
# Traces

Compiling a script traces it first: a frame is made, the steps are run, and the conditions that they
assert are recorded in the frame. `takeTrace` runs a script like `compile` does and also tells which
conditions were asserted; `returns_compile` says that a compilation is such a trace, whose frame is
then written as a C function.

For checked steps, `run_checked` tells the frames that a run leaves from the asserted conditions
alone.
-/

namespace GuardedC

/-- The function that a frame is written as where a trace hands back the value. -/
def Frame.WrittenAs (f : Frame) (options : Options) (name : String) (returns : Ty) (value : Value)
    (unit : CFunction) : Prop :=
  ∃ rows body, f.ranges = .ok rows ∧ f.complex = [] ∧ Body.ofValue returns value = .ok body ∧
    unit =
      { name := options.namePrefix ++ name
        returns
        arguments := f.arguments.map Argument.declaration
        guard := (ArgumentRange.guard rows).text
        abortRoutine := options.abortRoutine
        body }

namespace Script

/-! ## The asserted conditions -/

/-- Steps that compute on values, with no node made by hand. -/
def Step.Checked : Step → Prop
  | op o => o.isChecked = true
  | _ => False

instance : DecidablePred Step.Checked
  | .op o => inferInstanceAs (Decidable (o.isChecked = true))
  | .query _ | .ranges _ | .openFrame _ | .dropFrame _ | .foreign _ _ => isFalse id

/-- The conditions that an operation asserts. A step that makes a frame asserts nothing about
values. -/
def Step.conditions (env : Env) (s : Session) : Step → List Cond
  | op o =>
    match o.eval env s with
    | .ok result => result.conditions
    | .error _ => []
  | _ => []

/-- The conditions that the steps assert, up to the first failure. -/
def asserted (env : Env) (s : Session) : List Step → List Cond
  | [] => []
  | step :: steps =>
    step.conditions env s ++
      match (step.run env).run.run s with
      | (.ok answer, s') => asserted (env.push (.ok answer)) s' steps
      | (.error _, _) => []

structure Trace where
  /-- The frame that was made for the parameters. -/
  id : FrameId
  /-- The frame as the last step left it. -/
  frame : Frame
  env : Env
  /-- All conditions, those on lengths first. -/
  asserted : List Cond

/-- Runs a script on placeholders for its parameters, and notes what it asserts. -/
def takeTrace (name : String) (params : List Ty) (steps : List Step) : InSession CompileFault Trace := do
  say (.compiling name params.length)
  let id ← (GuardedC.openFrame params).mapError (.compile ∘ .trace)
  let start ← get
  let opened := start.frameOf id
  let given : Env := { given := some opened.params }
  let env ← (run given steps).mapError .ofFault
  let frame := (← get).frameOf id
  return { id, frame, env, asserted := opened.lengthConditions ++ asserted given start steps }

/-- What a script returns that left these registers. -/
def Env.result (env : Env) : Option Nat → Except Fault Value
  | none => .ok .nothing
  | some n => env.value n

/-! ## Compiling -/

section

variable {options : Options} {name : String} {params : List Ty} {returns : Ty} {steps : List Step}
  {result : Option Nat} {s s' : Session} {unit : CFunction}

theorem returns_result {env : Env} {value : Value} :
    Returns (match result with
        | none => pure .nothing
        | some n => liftM (env.value n) : InSession Fault Value) s value s' ↔
      env.result result = .ok value ∧ s' = s := by
  cases result with
  | none => simp [Env.result, eq_comm]
  | some n => simp [Env.result]

/-- A compilation is a trace whose frame is then written as a function. -/
theorem returns_compile :
    Returns (compile options name params returns steps result) s unit s' ↔
      ∃ t s₁ value, Returns (takeTrace name params steps) s t s₁ ∧ t.env.result result = .ok value ∧
        Returns (t.frame.toCFunction options name returns value) s₁ unit s' := by
  simp only [compile, compileWith, takeTrace, eval, returns_bind, returns_mapError, returns_get,
    returns_say, returns_pure]
  constructor
  · rintro ⟨_, _, rfl, id, _, hopen, _, _, ⟨rfl, rfl⟩, value, _, ⟨env, _, hrun, hreturn⟩, _, _,
      ⟨rfl, rfl⟩, hwrite⟩
    obtain ⟨hvalue, rfl⟩ := returns_result.1 hreturn
    exact ⟨_, _, value, ⟨(), _, rfl, id, _, hopen, _, _, ⟨rfl, rfl⟩, env, _, hrun, _, _, ⟨rfl, rfl⟩,
      rfl, rfl⟩, hvalue, hwrite⟩
  · rintro ⟨_, _, value, ⟨_, _, rfl, id, _, hopen, _, _, ⟨rfl, rfl⟩, env, _, hrun, _, _, ⟨rfl, rfl⟩, rfl,
      rfl⟩, hvalue, hwrite⟩
    exact ⟨(), _, rfl, id, _, hopen, _, _, ⟨rfl, rfl⟩, value, _,
      ⟨env, _, hrun, returns_result.2 ⟨hvalue, rfl⟩⟩, _, _, ⟨rfl, rfl⟩, hwrite⟩

/-- Writing a frame depends on nothing in the session. -/
theorem exists_returns_toCFunction {f : Frame} {value : Value} (s : Session) :
    (∃ s', Returns (f.toCFunction options name returns value) s unit s') ↔
      f.WrittenAs options name returns value unit := by
  unfold Frame.toCFunction Frame.collapse Frame.WrittenAs
  cases hcomplex : f.complex with
  | nil =>
    simp only [returns_bind, returns_mapError, returns_modify, returns_except, returns_say, returns_pure]
    constructor
    · rintro ⟨s', rows, _, ⟨_, _, _, hrows, rfl⟩, _, _, _, body, _, ⟨hbody, _⟩, rfl, _⟩
      exact ⟨rows, body, hrows, trivial, hbody, rfl⟩
    · rintro ⟨rows, body, hrows, _, hbody, rfl⟩
      exact ⟨_, rows, _, ⟨(), _, rfl, hrows, rfl⟩, (), _, rfl, body, _, ⟨hbody, rfl⟩, rfl, rfl⟩
  | cons first rest =>
    constructor
    · rintro ⟨s', h⟩
      simp at h
    · rintro ⟨_, _, _, hnil, _⟩
      cases hnil

/-- What there is to know of a function that was written. -/
theorem returns_toCFunction {f : Frame} {value : Value}
    (h : Returns (f.toCFunction options name returns value) s unit s') :
    ∃ rows, f.ranges = .ok rows ∧ f.complex = [] ∧ Body.ofValue returns value = .ok unit.body ∧
      unit.guard = (ArgumentRange.guard rows).text ∧
        unit.arguments = f.arguments.map Argument.declaration := by
  rcases (exists_returns_toCFunction s).1 ⟨s', h⟩ with ⟨rows, body, hrows, hcomplex, hbody, rfl⟩
  exact ⟨rows, hrows, hcomplex, hbody, rfl, rfl⟩

/-- A trace makes a frame and runs the steps on its parameters. -/
theorem returns_trace {t : Trace} (h : Returns (takeTrace name params steps) s t s') :
    ∃ start slots, Session.Opened params slots (s.write (.compiling name params.length)) start t.id ∧
      Returns (run { given := some (slots.map Slot.param) } steps) start t.env s' ∧
        t.frame = s'.frameOf t.id ∧
          t.asserted = (Frame.ofSlots slots).lengthConditions ++
            asserted { given := some (slots.map Slot.param) } start steps := by
  simp only [takeTrace, returns_bind, returns_mapError, returns_get, returns_say, returns_pure] at h
  obtain ⟨_, _, rfl, id, _, hopen, _, start, ⟨rfl, rfl⟩, env, _, hrun, _, _, ⟨rfl, rfl⟩, rfl, rfl⟩ := h
  obtain ⟨slots, hopened⟩ := opened_of_returns hopen
  rw [hopened.params_frameOf] at hrun
  refine ⟨start, slots, hopened, hrun, rfl, ?_⟩
  simp only [Frame.lengthConditions, hopened.params_frameOf]
  rfl

end

/-! ## Runs -/

section

variable {env env' : Env} {s s' : Session} {step : Step} {steps : List Step} {answer : Answer}

@[simp] theorem returns_run_nil : Returns (run env []) s env' s' ↔ env' = env ∧ s' = s := by
  rw [run, returns_pure]

@[simp] theorem returns_run_cons :
    Returns (run env (step :: steps)) s env' s' ↔
      ∃ answer s₁, Returns (step.run env) s answer s₁ ∧
        Returns (run (env.push (.ok answer)) steps) s₁ env' s' := by
  rw [run, returns_bind]

/-- An operation yields a value and records what it asserts. -/
theorem returns_op {o : Op} :
    Returns ((Step.op o).run env) s answer s' ↔
      ∃ result, o.eval env s = .ok result ∧ answer = result.value ∧
        ∃ es, entriesOf? result.conditions = some es ∧ s.Holding es ∧ s' = s.enterAll es := by
  simp only [Step.run, returns_bind, returns_get, returns_except, returns_mapError, returns_assert]
  constructor
  · rintro ⟨_, _, ⟨rfl, rfl⟩, result, _, ⟨hresult, rfl⟩, h⟩
    exact ⟨result, hresult, h⟩
  · rintro ⟨result, hresult, h⟩
    exact ⟨_, _, ⟨rfl, rfl⟩, result, _, ⟨hresult, rfl⟩, h⟩

theorem conditions_op {o : Op} {result : Provided Answer} (h : o.eval env s = .ok result) :
    (Step.op o).conditions env s = result.conditions := by
  simp only [Step.conditions, h]

theorem asserted_cons (h : Returns (step.run env) s answer s') :
    asserted env s (step :: steps) =
      step.conditions env s ++ asserted (env.push (.ok answer)) s' steps := by
  have hrun : (step.run env).run.run s = (.ok answer, s') := h
  simp only [asserted, hrun]

/-- What a checked run leaves in the session follows from the asserted conditions. -/
theorem run_checked (hchecked : ∀ step ∈ steps, step.Checked) (h : Returns (run env steps) s env' s') :
    ∃ es, entriesOf? (asserted env s steps) = some es ∧ s' = s.enterAll es := by
  induction steps generalizing env s with
  | nil =>
    obtain ⟨rfl, rfl⟩ := returns_run_nil.1 h
    exact ⟨[], rfl, rfl⟩
  | cons step steps ih =>
    obtain ⟨answer, s₁, hstep, hrest⟩ := returns_run_cons.1 h
    obtain ⟨fs, hfs, rfl⟩ := ih (fun step hstep => hchecked step (.tail _ hstep)) hrest
    cases step with
    | op o =>
      obtain ⟨result, hresult, rfl, es, hes, _, rfl⟩ := returns_op.1 hstep
      refine ⟨es ++ fs, ?_, (s.enterAll_append es fs).symm⟩
      rw [asserted_cons hstep, conditions_op hresult]
      exact entriesOf?_append hes hfs
    | _ => exact (hchecked _ (.head _)).elim

end

end Script

end GuardedC
