import GuardedC.Proofs.RangeFailures

/-!
# When a script can be compiled

A compilation has five conditions: the parameters have types that parameters may have, every step of
the trace comes through, the facts about every integer argument can be satisfied, nothing complex
was asserted, and the value is one that the function may return. A later one is looked at only where
those before it are met.

`CompileFails` has one case for each way to violate them, with the error that is reported, and
`compile_outcome` says that these are the errors of compiling, and that there is a function exactly
if all conditions are met.
-/

namespace GuardedC

/-! ## Computations that fail -/

section

variable {ε δ α β : Type} {s : Session} {e : ε}

/-- Started in `s`, the computation fails. -/
def Fails (x : InSession ε α) (s : Session) (e : ε) : Prop := (x.run.run s).1 = .error e

theorem returns_or_fails (x : InSession ε α) (s : Session) :
    (∃ a s', Returns x s a s') ∨ ∃ e, Fails x s e := by
  rcases hx : x.run.run s with ⟨e | a, s'⟩
  · exact .inr ⟨e, congrArg Prod.fst hx⟩
  · exact .inl ⟨a, s', hx⟩

theorem Returns.not_fails {x : InSession ε α} {a : α} {s' : Session} (h : Returns x s a s') :
    ¬ Fails x s e := by
  intro hfails
  have heq := (congrArg Prod.fst h).symm.trans hfails
  cases heq

@[simp] theorem not_fails_pure {a : α} : ¬ Fails (pure a : InSession ε α) s e := by
  intro h
  cases h

/-- A sequence fails if its first part does, or else if the second one does from there. -/
@[simp] theorem fails_bind {x : InSession ε α} {f : α → InSession ε β} :
    Fails (x >>= f) s e ↔ Fails x s e ∨ ∃ a s', Returns x s a s' ∧ Fails (f a) s' e := by
  rcases hx : x.run.run s with ⟨e' | a, s'⟩
  · have hrun : ((x >>= f).run.run s).1 = .error e' := by
      simp only [ExceptT.run_bind, StateT.run_bind, hx]
      rfl
    constructor
    · intro h
      rw [Fails, hrun] at h
      cases h
      exact .inl (congrArg Prod.fst hx)
    · rintro (h | ⟨a, _, ha, _⟩)
      · rw [Fails, hx] at h
        cases h
        exact hrun
      · cases hx.symm.trans ha
  · have hrun : (x >>= f).run.run s = (f a).run.run s' := by
      simp only [ExceptT.run_bind, StateT.run_bind, hx]
      rfl
    constructor
    · intro h
      refine .inr ⟨a, s', hx, ?_⟩
      rw [Fails, hrun] at h
      exact h
    · rintro (h | ⟨b, s'', hb, h⟩)
      · rw [Fails, hx] at h
        cases h
      · rcases Returns.unique hx hb with ⟨rfl, rfl⟩
        rw [Fails, hrun]
        exact h

@[simp] theorem fails_throw {e' : ε} : Fails (throw e' : InSession ε α) s e ↔ e' = e := by
  have h : ((throw e' : InSession ε α).run.run s).1 = .error e' := rfl
  rw [Fails, h, Except.error.injEq]

@[simp] theorem fails_mapError {x : InSession ε α} {f : ε → δ} {d : δ} :
    Fails (x.mapError f) s d ↔ ∃ e, Fails x s e ∧ f e = d := by
  unfold Fails
  rw [run_mapError]
  rcases x.run.run s with ⟨e | a, s'⟩
  · show (Except.error (f e) : Except δ α) = _ ↔ _
    simp
  · show (Except.ok a : Except δ α) = _ ↔ _
    simp

@[simp] theorem not_fails_get : ¬ Fails (get : InSession ε Session) s e := by
  intro h
  cases h

@[simp] theorem not_fails_modify {f : Session → Session} : ¬ Fails (modify f : InSession ε Unit) s e := by
  intro h
  cases h

@[simp] theorem not_fails_say {m : Message} : ¬ Fails (liftM (say m) : InSession ε Unit) s e :=
  not_fails_modify

@[simp] theorem fails_except {x : Except ε α} :
    Fails (liftM x : InSession ε α) s e ↔ x = .error e := Iff.rfl

end

/-! ## Parameters -/

/-- Parameters are integers, or byte arrays that are counted by unsigned integers. -/
def Ty.isParameter : Ty → Bool
  | integer _ => true
  | byteArray length => !length.signed
  | void => false

/-- Why the parameter at a position cannot have a type. -/
def Ty.refusal (position : Nat) : Ty → TraceError
  | void => .voidParameter position
  | _ => .type .signedLength

/-- The first parameter that cannot have its type. -/
def RefusedFor (position : Nat) (tys : List Ty) (error : TraceError) : Prop :=
  ∃ before ty after, tys = before ++ ty :: after ∧ (∀ t ∈ before, t.isParameter = true) ∧
    ty.isParameter = false ∧ error = ty.refusal (position + before.length)

section

variable {id : FrameId} {position index : Nat} {ty : Ty} {tys : List Ty} {error : TraceError}

theorem Slot.ofTy_ok (h : ty.isParameter = true) : ∃ slot, Slot.ofTy id position index ty = .ok slot := by
  cases ty with
  | integer type => exact ⟨_, rfl⟩
  | byteArray length =>
    have hunsigned : length.signed = false := by simpa [Ty.isParameter] using h
    simp [Slot.ofTy, hunsigned]
  | void => cases h

theorem Slot.ofTy_refused (h : ty.isParameter = false) :
    Slot.ofTy id position index ty = .error (ty.refusal position) := by
  cases ty with
  | integer type => cases h
  | byteArray length =>
    have hsigned : length.signed = true := by simpa [Ty.isParameter] using h
    simp [Slot.ofTy, hsigned, Ty.refusal]
  | void => rfl

theorem refusedFor_cons :
    RefusedFor position (ty :: tys) error ↔
      (ty.isParameter = false ∧ error = ty.refusal position) ∨
        ty.isParameter = true ∧ RefusedFor (position + 1) tys error := by
  constructor
  · rintro ⟨before, t, after, hsplit, hbefore, ht, rfl⟩
    cases before with
    | nil =>
      cases hsplit
      exact .inl ⟨ht, rfl⟩
    | cons first before =>
      cases hsplit
      refine .inr ⟨hbefore _ (.head _), before, t, after, rfl, fun u hu => hbefore u (.tail _ hu), ht, ?_⟩
      rw [List.length_cons, Nat.add_assoc, Nat.add_comm 1]
  · rintro (⟨ht, rfl⟩ | ⟨hfirst, before, t, after, rfl, hbefore, ht, rfl⟩)
    · exact ⟨[], ty, tys, rfl, by simp, ht, rfl⟩
    · refine ⟨ty :: before, t, after, rfl, ?_, ht, ?_⟩
      · intro u hu
        rcases List.mem_cons.1 hu with rfl | hu
        · exact hfirst
        · exact hbefore u hu
      · rw [List.length_cons, Nat.add_assoc, Nat.add_comm 1]

/-- Parameters are laid out up to the first one that cannot have its type. -/
theorem Slot.layout_eq_error :
    Slot.layout id position index tys = .error error ↔ RefusedFor position tys error := by
  induction tys generalizing position index with
  | nil =>
    refine iff_of_false ?_ ?_
    · intro h
      cases h
    · rintro ⟨before, t, after, hsplit, _⟩
      simp at hsplit
  | cons ty tys ih =>
    rw [Slot.layout, except_bind_error, refusedFor_cons]
    cases hty : ty.isParameter with
    | true =>
      have hlaid : ∃ slot, Slot.ofTy id position index ty = .ok slot := Slot.ofTy_ok hty
      rcases hlaid with ⟨slot, hslot⟩
      simp [hslot, except_bind_error, ih, pure, Except.pure]
    | false =>
      rw [Slot.ofTy_refused hty]
      simp [eq_comm]

theorem forall_isParameter_iff (position : Nat) :
    (∀ ty ∈ tys, ty.isParameter = true) ↔ ∀ error, ¬ RefusedFor position tys error := by
  induction tys generalizing position with
  | nil =>
    refine iff_of_true (by simp) ?_
    rintro error ⟨before, t, after, hsplit, _⟩
    simp at hsplit
  | cons ty tys ih =>
    simp only [List.forall_mem_cons, refusedFor_cons, ih (position + 1)]
    cases ty.isParameter <;> simp

/-- A frame is made unless a parameter cannot have its type; the facts on lengths can always be
recorded. -/
theorem fails_openFrame {s : Session} : Fails (openFrame tys) s error ↔ RefusedFor 0 tys error := by
  have hrefused : Slot.layout s.frames.length 0 0 tys = .error error ↔ RefusedFor 0 tys error :=
    Slot.layout_eq_error
  rw [← hrefused]
  cases hlayout : Slot.layout s.frames.length 0 0 tys with
  | ok slots =>
    refine iff_of_false ?_ (by rintro ⟨⟩)
    have hreturns : Returns (openFrame tys) s s.frames.length _ :=
      returns_openFrame.2 ⟨rfl, slots, Slot.layout_eq_ok.1 hlayout, rfl⟩
    exact hreturns.not_fails
  | error e =>
    have hrun : ((openFrame tys).run.run s).1 = .error e := by
      show ((liftM (Slot.layout s.frames.length 0 0 tys) >>= fun slots => _ :
        Tracing FrameId).run.run s).1 = _
      rw [hlayout]
      rfl
    simp [Fails, hrun]

end

/-! ## Results -/

/-- A value that a function of the type may return: any value for none, integers and conditions for
integers, and byte views for byte arrays. -/
def Value.Fits : Value → Ty → Prop
  | _, .void => True
  | .int _, .integer _ | .cond _, .integer _ => True
  | .bytes _, .byteArray _ => True
  | _, _ => False

section

variable {returns : Ty} {value : Value} {error : CompileError}

/-- Where a result is asked for, nothing is missing, and everything else that does not fit is a
mismatch. -/
theorem Body.ofValue_eq_error :
    Body.ofValue returns value = .error error ↔
      (value = .nothing ∧ returns ≠ .void ∧ error = .missingReturnValue returns) ∨
        value ≠ .nothing ∧ ¬ value.Fits returns ∧ error = .returnMismatch returns value := by
  cases returns <;> cases value <;> simp [Body.ofValue, Value.Fits, eq_comm]

end

/-! ## Writing the function -/

section

variable {f : Frame} {options : Options} {name : String} {returns : Ty} {value : Value} {s : Session}

/-- Why the frame of a trace cannot be written as a function that returns the value. -/
inductive Frame.Unwritable (f : Frame) (returns : Ty) (value : Value) : CompileError → Prop where
  /-- The facts about an integer argument cannot be collapsed, and this is the first such
  argument. -/
  | range {before after : List Argument} {a : Argument} {error : RangeError}
      (hsplit : f.arguments = before ++ a :: after) (hbefore : ∀ b ∈ before, f.Collapsible b)
      (ha : ¬ f.Collapsible a) (hblames : f.Blames a error) : f.Unwritable returns value (.range error)
  /-- Something complex was asserted. -/
  | complex {first : ComplexFact} {rest : List ComplexFact} (hranges : ∀ a ∈ f.arguments, f.Collapsible a)
      (hcomplex : f.complex = first :: rest) :
      f.Unwritable returns value (.complexAssertions (rest.length + 1) first)
  | missing (hranges : ∀ a ∈ f.arguments, f.Collapsible a) (hcomplex : f.complex = [])
      (hvalue : value = .nothing) (hreturns : returns ≠ .void) :
      f.Unwritable returns value (.missingReturnValue returns)
  | mismatch (hranges : ∀ a ∈ f.arguments, f.Collapsible a) (hcomplex : f.complex = [])
      (hvalue : value ≠ .nothing) (hfits : ¬ value.Fits returns) :
      f.Unwritable returns value (.returnMismatch returns value)

theorem Frame.fails_collapse {error : RangeError} :
    Fails f.collapse s error ↔ f.ranges = .error error := Iff.rfl

theorem Frame.returns_collapse {rows : List ArgumentRange} {s' : Session}
    (h : Returns f.collapse s rows s') :
    f.ranges = .ok rows := congrArg Prod.fst h

theorem Frame.exists_returns_collapse_iff {s : Session} :
    (∃ rows s', Returns f.collapse s rows s') ↔ ∃ rows, f.ranges = .ok rows := by
  constructor
  · rintro ⟨rows, s', h⟩
    exact ⟨rows, Frame.returns_collapse h⟩
  · rintro ⟨rows, hrows⟩
    exact ⟨rows, _, (f.run_collapse s).trans (congrArg (·, _) hrows)⟩

/-- A frame whose facts can be collapsed is collapsed. -/
theorem Frame.exists_returns_collapse (h : ∀ a ∈ f.arguments, f.Collapsible a) (s : Session) :
    ∃ rows s', Returns f.collapse s rows s' :=
  Frame.exists_returns_collapse_iff.2 (Frame.exists_rangesOf_iff.2 h)

/-- What is left to do once there are ranges. -/
theorem Frame.fails_toCFunction_of_ranges {error : CompileError} (h : ∀ a ∈ f.arguments, f.Collapsible a) :
    Fails (f.toCFunction options name returns value) s error ↔
      (∃ first rest, f.complex = first :: rest ∧ error = .complexAssertions (rest.length + 1) first) ∨
        f.complex = [] ∧ Body.ofValue returns value = .error error := by
  have hranges : ∀ e, f.ranges ≠ .error e := by
    rcases Frame.exists_rangesOf_iff.2 h with ⟨rows, hrows⟩
    intro e he
    cases hrows.symm.trans he
  rcases Frame.exists_returns_collapse h s with ⟨rows, s', hrows⟩
  unfold Frame.toCFunction
  rw [fails_bind, fails_mapError]
  simp only [Frame.fails_collapse, hranges, false_and, exists_false, false_or, returns_mapError]
  cases hcomplex : f.complex with
  | nil =>
    simp only [fails_bind, not_fails_say, returns_say, fails_except, not_fails_pure, and_false,
      exists_false, or_false,
      false_or, exists_eq_left, exists_const, reduceCtorEq, false_and, true_and]
    constructor
    · rintro ⟨rows, s', _, hbody⟩
      exact hbody
    · intro hbody
      exact ⟨rows, s', hrows, hbody⟩
  | cons first rest =>
    simp only [fails_throw, fails_bind, List.length_cons]
    constructor
    · rintro ⟨rows, s', _, rfl | ⟨_, _, hreturns, _⟩⟩
      · exact .inl ⟨first, rest, rfl, rfl⟩
      · exact absurd hreturns returns_throw
    · rintro (⟨_, _, hsplit, rfl⟩ | ⟨hnil, _⟩)
      · cases hsplit
        exact ⟨rows, s', hrows, .inl rfl⟩
      · cases hnil

theorem Frame.fails_toCFunction {error : CompileError} :
    Fails (f.toCFunction options name returns value) s error ↔ f.Unwritable returns value error := by
  by_cases hranges : ∀ a ∈ f.arguments, f.Collapsible a
  · rw [Frame.fails_toCFunction_of_ranges hranges, Body.ofValue_eq_error]
    constructor
    · rintro (⟨first, rest, hcomplex, rfl⟩ | ⟨hcomplex, ⟨hvalue, hreturns, rfl⟩ | ⟨hvalue, hfits, rfl⟩⟩)
      · exact .complex hranges hcomplex
      · exact .missing hranges hcomplex hvalue hreturns
      · exact .mismatch hranges hcomplex hvalue hfits
    · intro h
      cases h with
      | range hsplit _ ha _ =>
        rw [hsplit] at hranges
        exact absurd (hranges _ (List.mem_append_right _ (.head _))) ha
      | complex _ hcomplex => exact .inl ⟨_, _, hcomplex, rfl⟩
      | missing _ hcomplex hvalue hreturns => exact .inr ⟨hcomplex, .inl ⟨hvalue, hreturns, rfl⟩⟩
      | mismatch _ hcomplex hvalue hfits => exact .inr ⟨hcomplex, .inr ⟨hvalue, hfits, rfl⟩⟩
  · -- without ranges nothing else is looked at
    have hfails : Fails (f.toCFunction options name returns value) s error ↔
        ∃ e, f.ranges = .error e ∧ CompileError.range e = error := by
      unfold Frame.toCFunction
      rw [fails_bind, fails_mapError]
      simp only [Frame.fails_collapse, returns_mapError, or_iff_left_iff_imp]
      rintro ⟨rows, s', hrows, _⟩
      exact absurd (Frame.exists_rangesOf_iff.1 ⟨rows, Frame.returns_collapse hrows⟩) hranges
    rw [hfails]
    constructor
    · rintro ⟨e, he, rfl⟩
      rcases Frame.rangesOf_eq_error.1 he with ⟨before, a, after, hsplit, hbefore, ha, hblames⟩
      exact .range hsplit hbefore ha hblames
    · intro h
      cases h with
      | range hsplit hbefore ha hblames =>
        exact ⟨_, Frame.rangesOf_eq_error.2 ⟨_, _, _, hsplit, hbefore, ha, hblames⟩, rfl⟩
      | complex h _ => exact absurd h hranges
      | missing h _ _ _ => exact absurd h hranges
      | mismatch h _ _ _ => exact absurd h hranges

/-- A frame is written as a function unless there is a reason against it. -/
theorem Frame.writable_iff :
    ((∀ a ∈ f.arguments, f.Collapsible a) ∧ f.complex = [] ∧ value.Fits returns) ↔
      ∀ error, ¬ f.Unwritable returns value error := by
  constructor
  · rintro ⟨hranges, hcomplex, hfits⟩ error h
    cases h with
    | range hsplit _ ha _ =>
      rw [hsplit] at hranges
      exact ha (hranges _ (List.mem_append_right _ (.head _)))
    | complex _ h => cases hcomplex.symm.trans h
    | missing _ _ hvalue hreturns =>
      subst hvalue
      cases returns with
      | void => exact hreturns rfl
      | _ => exact hfits
    | mismatch _ _ _ h => exact h hfits
  · intro h
    have hranges : ∀ a ∈ f.arguments, f.Collapsible a := by
      cases hranges : f.ranges with
      | ok rows => exact Frame.exists_rangesOf_iff.1 ⟨rows, hranges⟩
      | error e =>
        rcases Frame.rangesOf_eq_error.1 hranges with ⟨_, _, _, hsplit, hbefore, ha, hblames⟩
        exact absurd (.range hsplit hbefore ha hblames) (h _)
    have hcomplex : f.complex = [] := by
      cases hcomplex : f.complex with
      | nil => rfl
      | cons first rest => exact absurd (.complex hranges hcomplex) (h _)
    refine ⟨hranges, hcomplex, ?_⟩
    by_contra hfits
    by_cases hvalue : value = .nothing
    · refine h _ (.missing hranges hcomplex hvalue ?_)
      rintro rfl
      exact hfits (by cases value <;> trivial)
    · exact h _ (.mismatch hranges hcomplex hvalue hfits)

end

/-! ## Scripts -/

namespace Script

/-- The first step that fails, and why. -/
def StopsWith (env : Env) (s : Session) (steps : List Step) (fault : Fault) : Prop :=
  ∃ before step after env' s', steps = before ++ step :: after ∧ Returns (run env before) s env' s' ∧
    Fails (step.run env') s' fault

theorem fails_run {env : Env} {s : Session} {steps : List Step} {fault : Fault} :
    Fails (run env steps) s fault ↔ StopsWith env s steps fault := by
  induction steps generalizing env s with
  | nil =>
    refine iff_of_false not_fails_pure ?_
    rintro ⟨before, step, after, env', s', hsplit, _⟩
    simp at hsplit
  | cons step steps ih =>
    rw [run, fails_bind]
    constructor
    · rintro (hfirst | ⟨answer, s₁, hstep, hlater⟩)
      · exact ⟨[], step, steps, env, s, rfl, returns_run_nil.2 ⟨rfl, rfl⟩, hfirst⟩
      · rcases ih.1 hlater with ⟨before, later, after, env', s', rfl, hrun, hfails⟩
        exact ⟨step :: before, later, after, env', s', rfl,
          returns_run_cons.2 ⟨answer, s₁, hstep, hrun⟩, hfails⟩
    · rintro ⟨before, later, after, env', s', hsplit, hrun, hfails⟩
      cases before with
      | nil =>
        cases hsplit
        rcases returns_run_nil.1 hrun with ⟨rfl, rfl⟩
        exact .inl hfails
      | cons first before =>
        cases hsplit
        rcases returns_run_cons.1 hrun with ⟨answer, s₁, hstep, hbefore⟩
        exact .inr ⟨answer, s₁, hstep, ih.2 ⟨before, later, after, env', s', rfl, hbefore, hfails⟩⟩

section

variable (name : String) (params : List Ty) (returns : Ty) (steps : List Step) (result : Option Nat)
  (s : Session)

/-- A frame is made for the parameters of a script, and the steps start in this state. -/
def Begins (id : FrameId) (env : Env) (start : Session) : Prop :=
  Returns (GuardedC.openFrame params) (s.write (.compiling name params.length)) id start ∧
    env = { given := some (start.frameOf id).params }

/-- The script comes to its end. It leaves the frame that was made for it, and hands a value
back. -/
def Traced (f : Frame) (value : Value) : Prop :=
  ∃ id env start env' s', Begins name params s id env start ∧ Returns (run env steps) start env' s' ∧
    env'.result result = .ok value ∧ s'.frame? id = some f

/-- Why a script cannot be compiled. -/
inductive CompileFails : CompileFault → Prop where
  /-- A parameter cannot have its type, and this is the first such parameter. -/
  | parameter {error : TraceError} (hrefused : RefusedFor 0 params error) :
      CompileFails (.compile (.trace error))
  /-- A step fails, and this is the first such step. -/
  | step {id : FrameId} {env : Env} {start : Session} {fault : Fault}
      (hbegins : Begins name params s id env start)
      (hstops : StopsWith env start steps fault) : CompileFails (.ofFault fault)
  /-- The value to be handed back is not there. -/
  | result {id : FrameId} {env env' : Env} {start s' : Session} {fault : Fault}
      (hbegins : Begins name params s id env start) (hrun : Returns (run env steps) start env' s')
      (hresult : env'.result result = .error fault) : CompileFails (.ofFault fault)
  /-- The script comes to its end, but its frame cannot be written as a function. -/
  | unwritable {f : Frame} {value : Value} {error : CompileError}
      (htraced : Traced name params steps result s f value)
      (herror : f.Unwritable returns value error) : CompileFails (.compile error)

end

section

variable {name : String} {params : List Ty} {returns : Ty} {steps : List Step} {result : Option Nat}
  {s : Session} {options : Options}

/-- The frame of a script is there when the script ends. -/
theorem Begins.frame? {id : FrameId} {env env' : Env} {start s' : Session}
    (h : Begins name params s id env start)
    (hrun : Returns (run env steps) start env' s') : s'.frame? id = some (s'.frameOf id) := by
  rcases h with ⟨hopen, rfl⟩
  rcases opened_of_returns hopen with ⟨slots, hopened⟩
  have hid : id < start.frames.length := by
    rw [hopened.length]
    exact Nat.lt_succ_self _
  rcases owns_run closed_trivial (fun step _ => step.keeps_trivial)
    (owns_start fun p _ => Value.all_trivial p.toValue) hid hrun fun _ _ => trivial with ⟨_, hcontinues, _⟩
  rcases hcontinues.frame with ⟨es, hes⟩
  rw [hopened.frame] at hes
  rw [Session.frameOf, hes]
  rfl

theorem fails_result {env : Env} {fault : Fault} :
    Fails (match result with
        | none => pure .nothing
        | some n => liftM (env.value n) : InSession Fault Value) s fault ↔
      env.result result = .error fault := by
  cases result with
  | none => simp [Env.result]
  | some n => simp [Env.result]

/-- A script fails at a step, or where its result is asked for. -/
theorem fails_eval {given : Params} {fault : Fault} :
    Fails (eval steps result given) s fault ↔
      StopsWith { given := some given } s steps fault ∨
        ∃ env' s', Returns (run { given := some given } steps) s env' s' ∧
          env'.result result = .error fault := by
  rw [eval, fails_bind, fails_run]
  constructor
  · rintro (hstops | ⟨env', s', hrun, hresult⟩)
    · exact .inl hstops
    · exact .inr ⟨env', s', hrun, fails_result.1 hresult⟩
  · rintro (hstops | ⟨env', s', hrun, hresult⟩)
    · exact .inl hstops
    · exact .inr ⟨env', s', hrun, fails_result.2 hresult⟩

theorem returns_eval {given : Params} {value : Value} {s' : Session} :
    Returns (eval steps result given) s value s' ↔
      ∃ env', Returns (run { given := some given } steps) s env' s' ∧ env'.result result = .ok value := by
  rw [eval, returns_bind]
  constructor
  · rintro ⟨env', s₁, hrun, hreturn⟩
    rcases returns_result.1 hreturn with ⟨hvalue, rfl⟩
    exact ⟨env', hrun, hvalue⟩
  · rintro ⟨env', hrun, hvalue⟩
    exact ⟨env', s', hrun, returns_result.2 ⟨hvalue, rfl⟩⟩

theorem fails_compile {e : CompileFault} :
    Fails (compile options name params returns steps result) s e ↔
      CompileFails name params returns steps result s e := by
  unfold compile compileWith
  simp only [fails_bind, not_fails_say, returns_say, false_or, exists_const, exists_eq_left, fails_mapError,
    fails_openFrame, returns_mapError, not_fails_get, returns_get, and_assoc, exists_and_left,
    fails_eval, returns_eval, Frame.fails_toCFunction]
  constructor
  · rintro (⟨error, hrefused, rfl⟩ | ⟨id, start, hopen, htrace⟩)
    · exact .parameter hrefused
    · have hbegins : Begins name params s id _ start := ⟨hopen, rfl⟩
      rcases htrace with ⟨fault, hstops | ⟨env', s', hrun, hresult⟩, rfl⟩ |
        ⟨value, s', ⟨env', hrun, hvalue⟩, error, herror, rfl⟩
      · exact .step hbegins hstops
      · exact .result hbegins hrun hresult
      · exact .unwritable ⟨id, _, start, env', s', hbegins, hrun, hvalue, hbegins.frame? hrun⟩ herror
  · intro h
    cases h with
    | parameter hrefused => exact .inl ⟨_, hrefused, rfl⟩
    | step hbegins hstops =>
      rcases hbegins with ⟨hopen, rfl⟩
      exact .inr ⟨_, _, hopen, .inl ⟨_, .inl hstops, rfl⟩⟩
    | result hbegins hrun hresult =>
      rcases hbegins with ⟨hopen, rfl⟩
      exact .inr ⟨_, _, hopen, .inl ⟨_, .inr ⟨_, _, hrun, hresult⟩, rfl⟩⟩
    | unwritable htraced herror =>
      rcases htraced with ⟨id, env, start, env', s', hbegins, hrun, hvalue, hframe⟩
      have hsame := hbegins.frame? hrun
      rw [hframe, Option.some.injEq] at hsame
      subst hsame
      rcases hbegins with ⟨hopen, rfl⟩
      exact .inr ⟨_, _, hopen, .inr ⟨_, _, ⟨_, hrun, hvalue⟩, _, herror, rfl⟩⟩

theorem Begins.unique {id id' : FrameId} {env env' : Env} {start start' : Session}
    (h : Begins name params s id env start) (h' : Begins name params s id' env' start') :
    id = id' ∧ env = env' ∧ start = start' := by
  rcases h with ⟨hopen, rfl⟩
  rcases h' with ⟨hopen', rfl⟩
  rcases hopen.unique hopen' with ⟨rfl, rfl⟩
  exact ⟨rfl, rfl, rfl⟩

/-- Of a script that comes to its end, only the writing can fail. -/
theorem CompileFails.of_traced {f : Frame} {value : Value} {e : CompileFault}
    (htraced : Traced name params steps result s f value)
    (h : CompileFails name params returns steps result s e) :
    ∃ error, f.Unwritable returns value error := by
  rcases htraced with ⟨id, env, start, env', s', hbegins, hrun, hvalue, hframe⟩
  cases h with
  | parameter hrefused => exact absurd (fails_openFrame.2 hrefused) hbegins.1.not_fails
  | step hbegins' hstops =>
    rcases hbegins.unique hbegins' with ⟨_, rfl, rfl⟩
    exact absurd (fails_run.2 hstops) hrun.not_fails
  | result hbegins' hrun' hresult =>
    rcases hbegins.unique hbegins' with ⟨_, rfl, rfl⟩
    rcases hrun.unique hrun' with ⟨rfl, rfl⟩
    cases hvalue.symm.trans hresult
  | unwritable htraced' herror =>
    rcases htraced' with ⟨id', _, _, _, _, hbegins', hrun', hvalue', hframe'⟩
    rcases hbegins.unique hbegins' with ⟨rfl, rfl, rfl⟩
    rcases hrun.unique hrun' with ⟨rfl, rfl⟩
    cases hvalue.symm.trans hvalue'
    cases hframe.symm.trans hframe'
    exact ⟨_, herror⟩

/-- A script comes to its end, or there is a reason why it cannot be compiled. -/
theorem exists_traced (h : ∀ e, ¬ CompileFails name params returns steps result s e) :
    ∃ f value, Traced name params steps result s f value := by
  rcases returns_or_fails (GuardedC.openFrame params) (s.write (.compiling name params.length)) with
    ⟨id, start, hopen⟩ | ⟨error, hfails⟩
  · have hbegins : Begins name params s id { given := some (start.frameOf id).params } start := ⟨hopen, rfl⟩
    rcases returns_or_fails (run { given := some (start.frameOf id).params } steps) start with
      ⟨env', s', hrun⟩ | ⟨fault, hfails⟩
    · cases hresult : env'.result result with
      | ok value => exact ⟨_, value, id, _, start, env', s', hbegins, hrun, hresult, hbegins.frame? hrun⟩
      | error fault => exact absurd (.result hbegins hrun hresult) (h _)
    · exact absurd (.step hbegins (fails_run.1 hfails)) (h _)
  · exact absurd (.parameter (fails_openFrame.1 hfails)) (h _)

end

/-- A script is compiled exactly if its parameters can have their types, every step comes through,
the facts about every integer argument have known operands and can hold together, nothing complex
was asserted in its frame, and the value fits the result type. Otherwise it fails with the error of
the first of these conditions that is violated. -/
theorem compile_outcome (options : Options) (name : String) (params : List Ty) (returns : Ty)
    (steps : List Step) (result : Option Nat) (s : Session) :
    ((∃ unit s', Returns (compile options name params returns steps result) s unit s') ↔
      (∀ ty ∈ params, ty.isParameter = true) ∧ ∃ f value, Traced name params steps result s f value ∧
        (∀ a ∈ f.arguments, f.Collapsible a) ∧ f.complex = [] ∧ value.Fits returns) ∧
    ∀ e, Fails (compile options name params returns steps result) s e ↔
      CompileFails name params returns steps result s e := by
  refine ⟨?_, fun e => fails_compile⟩
  constructor
  · rintro ⟨unit, s', h⟩
    have hnone : ∀ e, ¬ CompileFails name params returns steps result s e :=
      fun e he => h.not_fails (fails_compile.2 he)
    rcases exists_traced hnone with ⟨f, value, htraced⟩
    refine ⟨?_, f, value, htraced, ?_⟩
    · rw [forall_isParameter_iff 0]
      intro error hrefused
      exact hnone _ (.parameter hrefused)
    · rw [Frame.writable_iff]
      intro error herror
      exact hnone _ (.unwritable htraced herror)
  · rintro ⟨_, f, value, htraced, hwritable⟩
    rcases returns_or_fails (compile options name params returns steps result) s with hreturns | ⟨e, hfails⟩
    · exact hreturns
    · rcases (fails_compile.1 hfails).of_traced htraced with ⟨error, herror⟩
      exact absurd herror (Frame.writable_iff.1 hwritable error)

/-- A number above a bound, a byte with a known value, and a byte array where a number is to be
returned. -/
def aboveAndMagic (bound : Int) : List Step :=
  [.op (.int 0 .given), .op (.compare .gt (.register 0) (.lit bound)), .op (.assert (.register 1)),
    .op (.bytes 1 .given), .op (.read .byte 3 (.lit 0)), .op (.compare .eq (.register 4) (.lit 235)),
    .op (.assert (.register 5))]

/-- Of three violations the first one is reported, and without it the second. -/
theorem compile_outcome_aboveAndMagic :
    let params : List Ty := [.integer ⟨.w8, false⟩, .byteArray ⟨.w32, false⟩]
    let byte : Expr := .byteIndex (.argument ⟨1, "arg_1", .byteArray ⟨.w32, false⟩, 0⟩) (.lit 0)
    CompileFails "f" params (.integer ⟨.w8, false⟩) (aboveAndMagic 300) (some 3) Session.empty
        (.compile (.range (.unsatisfiable "arg_0"))) ∧
      CompileFails "f" params (.integer ⟨.w8, false⟩) (aboveAndMagic 30) (some 3) Session.empty
        (.compile (.complexAssertions 1 ⟨.eq, byte, .lit 235⟩)) := by
  intro params byte
  constructor
  · refine ((compile_outcome {} "f" params _ (aboveAndMagic 300) (some 3) Session.empty).2 _).1 ?_
    show _ = _
    decide +kernel
  · refine ((compile_outcome {} "f" params _ (aboveAndMagic 30) (some 3) Session.empty).2 _).1 ?_
    show _ = _
    decide +kernel

end Script

end GuardedC
