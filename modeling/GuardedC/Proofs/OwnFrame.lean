import GuardedC.Proofs.Trace

/-!
# The frame of a script

A script may make frames, drop them, and use values of other frames. Whatever it does, the frame
that it was given stays: `continues_step` says that no step drops it or changes its arguments, since
a script can drop only frames that it made itself. `owns_run` carries an invariant of values through
a run of any steps, where the parameters of all frames that come up on the way have to satisfy it,
and `signature_of_trace` reads off what all compilations rely on.
-/

namespace GuardedC

/-! ## Sessions -/

theorem Session.frame?_dropFrame (s : Session) (id j : FrameId) :
    (s.dropFrame id).frame? j = if id = j then none else s.frame? j := by
  unfold dropFrame frame?
  rw [List.getElem?_modify]
  split
  · cases s.frames[j]? <;> rfl
  · cases s.frames[j]? <;> rfl

/-- In `s'` the frame `id` has only been added to, and no frame got other parameters. -/
structure Session.Continues (id : FrameId) (s s' : Session) : Prop where
  length : s.frames.length ≤ s'.frames.length
  frame : ∃ es, s'.frame? id = (s.frame? id).map (·.enterAll es)
  params : ∀ j < s.frames.length, ∀ f', s'.frame? j = some f' →
    ∃ f, s.frame? j = some f ∧ f'.params = f.params

namespace Session.Continues

variable {id : FrameId} {s s₁ s₂ : Session}

/-- The log does not matter. -/
theorem of_frames (h : s₁.frames = s.frames) : Session.Continues id s s₁ := by
  have hframe : ∀ j, s₁.frame? j = s.frame? j := by
    intro j
    unfold Session.frame?
    rw [h]
  refine ⟨Nat.le_of_eq (by rw [h]), ⟨[], ?_⟩, ?_⟩
  · rw [hframe]
    exact Option.map_id'.symm
  · intro j _ f' hf'
    rw [hframe] at hf'
    exact ⟨f', hf', rfl⟩

theorem trans (h₁ : Session.Continues id s s₁) (h₂ : Session.Continues id s₁ s₂) :
    Session.Continues id s s₂ := by
  obtain ⟨es, hes⟩ := h₁.frame
  obtain ⟨fs, hfs⟩ := h₂.frame
  refine ⟨Nat.le_trans h₁.length h₂.length, ⟨es ++ fs, ?_⟩, ?_⟩
  · rw [hfs, hes, Option.map_map]
    congr 1
    funext f
    simp [Frame.enterAll]
  · intro j hj f₂ hf₂
    obtain ⟨f₁, hf₁, hparams₁⟩ := h₂.params j (Nat.lt_of_lt_of_le hj h₁.length) f₂ hf₂
    obtain ⟨f, hf, hparams⟩ := h₁.params j hj f₁ hf₁
    exact ⟨f, hf, hparams₁.trans hparams⟩

theorem enterAll (id : FrameId) (s : Session) (es : List FrameEntry) :
    Session.Continues id s (s.enterAll es) := by
  refine ⟨by simp, ⟨_, s.frame?_enterAll es id⟩, ?_⟩
  intro j _ f' hf'
  rw [Session.frame?_enterAll] at hf'
  obtain ⟨f, hf, rfl⟩ := Option.map_eq_some_iff.1 hf'
  exact ⟨f, hf, Frame.params_enterAll f _⟩

theorem opened {tys : List Ty} {slots : List Slot} {new : FrameId}
    (h : Session.Opened tys slots s s₁ new) (hid : id < s.frames.length) :
    Session.Continues id s s₁ := by
  have hother : ∀ j < s.frames.length, s₁.frame? j = s.frame? j := by
    intro j hj
    exact h.others j (h.id_eq ▸ Nat.ne_of_lt hj)
  refine ⟨?_, ⟨[], ?_⟩, ?_⟩
  · rw [h.length, h.id_eq]
    exact Nat.le_succ _
  · rw [hother id hid]
    exact Option.map_id'.symm
  · intro j hj f' hf'
    rw [hother j hj] at hf'
    exact ⟨f', hf', rfl⟩

theorem dropFrame {j : FrameId} (hj : id ≠ j) (s : Session) : Session.Continues id s (s.dropFrame j) := by
  refine ⟨by simp [Session.dropFrame], ⟨[], ?_⟩, ?_⟩
  · rw [Session.frame?_dropFrame, if_neg (Ne.symm hj)]
    exact Option.map_id'.symm
  · intro k _ f' hf'
    rw [Session.frame?_dropFrame] at hf'
    split at hf'
    · cases hf'
    · exact ⟨f', hf', rfl⟩

end Session.Continues

/-! ## Steps -/

namespace Script

variable {id : FrameId} {env env' : Env} {s s' : Session} {step : Step} {steps : List Step}
  {answer : Answer}

theorem opened_of_openFrameOf {types : List TypeSpec} {new : FrameId}
    (h : Returns (openFrameOf types) s new s') : ∃ tys slots, Session.Opened tys slots s s' new := by
  simp only [openFrameOf, returns_bind, returns_mapError, returns_except, except_mapError_ok] at h
  obtain ⟨tys, _, ⟨_, rfl⟩, hopen⟩ := h
  exact ⟨tys, opened_of_returns hopen⟩

/-- An answer that goes to no register and makes no frame. -/
def Answer.Inert : Answer → Prop
  | .value _ | .frame _ _ => False
  | _ => True

theorem push_inert (h : answer.Inert) :
    env.push (.ok answer) = { env with registers := env.registers ++ [none] } := by
  cases answer with
  | value v => exact h.elim
  | frame number new => exact h.elim
  | _ => rfl

theorem inert_of_query {q : Query} (h : q.eval env s = .ok answer) : answer.Inert := by
  cases q with
  | params source =>
    simp only [Query.eval, except_bind_ok, except_pure_ok] at h
    obtain ⟨_, _, rfl⟩ := h
    trivial
  | describe register =>
    simp only [Query.eval, except_bind_ok, except_pure_ok] at h
    obtain ⟨_, _, rfl⟩ := h
    trivial
  | tree arg =>
    simp only [Query.eval, except_bind_ok, except_pure_ok] at h
    obtain ⟨_, _, rfl⟩ := h
    trivial
  | root arg =>
    simp only [Query.eval, except_bind_ok, except_pure_ok] at h
    obtain ⟨_, _, rfl⟩ := h
    trivial
  | sameArgument lhs rhs =>
    simp only [Query.eval, except_bind_ok] at h
    obtain ⟨_, _, _, _, h⟩ := h
    split at h
    · cases h
      trivial
    · cases h
  | arguments number =>
    simp only [Query.eval, except_bind_ok, except_pure_ok] at h
    obtain ⟨_, _, rfl⟩ := h
    trivial
  | facts number owner index =>
    simp only [Query.eval, except_bind_ok] at h
    obtain ⟨_, _, _, _, h⟩ := h
    split at h
    · cases h
      trivial
    · cases h

theorem returns_query {q : Query} (h : Returns ((Step.query q).run env) s answer s') :
    answer.Inert ∧ s' = s := by
  simp only [Step.run, returns_bind, returns_get, returns_except] at h
  obtain ⟨_, _, ⟨rfl, rfl⟩, hanswer, rfl⟩ := h
  exact ⟨inert_of_query hanswer, rfl⟩

/-- Ranges are computed from a frame and only logged. -/
theorem returns_ranges {number : Nat} (h : Returns ((Step.ranges number).run env) s answer s') :
    answer.Inert ∧ s'.frames = s.frames := by
  simp only [Step.run, Frame.collapse, returns_bind, returns_get, returns_except, returns_mapError,
    returns_modify, returns_pure] at h
  obtain ⟨_, _, ⟨rfl, rfl⟩, _, _, ⟨_, rfl⟩, _, _, ⟨_, _, rfl, _, rfl⟩, rfl, rfl⟩ := h
  exact ⟨trivial, rfl⟩

theorem returns_openFrameStep {types : List TypeSpec}
    (h : Returns ((Step.openFrame types).run env) s answer s') :
    ∃ new tys slots, answer = .frame env.frames.length new ∧ Session.Opened tys slots s s' new := by
  simp only [Step.run, returns_bind, returns_pure] at h
  obtain ⟨new, _, hopen, rfl, rfl⟩ := h
  obtain ⟨tys, slots, hopened⟩ := opened_of_openFrameOf hopen
  exact ⟨new, tys, slots, rfl, hopened⟩

/-- A script drops frames by the numbers it gave them. -/
theorem returns_dropFrame {number : Nat} (h : Returns ((Step.dropFrame number).run env) s answer s') :
    answer.Inert ∧ ∃ j ∈ env.frames, s' = s.dropFrame j := by
  simp only [Step.run] at h
  split at h
  · exact absurd h returns_throw
  · rename_i j hj
    simp only [returns_bind, returns_get, returns_modify, returns_pure] at h
    obtain ⟨_, _, ⟨rfl, rfl⟩, _, _, rfl, rfl, rfl⟩ := h
    exact ⟨trivial, j, List.mem_of_getElem? hj, rfl⟩

/-- A foreign value is a parameter of a frame that is gone when the step ends. -/
theorem returns_foreign {types : List TypeSpec} {index : Nat}
    (h : Returns ((Step.foreign types index).run env) s answer s') :
    ∃ new tys slots s₁ p, Session.Opened tys slots s s₁ new ∧ p ∈ slots.map Slot.param ∧
      answer = .value p.toValue ∧ s' = s₁.dropFrame new := by
  simp only [Step.run, returns_bind, returns_get, returns_modify, returns_except, returns_pure,
    except_mapError_ok] at h
  obtain ⟨new, _, hopen, _, s₁, ⟨rfl, rfl⟩, _, _, rfl, p, _, ⟨hp, rfl⟩, rfl, rfl⟩ := h
  obtain ⟨tys, slots, hopened⟩ := opened_of_openFrameOf hopen
  rw [hopened.params_frameOf] at hp
  exact ⟨new, tys, slots, s₁, p, hopened, param_mem hp, rfl, rfl⟩

/-- No step drops the frame that the script was given. -/
theorem continues_step (hframes : ∀ j ∈ env.frames, id < j) (hid : id < s.frames.length)
    (h : Returns (step.run env) s answer s') : Session.Continues id s s' := by
  cases step with
  | op o =>
    obtain ⟨_, _, _, es, _, _, rfl⟩ := returns_op.1 h
    exact .enterAll id s es
  | query q => exact .of_frames (congrArg Session.frames (returns_query h).2)
  | ranges number => exact .of_frames (returns_ranges h).2
  | openFrame types =>
    obtain ⟨new, tys, slots, _, hopened⟩ := returns_openFrameStep h
    exact .opened hopened hid
  | dropFrame number =>
    -- only frames that have a number can be dropped, and these were made after `id`
    obtain ⟨_, j, hj, rfl⟩ := returns_dropFrame h
    exact .dropFrame (Nat.ne_of_lt (hframes j hj)) s
  | foreign types index =>
    -- the frame is made and dropped within the step
    obtain ⟨new, tys, slots, s₁, p, hopened, _, _, rfl⟩ := returns_foreign h
    have hnew : id ≠ new := by
      rw [hopened.id_eq]
      exact Nat.ne_of_lt hid
    exact (Session.Continues.opened hopened hid).trans (.dropFrame hnew s₁)

/-! ## Runs -/

/-- What a script refers to: values of the right kind, and frames that it made after the frame
`id`. -/
structure Env.Owns (V : Value → Prop) (id : FrameId) (env : Env) (s : Session) : Prop where
  registers : ∀ v, some v ∈ env.registers → V v
  given : ∀ ps, env.given = some ps → ∀ p ∈ ps, V p.toValue
  frames : ∀ j ∈ env.frames, id < j ∧ j < s.frames.length
  params : ∀ j ∈ env.frames, ∀ f, s.frame? j = some f → ∀ p ∈ f.params, V p.toValue

theorem Env.All.of_frames {V : Value → Prop} (hregisters : ∀ v, some v ∈ env.registers → V v)
    (hgiven : ∀ ps, env.given = some ps → ∀ p ∈ ps, V p.toValue)
    (hframes : ∀ j ∈ env.frames, ∀ f, s.frame? j = some f → ∀ p ∈ f.params, V p.toValue) : env.All V s where
  registers := hregisters
  params source ps hps := by
    rcases Env.of_params_ok hps with ⟨_, hps⟩ | ⟨number, j, f, _, hj, hf, rfl⟩
    · exact hgiven ps hps
    · exact hframes j (List.mem_of_getElem? hj) f hf

namespace Env.Owns

variable {V : Value → Prop}

theorem all (henv : env.Owns V id s) : env.All V s :=
  .of_frames henv.registers henv.given henv.params

theorem continue_to (henv : env.Owns V id s) (h : Session.Continues id s s') : env.Owns V id s' where
  registers := henv.registers
  given := henv.given
  frames j hj := ⟨(henv.frames j hj).1, Nat.lt_of_lt_of_le (henv.frames j hj).2 h.length⟩
  params j hj f' hf' := by
    obtain ⟨f, hf, hparams⟩ := h.params j (henv.frames j hj).2 f' hf'
    rw [hparams]
    exact henv.params j hj f hf

theorem pushNone (henv : env.Owns V id s) :
    ({ env with registers := env.registers ++ [none] } : Env).Owns V id s where
  registers := forall_registers_push henv.registers (by simp)
  given := henv.given
  frames := henv.frames
  params := henv.params

theorem pushValue (henv : env.Owns V id s) {v : Value} (hv : V v) :
    (env.push (.ok (.value v))).Owns V id s where
  registers := forall_registers_push henv.registers (by simpa using hv)
  given := henv.given
  frames := henv.frames
  params := henv.params

end Env.Owns

/-- The parameters of every frame that is made after the frame `id` are of the right kind. -/
def Foreign (V : Value → Prop) (id : FrameId) : Prop :=
  ∀ ⦃new : FrameId⦄ ⦃tys : List Ty⦄ ⦃slots : List Slot⦄, id < new → Layout new 0 0 tys slots →
    ∀ p ∈ slots.map Slot.param, V p.toValue

/-- What has to be shown for the values that a step brings in. -/
def Step.Keeps (I : Expr → Prop) (B : Bytes → Prop) (id : FrameId) : Step → Prop
  | op o => o.isChecked = true ∨ ClosedRaw I B
  | openFrame _ | foreign _ _ => Foreign (Value.All I B) id
  | query _ | ranges _ | dropFrame _ => True

theorem Step.Checked.keeps {I : Expr → Prop} {B : Bytes → Prop} (h : step.Checked) :
    step.Keeps I B id := by
  cases step with
  | op o => exact .inl h
  | _ => exact h.elim

section

variable {H : Cond → Prop} {I : Expr → Prop} {B : Bytes → Prop}

theorem owns_step (hclosed : Closed H I B) (hkeeps : step.Keeps I B id)
    (henv : env.Owns (Value.All I B) id s) (hid : id < s.frames.length)
    (h : Returns (step.run env) s answer s') (hH : ∀ c ∈ step.conditions env s, H c) :
    (env.push (.ok answer)).Owns (Value.All I B) id s' ∧ ∀ c ∈ step.conditions env s, c.All I := by
  have hnext := henv.continue_to (continues_step (fun j hj => (henv.frames j hj).1) hid h)
  cases step with
  | op o =>
    obtain ⟨result, hresult, rfl, _⟩ := returns_op.1 h
    rw [conditions_op hresult] at hH ⊢
    obtain ⟨hconditions, hanswer⟩ := Op.keeps hclosed hkeeps henv.all hresult hH
    refine ⟨?_, hconditions⟩
    cases hvalue : result.value with
    | value v =>
      rw [hvalue] at hanswer
      exact hnext.pushValue hanswer
    | truth b => exact hnext.pushNone
    | _ =>
      rw [hvalue] at hanswer
      exact hanswer.elim
  | query q =>
    rw [push_inert (returns_query h).1]
    exact ⟨hnext.pushNone, by simp [Step.conditions]⟩
  | ranges number =>
    rw [push_inert (returns_ranges h).1]
    exact ⟨hnext.pushNone, by simp [Step.conditions]⟩
  | openFrame types =>
    obtain ⟨new, tys, slots, rfl, hopened⟩ := returns_openFrameStep h
    have hnew : id < new := by
      rw [hopened.id_eq]
      exact hid
    -- from now on the parameters of the new frame can be asked for too
    refine ⟨⟨hnext.pushNone.registers, hnext.given, ?_, ?_⟩, by simp [Step.conditions]⟩
    · intro j hj
      rcases List.mem_append.1 hj with hj | hj
      · exact hnext.frames j hj
      · cases List.mem_singleton.1 hj
        exact ⟨hnew, by rw [hopened.length]; exact Nat.lt_succ_self _⟩
    · intro j hj f hf
      rcases List.mem_append.1 hj with hj | hj
      · exact hnext.params j hj f hf
      · cases List.mem_singleton.1 hj
        rw [hopened.frame] at hf
        cases hf
        rw [Frame.params_enterAll]
        exact hkeeps hnew hopened.layout
  | dropFrame number =>
    rw [push_inert (returns_dropFrame h).1]
    exact ⟨hnext.pushNone, by simp [Step.conditions]⟩
  | foreign types index =>
    obtain ⟨new, tys, slots, s₁, p, hopened, hp, rfl, rfl⟩ := returns_foreign h
    have hnew : id < new := by
      rw [hopened.id_eq]
      exact hid
    exact ⟨hnext.pushValue (hkeeps hnew hopened.layout p hp), by simp [Step.conditions]⟩

/-- An invariant of values holds in every register of a run, as far as the asserted conditions are
met, and these conditions are of its kind too. -/
theorem owns_run (hclosed : Closed H I B) (hkeeps : ∀ step ∈ steps, step.Keeps I B id)
    (henv : env.Owns (Value.All I B) id s) (hid : id < s.frames.length)
    (h : Returns (run env steps) s env' s') (hH : ∀ c ∈ asserted env s steps, H c) :
    env'.Owns (Value.All I B) id s' ∧ Session.Continues id s s' ∧ ∀ c ∈ asserted env s steps, c.All I := by
  induction steps generalizing env s with
  | nil =>
    obtain ⟨rfl, rfl⟩ := returns_run_nil.1 h
    exact ⟨henv, .of_frames rfl, by simp [asserted]⟩
  | cons step steps ih =>
    obtain ⟨answer, s₁, hstep, hrest⟩ := returns_run_cons.1 h
    rw [asserted_cons hstep] at hH ⊢
    simp only [List.mem_append, or_imp, forall_and] at hH ⊢
    obtain ⟨hnext, hconditions⟩ := owns_step hclosed (hkeeps step (.head _)) henv hid hstep hH.1
    have hcontinues := continues_step (fun j hj => (henv.frames j hj).1) hid hstep
    obtain ⟨hlast, hend, hasserted⟩ := ih (fun step hstep => hkeeps step (.tail _ hstep)) hnext
      (Nat.lt_of_lt_of_le hid hcontinues.length) hrest hH.2
    exact ⟨hlast, hcontinues.trans hend, hconditions, hasserted⟩

end

/-! ## Traces -/

section

variable {name : String} {params : List Ty} {t : Trace}

/-- A property that everything has. -/
theorem closed_trivial : Closed (fun _ => True) (fun _ => True) (fun _ => True) where
  lit _ := trivial
  binary _ _ := trivial
  arrayLength _ := trivial
  bounds _ := ⟨trivial, trivial⟩
  byteAt _ _ _ := trivial
  slice _ _ _ _ := trivial

theorem Value.all_trivial (v : Value) : v.All (fun _ => True) (fun _ => True) := by
  cases v with
  | cond c => cases c <;> trivial
  | _ => trivial

/-- An operation makes no frame. -/
theorem frames_push_op {o : Op} {result : Provided Answer} (h : o.eval env s = .ok result) :
    (env.push (.ok result.value)).frames = env.frames := by
  have henv : env.All (Value.All (fun _ => True) (fun _ => True)) s :=
    ⟨fun v _ => Value.all_trivial v, fun _ _ _ p _ => Value.all_trivial p.toValue⟩
  have hraw : ClosedRaw (fun _ => True) (fun _ => True) :=
    ⟨fun _ => trivial, fun _ _ => trivial, fun _ _ _ => trivial⟩
  have hkind := (Op.keeps closed_trivial (.inr hraw) henv h fun _ _ => trivial).2
  cases hanswer : result.value with
  | frame number id =>
    rw [hanswer] at hkind
    exact hkind.elim
  | _ => rfl

theorem Step.keeps_trivial (step : Step) : step.Keeps (fun _ => True) (fun _ => True) id := by
  cases step with
  | op o => exact .inr ⟨fun _ => trivial, fun _ _ => trivial, fun _ _ _ => trivial⟩
  | openFrame types => exact fun _ _ _ _ _ p _ => Value.all_trivial p.toValue
  | foreign types index => exact fun _ _ _ _ _ p _ => Value.all_trivial p.toValue
  | _ => trivial

/-- The parameters that a script starts with, where no frame has a number yet. -/
theorem owns_start {V : Value → Prop} {ps : Params} (hparams : ∀ p ∈ ps, V p.toValue) :
    ({ given := some ps } : Env).Owns V id s where
  registers v hv := nomatch hv
  given qs hqs := by
    cases hqs
    exact hparams
  frames j hj := nomatch hj
  params j hj := nomatch hj

/-- At the end of a run the frame that the script was given is there, and has only been added to. -/
theorem frameOf_run {slots : List Slot} {s₀ : Session} (hopened : Session.Opened params slots s₀ s id)
    (h : Returns (run { given := some (slots.map Slot.param) } steps) s env' s') :
    ∃ es, s'.frameOf id = (Frame.ofSlots slots).enterAll es := by
  have hid : id < s.frames.length := by
    rw [hopened.length]
    exact Nat.lt_succ_self _
  obtain ⟨_, hcontinues, _⟩ := owns_run closed_trivial (fun step _ => step.keeps_trivial)
    (owns_start fun p _ => Value.all_trivial p.toValue) hid h fun _ _ => trivial
  obtain ⟨es, hes⟩ := hcontinues.frame
  rw [hopened.frame] at hes
  refine ⟨lengthEntries slots ++ es, ?_⟩
  rw [Session.frameOf, hes]
  simp [Frame.enterAll]

/-- A trace leaves the arguments of its frame as they were laid out. -/
theorem layout_of_trace (h : Returns (takeTrace name params steps) s t s') :
    ∃ slots, Layout t.id 0 0 params slots ∧ t.frame.arguments = slots.flatMap Slot.arguments := by
  obtain ⟨start, slots, hopened, hrun, hframe, _⟩ := returns_trace h
  obtain ⟨es, hes⟩ := frameOf_run hopened hrun
  refine ⟨slots, hopened.layout, ?_⟩
  rw [hframe, hes, Frame.arguments_enterAll]
  rfl

theorem signature_of_trace (h : Returns (takeTrace name params steps) s t s') :
    Signature t.id t.frame.arguments := by
  obtain ⟨slots, hlayout, harguments⟩ := layout_of_trace h
  rw [harguments]
  exact hlayout.signature

/-- An invariant of values, from the parameters to all registers and all asserted conditions. -/
theorem all_of_trace {H : Cond → Prop} {I : Expr → Prop} {B : Bytes → Prop}
    (h : Returns (takeTrace name params steps) s t s') (hclosed : Closed H I B)
    (hkeeps : ∀ step ∈ steps, step.Keeps I B t.id)
    (hparams : ∀ p : Param, p.In t.frame.arguments → p.toValue.All I B) (hH : ∀ c ∈ t.asserted, H c) :
    (∀ v, some v ∈ t.env.registers → v.All I B) ∧ ∀ c ∈ t.asserted, c.All I := by
  obtain ⟨start, slots, hopened, hrun, hframe, hasserted⟩ := returns_trace h
  have hid : t.id < start.frames.length := by
    rw [hopened.length]
    exact Nat.lt_succ_self _
  have hgiven : ∀ p ∈ slots.map Slot.param, p.toValue.All I B := by
    intro p hp
    obtain ⟨es, hes⟩ := frameOf_run hopened hrun
    have harguments : t.frame.arguments = slots.flatMap Slot.arguments := by
      rw [hframe, hes, Frame.arguments_enterAll]
      rfl
    exact hparams p (harguments ▸ hopened.layout.params_in p hp)
  rw [hasserted] at hH ⊢
  simp only [List.mem_append, or_imp, forall_and] at hH ⊢
  obtain ⟨hlast, _, hconditions⟩ := owns_run hclosed hkeeps (owns_start hgiven) hid hrun hH.2
  refine ⟨hlast.registers, ?_, hconditions⟩
  intro c hc
  obtain ⟨p, hp, hlength⟩ := List.mem_filterMap.1 hc
  cases p with
  | int e => cases hlength
  | bytes b =>
    cases hlength
    exact hclosed.compare (hclosed.sorted.length (hgiven _ hp)) (hclosed.lit 0)

end

end Script

end GuardedC
