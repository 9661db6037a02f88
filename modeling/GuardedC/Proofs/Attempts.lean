import GuardedC.Proofs.Leaves
import GuardedC.Proofs.OwnFrame
import GuardedC.Script.Report

/-!
# Assertions that may fail

An assertion that fails leaves in the session what it recorded before. To say what that is, the
conditions are read as a list of demands, each to be recorded or refused (`Cond.demands`); they are
met one after the other, up to the first that cannot be (`attempt`). `meets_assertAll` says that
asserting does just this, whatever comes of it.

A script that is watched goes on after a failure. `Script.after` is where it ends, and the lemmas on
single steps say what each of them leaves in the session, failed or not.
-/

namespace GuardedC

/-! ## Demands -/

/-- What asserting a condition comes to, conjunct by conjunct. -/
inductive Demand where
  /-- A comparison to be recorded. -/
  | record (entry : FrameEntry)
  /-- A conjunct that cannot be asserted. -/
  | refuse (error : TraceError)
deriving Repr, DecidableEq

/-- The demand of a comparison. -/
def Comparison.demand (op : Comparison) (l r : Expr) : Demand :=
  match op.entry? l r with
  | some x => .record x
  | none => .refuse (.unsupportedAssertion (.binary op l r))

/-- The demands of a symbolic condition, those of the left conjunct first. -/
def Expr.demands : Expr → List Demand
  | .binary (.connect .and) l r =>
    -- a literal is no conjunct, and makes the whole conjunction one that cannot be asserted
    (if l.isLiteral then [.refuse (.unsupportedAssertion (.binary Connective.and l r))] else l.demands) ++
      if r.isLiteral then [.refuse (.unsupportedAssertion (.binary Connective.and l r))] else r.demands
  | .binary (.compare op) l r => [op.demand l r]
  | e => [.refuse (.unsupportedAssertion e)]

def Cond.demands : Cond → List Demand
  | .known true => []
  | .known false => [.refuse .staticallyFalse]
  | .symbolic e => e.demands

/-- Meets demands one after the other, up to the first that cannot be met: gives what is recorded,
and whether that is all. -/
def attempt (alive : FrameId → Bool) : List Demand → List FrameEntry × Except TraceError Unit
  | [] => ([], .ok ())
  | .refuse e :: _ => ([], .error e)
  | .record x :: ds =>
    if alive x.argument.frame then (x :: (attempt alive ds).1, (attempt alive ds).2)
    else ([], .error (.detached x.argument.name))

section

variable {alive alive' : FrameId → Bool} {ds es : List Demand}

/-- What is recorded was demanded, and its frame is alive. -/
theorem of_mem_attempt {x : FrameEntry} (h : x ∈ (attempt alive ds).1) :
    .record x ∈ ds ∧ alive x.argument.frame = true := by
  fun_induction attempt alive ds with
  | case1 => cases h
  | case2 e ds => cases h
  | case3 y ds halive ih =>
    rcases List.mem_cons.1 h with rfl | h
    · exact ⟨.head _, halive⟩
    · exact ⟨.tail _ (ih h).1, (ih h).2⟩
  | case4 y ds halive => cases h

/-- It matters only for the frames that are written to whether they are alive. -/
theorem attempt_congr (h : ∀ x, .record x ∈ ds → alive x.argument.frame = alive' x.argument.frame) :
    attempt alive ds = attempt alive' ds := by
  induction ds with
  | nil => rfl
  | cons d ds ih =>
    cases d with
    | refuse e => rfl
    | record x =>
      have hrest := ih fun y hy => h y (.tail _ hy)
      simp only [attempt, h x (.head _), hrest]

/-- Demands that follow on others are met if these were. -/
theorem attempt_append :
    attempt alive (ds ++ es) =
      match attempt alive ds with
      | (xs, .ok _) => (xs ++ (attempt alive es).1, (attempt alive es).2)
      | (xs, .error e) => (xs, .error e) := by
  fun_induction attempt alive ds with
  | case1 => rfl
  | case2 e ds => rfl
  | case3 x ds halive ih =>
    simp only [List.cons_append, attempt, halive, if_true, ih]
    rcases attempt alive ds with ⟨xs, e | _⟩ <;> rfl
  | case4 x ds halive => simp [attempt, halive]

end

/-! ## What asserting does -/

/-- Whether a frame can be written to. -/
def Session.alive (s : Session) (id : FrameId) : Bool := (s.frame? id).isSome

theorem Session.alive_enterAll (s : Session) (es : List FrameEntry) : (s.enterAll es).alive = s.alive := by
  funext id
  exact s.isSome_frame?_enterAll es id

/-- The computation meets the demands, in whatever session it is started. -/
def Meets (x : Tracing Unit) (ds : List Demand) : Prop :=
  ∀ s : Session, x.run.run s = ((attempt s.alive ds).2, s.enterAll (attempt s.alive ds).1)

section

variable {x y : Tracing Unit} {ds es : List Demand}

theorem meets_throw (e : TraceError) : Meets (throw e) [.refuse e] := fun _ => rfl

theorem meets_bind (hx : Meets x ds) (hy : Meets y es) : Meets (x >>= fun _ => y) (ds ++ es) := by
  intro s
  simp only [ExceptT.run_bind, StateT.run_bind, hx s, attempt_append]
  rcases attempt s.alive ds with ⟨xs, e | _⟩
  · rfl
  · -- what was recorded so far does not change which frames are alive
    refine (hy (s.enterAll xs)).trans ?_
    rw [Session.alive_enterAll, Session.enterAll_append]

/-- Both ways of recording look whether the frame is alive first. -/
theorem meets_keep (x : FrameEntry) :
    Meets (do
      if ((← get).frame? x.argument.frame).isNone then throw (.detached x.argument.name)
      say x.message
      modify (·.updateFrame x.argument.frame (·.enter x))) [.record x] := by
  intro s
  by_cases halive : s.alive x.argument.frame = true
  · rw [attempt, if_pos halive]
    exact returns_keep.2 ⟨halive, rfl⟩
  · have hnone : (s.frame? x.argument.frame).isNone = true := by
      simpa [Session.alive] using halive
    rw [attempt, if_neg halive]
    show ((if (s.frame? x.argument.frame).isNone = true then _ else _ : Tracing Unit).run.run s) = _
    rw [if_pos hnone]
    rfl

theorem meets_root {read : Expr} {fact : ComplexFact} {e : TraceError} :
    Meets (match read.root? with
        | some arg => recordComplex arg fact
        | none => throw e)
      [match read.root?.map (FrameEntry.complex · fact) with
        | some x => .record x
        | none => .refuse e] := by
  cases read.root? with
  | none => exact meets_throw e
  | some arg => exact meets_keep (.complex arg fact)

theorem meets_assertComparison (op : Comparison) (l r : Expr) :
    Meets (assertComparison op l r) [op.demand l r] := by
  unfold assertComparison
  split
  · rename_i arg
    exact meets_keep (.fact arg ⟨op, r⟩)
  · -- an argument on the right is recorded only if there is none on the left
    rename_i arg hleft
    have hentry : op.entry? l (.argument arg) = some (.fact arg ⟨op.reverse, l⟩) := by
      cases l with
      | argument a => exact absurd rfl (hleft a)
      | _ => rfl
    rw [Comparison.demand, hentry]
    exact meets_keep (.fact arg ⟨op.reverse, l⟩)
  · exact meets_root
  · exact meets_root
  · rename_i h₁ h₂ h₃ h₄
    have hentry : op.entry? l r = none := by
      unfold Comparison.entry?
      split
      · exact absurd rfl (h₁ _)
      · exact absurd rfl (h₂ _)
      · exact absurd rfl (h₃ _ _ _ rfl)
      · exact absurd rfl (h₄ _ _ _ rfl)
      · rfl
    rw [Comparison.demand, hentry]
    exact meets_throw _

theorem meets_assertExpr (e : Expr) : Meets (assertExpr e) e.demands := by
  fun_induction Expr.demands e with
  | case1 l r ihl ihr =>
    rw [assertExpr]
    cases l.isLiteral with
    | true => exact fun _ => rfl
    | false =>
      refine meets_bind ihl ?_
      cases r.isLiteral with
      | true => exact fun _ => rfl
      | false => exact ihr
  | case2 op l r => exact meets_assertComparison op l r
  | case3 e hand hcompare =>
    rw [assertExpr]
    · exact meets_throw _
    · exact hand
    · exact hcompare

theorem meets_assertThat (c : Cond) : Meets (assertThat c) c.demands := by
  unfold assertThat Cond.demands
  split
  · exact fun _ => rfl
  · exact meets_throw _
  · exact meets_assertExpr _

theorem meets_assertAll (cs : List Cond) : Meets (assertAll cs) (cs.flatMap Cond.demands) := by
  induction cs with
  | nil => exact fun _ => rfl
  | cons c cs ih => exact meets_bind (meets_assertThat c) ih

end

/-! ## Where demands come from -/

theorem Comparison.mem_leaves_of_entry? {op : Comparison} {l r : Expr} {x : FrameEntry}
    (h : op.entry? l r = some x) : x.argument ∈ (Expr.binary (.compare op) l r).leaves := by
  unfold Comparison.entry? at h
  split at h
  · cases h
    exact .head _
  · cases h
    exact List.mem_append_right _ (.head _)
  · obtain ⟨a, ha, rfl⟩ := Option.map_eq_some_iff.1 h
    exact List.mem_append_left _ (Expr.mem_leaves_of_root? ha)
  · obtain ⟨a, ha, rfl⟩ := Option.map_eq_some_iff.1 h
    exact List.mem_append_right _ (Expr.mem_leaves_of_root? ha)
  · cases h

/-- What is recorded for conditions of the kind `C` is of the kind `P`. -/
structure Recorded (C : Expr → Prop) (P : FrameEntry → Prop) : Prop where
  conjuncts : ∀ {l r}, C (.binary (.connect .and) l r) → C l ∧ C r
  comparison : ∀ {op l r x}, C (.binary (.compare op) l r) → op.entry? l r = some x → P x

namespace Recorded

variable {C : Expr → Prop} {P : FrameEntry → Prop} {x : FrameEntry}

theorem of_expr (h : Recorded C P) {e : Expr} (he : C e) (hx : .record x ∈ e.demands) : P x := by
  fun_induction Expr.demands e with
  | case1 l r ihl ihr =>
    obtain ⟨hl, hr⟩ := h.conjuncts he
    rcases List.mem_append.1 hx with hx | hx
    · split at hx
      · cases List.mem_singleton.1 hx
      · exact ihl hl hx
    · split at hx
      · cases List.mem_singleton.1 hx
      · exact ihr hr hx
  | case2 op l r =>
    have hdemand := List.mem_singleton.1 hx
    unfold Comparison.demand at hdemand
    split at hdemand
    · rename_i y hy
      cases hdemand
      exact h.comparison he hy
    · cases hdemand
  | case3 e _ _ => cases List.mem_singleton.1 hx

theorem of_conditions (h : Recorded C P) {cs : List Cond} (hcs : ∀ c ∈ cs, c.All C)
    (hx : .record x ∈ cs.flatMap Cond.demands) : P x := by
  obtain ⟨c, hc, hx⟩ := List.mem_flatMap.1 hx
  have hkind := hcs c hc
  cases c with
  | known b => cases b <;> simp [Cond.demands] at hx
  | symbolic e => exact h.of_expr hkind hx

end Recorded

theorem recorded_over {P : Argument → Prop} : Recorded (Expr.Over P) fun x => P x.argument where
  conjuncts h := Expr.over_binary.1 h
  comparison h hx := h _ (Comparison.mem_leaves_of_entry? hx)

/-! ## Demands that can all be recorded -/

theorem Expr.demands_of_entries? {e : Expr} {es : List FrameEntry} (h : e.entries? = some es) :
    e.demands = es.map .record := by
  fun_induction Expr.entries? e generalizing es with
  | case1 l r ihl ihr =>
    simp only [Option.bind_eq_bind, Option.bind_eq_some_iff, Option.pure_def, Option.some.injEq] at h
    rcases h with ⟨ls, hls, rs, hrs, rfl⟩
    -- a literal has no entries
    have hliteral : ∀ {e : Expr} {es : List FrameEntry}, e.entries? = some es → e.isLiteral = false := by
      intro e es hes
      cases e with
      | lit v => cases hes
      | _ => rfl
    simp only [Expr.demands, hliteral hls, hliteral hrs, Bool.false_eq_true, if_false, ihl hls, ihr hrs,
      List.map_append]
  | case2 op l r =>
    simp only [Option.bind_eq_bind, Option.bind_eq_some_iff, Option.pure_def, Option.some.injEq] at h
    rcases h with ⟨x, hx, rfl⟩
    simp only [Expr.demands, Comparison.demand, hx, List.map_cons, List.map_nil]
  | case3 e _ _ => cases h

theorem demands_of_entriesOf? {cs : List Cond} {es : List FrameEntry} (h : entriesOf? cs = some es) :
    cs.flatMap Cond.demands = es.map .record := by
  induction cs generalizing es with
  | nil =>
    cases h
    rfl
  | cons c cs ih =>
    rcases entriesOf?_cons.1 h with ⟨xs, hxs, ys, hys, rfl⟩
    have hfirst : c.demands = xs.map .record := by
      cases c with
      | known b =>
        cases b with
        | false => cases hxs
        | true =>
          cases hxs
          rfl
      | symbolic e => exact Expr.demands_of_entries? hxs
    rw [List.flatMap_cons, hfirst, ih hys, List.map_append]

/-- What can be recorded of conditions of the kind `C` is of the kind `P`. -/
theorem Recorded.of_entries {C : Expr → Prop} {P : FrameEntry → Prop} (h : Recorded C P) {cs : List Cond}
    (hcs : ∀ c ∈ cs, c.All C) {es : List FrameEntry} (hes : entriesOf? cs = some es) : ∀ x ∈ es, P x := by
  intro x hx
  refine h.of_conditions hcs ?_
  rw [demands_of_entriesOf? hes]
  exact List.mem_map_of_mem hx

/-! ## What happens to frames -/

/-- What can become of the frames of a session: they are added to, made and dropped. What is added
to them is in `P`. -/
inductive Session.Changes (P : Session → FrameEntry → Prop) : Session → Session → Prop where
  /-- The log does not matter. -/
  | frames {s s' : Session} (h : s'.frames = s.frames) : Session.Changes P s s'
  | enterAll {s : Session} {es : List FrameEntry} (h : ∀ x ∈ es, P s x) :
      Session.Changes P s (s.enterAll es)
  | opened {tys : List Ty} {slots : List Slot} {s s' : Session} {id : FrameId}
      (h : Session.Opened tys slots s s' id) : Session.Changes P s s'
  | dropFrame (s : Session) (id : FrameId) : Session.Changes P s (s.dropFrame id)
  | trans {s s₁ s₂ : Session} (h₁ : Session.Changes P s s₁) (h₂ : Session.Changes P s₁ s₂) :
      Session.Changes P s s₂

/-! ## Steps that may fail -/

namespace Script

/-- The outcome of a step, and the session that it leaves. -/
def Step.attempt (env : Env) (s : Session) (step : Step) : Except Fault Answer × Session :=
  (step.run env).run.run s

section

variable {env : Env} {s : Session}

theorem attempt_op_error {o : Op} {fault : Fault} (h : o.eval env s = .error fault) :
    (Step.op o).attempt env s = (.error fault, s) := by
  show ((liftM (o.eval env s) >>= fun result => result.assert.mapError Fault.trace :
    InSession Fault Answer).run.run s) = _
  rw [h]
  rfl

/-- An operation that can be evaluated does what its conditions demand. -/
theorem attempt_op_ok {o : Op} {result : Provided Answer} {es : List FrameEntry}
    {met : Except TraceError Unit} (h : o.eval env s = .ok result)
    (hmet : GuardedC.attempt s.alive (result.conditions.flatMap Cond.demands) = (es, met)) :
    (Step.op o).attempt env s = ((met.mapError Fault.trace).map fun _ => result.value, s.enterAll es) := by
  have hassert := meets_assertAll result.conditions s
  rw [hmet] at hassert
  show ((liftM (o.eval env s) >>= fun result => result.assert.mapError Fault.trace :
    InSession Fault Answer).run.run s) = _
  rw [h]
  show (result.assert.mapError Fault.trace).run.run s = _
  rw [run_mapError, Provided.assert]
  simp only [ExceptT.run_bind, StateT.run_bind, hassert]
  rcases met with e | _ <;> rfl

/-- What an operation records, whatever comes of it. -/
def Op.records (env : Env) (s : Session) (o : Op) : List FrameEntry :=
  (GuardedC.attempt s.alive (((Step.op o).conditions env s).flatMap Cond.demands)).1

theorem session_attempt_op (o : Op) : ((Step.op o).attempt env s).2 = s.enterAll (o.records env s) := by
  cases h : o.eval env s with
  | error fault =>
    have hnone : o.records env s = [] := by
      simp only [Op.records, Step.conditions, h]
      rfl
    rw [attempt_op_error h, hnone]
    rfl
  | ok result => rw [attempt_op_ok h rfl, Op.records, conditions_op h]

/-- What is recorded was demanded, of a frame that is alive. -/
theorem of_mem_records {o : Op} {x : FrameEntry} (h : x ∈ o.records env s) :
    s.alive x.argument.frame = true ∧
      ∃ result, o.eval env s = .ok result ∧ .record x ∈ result.conditions.flatMap Cond.demands := by
  rcases of_mem_attempt h with ⟨hdemand, halive⟩
  refine ⟨halive, ?_⟩
  cases heval : o.eval env s with
  | error fault =>
    simp only [Step.conditions, heval] at hdemand
    cases hdemand
  | ok result =>
    rw [conditions_op heval] at hdemand
    exact ⟨result, rfl, hdemand⟩

theorem frames_attempt_ranges (env : Env) (s : Session) (number : Nat) :
    ((Step.ranges number).attempt env s).2.frames = s.frames := by
  show ((liftM (env.frame s number) >>= fun f => f.collapse.mapError Fault.range >>= fun rows =>
    pure (.ranges rows) : InSession Fault Answer).run.run s).2.frames = _
  cases env.frame s number with
  | error fault => rfl
  | ok f =>
    show ((f.collapse.mapError Fault.range >>= fun rows => pure (.ranges rows) :
      InSession Fault Answer).run.run s).2.frames = _
    have hcollapse : f.collapse.run.run s = (f.ranges, { s with log := s.log ++ f.rangesLog }) := rfl
    simp only [ExceptT.run_bind, StateT.run_bind, run_mapError, hcollapse]
    cases f.ranges <;> rfl

/-- Parameters that can be laid out make a frame. -/
theorem opened_of_layout {tys : List Ty} {slots : List Slot} (h : Layout s.frames.length 0 0 tys slots) :
    ∃ s', Returns (GuardedC.openFrame tys) s s.frames.length s' ∧
      Session.Opened tys slots s s' s.frames.length := by
  obtain ⟨s', hopen⟩ : ∃ s', Returns (GuardedC.openFrame tys) s s.frames.length s' :=
    ⟨_, returns_openFrame.2 ⟨rfl, slots, h, rfl⟩⟩
  obtain ⟨slots', hopened⟩ := opened_of_returns hopen
  -- there is one way to lay out parameters
  have hlayout := (Slot.layout_eq_ok.2 hopened.layout).symm.trans (Slot.layout_eq_ok.2 h)
  cases hlayout
  exact ⟨s', hopen, hopened⟩

/-- What `openFrameOf` needs: types that can be resolved and laid out. -/
def LaysOut (types : List TypeSpec) (id : FrameId) (tys : List Ty) (slots : List Slot) : Prop :=
  types.mapM TypeSpec.resolve = .ok tys ∧ Layout id 0 0 tys slots

theorem opened_of_laysOut {types : List TypeSpec} {tys : List Ty} {slots : List Slot}
    (h : LaysOut types s.frames.length tys slots) :
    ∃ s', Returns (openFrameOf types) s s.frames.length s' ∧
      Session.Opened tys slots s s' s.frames.length := by
  rcases opened_of_layout h.2 with ⟨s', hopen, hopened⟩
  refine ⟨s', ?_, hopened⟩
  simp only [openFrameOf, h.1, returns_bind, returns_mapError, returns_except, except_mapError_ok]
  exact ⟨tys, s, ⟨rfl, rfl⟩, hopen⟩

/-- A frame is made as a whole, or the session stays as it is. -/
theorem run_openFrameOf (types : List TypeSpec) (s : Session) :
    (∃ fault, (openFrameOf types).run.run s = (.error fault, s)) ∨
      ∃ tys slots, LaysOut types s.frames.length tys slots := by
  unfold openFrameOf
  cases htypes : types.mapM TypeSpec.resolve with
  | error e => exact .inl ⟨.type e, rfl⟩
  | ok tys =>
    cases hlayout : Slot.layout s.frames.length 0 0 tys with
    | ok slots => exact .inr ⟨tys, slots, htypes, Slot.layout_eq_ok.1 hlayout⟩
    | error e =>
      have hfail : (GuardedC.openFrame tys).run.run s = (.error e, s) := by
        show ((liftM (Slot.layout s.frames.length 0 0 tys) >>= fun slots => _ :
          Tracing FrameId).run.run s) = _
        rw [hlayout]
        rfl
      refine .inl ⟨.trace e, ?_⟩
      show ((GuardedC.openFrame tys).mapError Fault.trace).run.run s = _
      rw [run_mapError, hfail]
      rfl

theorem attempt_openFrame_ok (env : Env) {types : List TypeSpec} {tys : List Ty} {slots : List Slot}
    (h : LaysOut types s.frames.length tys slots) :
    ∃ s', Session.Opened tys slots s s' s.frames.length ∧
      (Step.openFrame types).attempt env s = (.ok (.frame env.frames.length s.frames.length), s') := by
  rcases opened_of_laysOut h with ⟨s', hopen, hopened⟩
  refine ⟨s', hopened, ?_⟩
  have hreturns : Returns ((Step.openFrame types).run env) s
      (.frame env.frames.length s.frames.length) s' := by
    simp only [Step.run, returns_bind, returns_pure]
    exact ⟨_, _, hopen, rfl, rfl⟩
  exact hreturns

theorem attempt_openFrame (env : Env) (s : Session) (types : List TypeSpec) :
    (∃ fault, (Step.openFrame types).attempt env s = (.error fault, s)) ∨
      ∃ tys slots, LaysOut types s.frames.length tys slots := by
  rcases run_openFrameOf types s with ⟨fault, hfail⟩ | hlays
  · refine .inl ⟨fault, ?_⟩
    show ((openFrameOf types >>= fun id => pure (.frame env.frames.length id) :
      InSession Fault Answer).run.run s) = _
    simp only [ExceptT.run_bind, StateT.run_bind, hfail]
    rfl
  · exact .inr hlays

/-- Only a frame that has a number is dropped. -/
theorem attempt_dropFrame (env : Env) (s : Session) (number : Nat) :
    ((Step.dropFrame number).attempt env s).2 = s ∨
      ∃ j ∈ env.frames, ((Step.dropFrame number).attempt env s).2 = s.dropFrame j := by
  cases hj : env.frames[number]? with
  | none =>
    left
    simp only [Step.attempt, Step.run, hj]
    rfl
  | some j =>
    refine .inr ⟨j, List.mem_of_getElem? hj, ?_⟩
    simp only [Step.attempt, Step.run, hj]
    rfl

/-- A frame is gone when the step that made it ends, also where its parameter is not there. -/
theorem attempt_foreign (env : Env) (s : Session) (types : List TypeSpec) (index : Nat) :
    ((Step.foreign types index).attempt env s).2 = s ∨
      ∃ tys slots s₁, Session.Opened tys slots s s₁ s.frames.length ∧
        ((Step.foreign types index).attempt env s).2 = s₁.dropFrame s.frames.length := by
  unfold Step.attempt Step.run
  rcases run_openFrameOf types s with ⟨fault, hfail⟩ | ⟨tys, slots, hlays⟩
  · left
    simp only [ExceptT.run_bind, StateT.run_bind, hfail]
    rfl
  · right
    rcases opened_of_laysOut hlays with ⟨s₁, hopen, hopened⟩
    have hrun : (openFrameOf types).run.run s = (.ok s.frames.length, s₁) := hopen
    refine ⟨tys, slots, s₁, hopened, ?_⟩
    simp only [ExceptT.run_bind, StateT.run_bind, hrun]
    show ((liftM (((s₁.frameOf s.frames.length).params.param index).mapError Fault.trace) >>= fun p =>
      pure (.value p.toValue) : InSession Fault Answer).run.run (s₁.dropFrame s.frames.length)).2 = _
    cases (s₁.frameOf s.frames.length).params.param index <;> rfl

/-- Whatever a step does, and whether or not it fails. Only operations add to frames. -/
theorem changes_attempt {P : Session → FrameEntry → Prop} {step : Step}
    (h : ∀ o, step = .op o → ∀ x ∈ o.records env s, P s x) : s.Changes P (step.attempt env s).2 := by
  cases step with
  | op o =>
    rw [session_attempt_op]
    exact .enterAll (h o rfl)
  | query q => exact .frames rfl
  | ranges number => exact .frames (frames_attempt_ranges env s number)
  | openFrame types =>
    rcases attempt_openFrame env s types with ⟨fault, hfail⟩ | ⟨tys, slots, hlays⟩
    · rw [hfail]
      exact .frames rfl
    · rcases attempt_openFrame_ok env hlays with ⟨s', hopened, hattempt⟩
      rw [hattempt]
      exact .opened hopened
  | dropFrame number =>
    rcases attempt_dropFrame env s number with hsame | ⟨j, _, hdrop⟩
    · rw [hsame]
      exact .frames rfl
    · rw [hdrop]
      exact .dropFrame s j
  | foreign types index =>
    rcases attempt_foreign env s types index with hsame | ⟨tys, slots, s₁, hopened, hdrop⟩
    · rw [hsame]
      exact .frames rfl
    · rw [hdrop]
      exact .trans (.opened hopened) (.dropFrame s₁ _)

end

/-! ## Runs that go on -/

/-- The environment and the session after all steps, of which some may have failed. -/
def after (env : Env) (s : Session) : List Step → Env × Session
  | [] => (env, s)
  | step :: steps => after (env.push (step.attempt env s).1) (step.attempt env s).2 steps

/-- This is the run of a script that is watched. -/
theorem session_watch (env : Env) (steps : List Step) (s : Session) :
    ((watch env steps).run s).2 = (after env s steps).2 := by
  induction steps generalizing env s with
  | nil => rfl
  | cons step steps ih => exact ih _ _

theorem after_append (env : Env) (s : Session) (front back : List Step) :
    after env s (front ++ back) = after (after env s front).1 (after env s front).2 back := by
  induction front generalizing env s with
  | nil => rfl
  | cons step front ih => exact ih _ _

end Script

end GuardedC
