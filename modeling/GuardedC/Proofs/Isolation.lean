import GuardedC.Proofs.Reachable

/-!
# Frames do not interfere

Frames share one session, and values of any of them can be used at any time. Still each frame keeps
to itself: what a frame holds at the end of a run depends on its own operations only.

* Steps only add to frames, make new ones and drop them (`grows_attempt`), and record nothing but
  about arguments that the frames have made (`Sound.changes`).
* An operation on values of one frame looks at that frame only, and writes to it only
  (`attempt_within`, `records_within`). If the frame is gone, nothing is written
  (`attempt_detached`).
* So the operations of a frame can be repeated without all others, with the same outcomes and the
  same frame in the end (`replay_of_tracks`).
-/

namespace GuardedC

/-! ## The frame of a value -/

section

variable {id : FrameId}

def Expr.within (id : FrameId) (e : Expr) : Bool := e.leaves.all (·.frame == id)

/-- All arguments that a value can lead to belong to the frame. -/
def Value.within (id : FrameId) : Value → Bool
  | nothing | cond (.known _) => true
  | int e | cond (.symbolic e) => e.within id
  | bytes b => [b.base, b.arrayLength, b.start, b.length, b.view].all (·.within id)

/-- The same as a property that operations keep. -/
abbrev Value.OfFrame (id : FrameId) : Value → Prop :=
  Value.All (Expr.Over (·.frame = id)) (Bytes.Over (·.frame = id))

theorem Expr.within_iff {e : Expr} : e.within id = true ↔ e.Over (·.frame = id) := by
  simp [Expr.within, Expr.Over]

theorem Value.within_iff {v : Value} : v.within id = true ↔ v.OfFrame id := by
  cases v with
  | nothing => exact iff_of_true rfl trivial
  | int e => exact Expr.within_iff
  | cond c =>
    cases c with
    | known b => exact iff_of_true rfl trivial
    | symbolic e => exact Expr.within_iff
  | bytes b =>
    simp only [Value.within, List.all_cons, List.all_nil, Bool.and_true, Bool.and_eq_true,
      Expr.within_iff]
    constructor
    · rintro ⟨hbase, harrayLength, hstart, hlength, hview⟩
      exact ⟨hbase, harrayLength, hstart, hlength, hview⟩
    · intro h
      exact ⟨h.base, h.arrayLength, h.start, h.length, h.view⟩

end

/-! ## The parameters of a frame -/

namespace Session

variable {s : Session} {id : FrameId}

/-- The parameters of the frame are values of the frame, if it is alive. -/
def OwnParams (s : Session) (id : FrameId) : Prop :=
  ∀ f, s.frame? id = some f → ∀ p ∈ f.params, p.toValue.OfFrame id

theorem ownParams_of_gone (h : s.frame? id = none) : s.OwnParams id := by
  intro f hf
  rw [h] at hf
  cases hf

theorem Laid.ownParams (hs : s.Laid) (id : FrameId) : s.OwnParams id := by
  intro f hf p hp
  rcases hs id f hf with ⟨tys, slots, es, hlayout, rfl⟩
  rw [Frame.params_enterAll] at hp
  exact (hlayout.params_in p hp).over hlayout.signature.frame

end Session

namespace Script

/-! ## Operations on one frame -/

/-- The operation looks at values of the frame only; known integers and conditions belong to every
frame. -/
def Op.within (env : Env) (id : FrameId) (o : Op) : Bool :=
  ((o.registers env).all fun n => env.registers[n]?.join.all (·.within id)) &&
    match o.source? with
    | none => true
    | some .given => (env.given.getD []).all (·.toValue.within id)
    | some (.frame number) => env.frames[number]?.all (· == id)

section

variable {env : Env} {s s' : Session} {o : Op} {id : FrameId}

theorem allAt_of_within (h : o.within env id = true) : env.AllAt (Value.OfFrame id) (o.registers env) := by
  intro n hn v hv
  simp only [Op.within, Bool.and_eq_true, List.all_eq_true] at h
  have hregister := h.1 n hn
  rw [Env.value_eq_ok.1 hv] at hregister
  exact Value.within_iff.1 hregister

/-- The parameters it looks at are given, or those of the frame. -/
theorem source_of_within (h : o.within env id = true) {source : Source}
    (hsource : o.source? = some source) :
    (source = .given ∧ ∀ ps, env.given = some ps → ∀ p ∈ ps, p.toValue.OfFrame id) ∨
      ∃ number, source = .frame number ∧ ∀ j, env.frames[number]? = some j → j = id := by
  simp only [Op.within, Bool.and_eq_true, hsource] at h
  cases source with
  | given =>
    refine .inl ⟨rfl, ?_⟩
    intro ps hps p hp
    have hgiven := h.2
    simp only [hps, Option.getD_some, List.all_eq_true] at hgiven
    exact Value.within_iff.1 (hgiven p hp)
  | frame number =>
    refine .inr ⟨number, rfl, ?_⟩
    intro j hj
    have hframe := h.2
    simp only [hj, Option.all_some, beq_iff_eq] at hframe
    exact hframe

theorem sees_of_within (h : o.within env id = true) (hparams : s.OwnParams id) :
    o.Sees (Value.OfFrame id) env s := by
  refine ⟨allAt_of_within h, ?_⟩
  intro source hsource ps hps
  rcases source_of_within h hsource with ⟨rfl, hgiven⟩ | ⟨number, rfl, hnumber⟩
  · rcases Env.of_params_ok hps with ⟨_, hps⟩ | ⟨_, _, _, hother, _⟩
    · exact hgiven ps hps
    · cases hother
  · rcases Env.of_params_ok hps with ⟨hother, _⟩ | ⟨_, j, f, ⟨⟩, hj, hf, rfl⟩
    · cases hother
    · cases hnumber j hj
      exact hparams f hf

theorem eval_of_within (h : o.within env id = true) (hframe : s.frame? id = s'.frame? id) :
    o.eval env s = o.eval env s' := by
  refine Op.eval_congr ?_
  intro source hsource
  rcases source_of_within h hsource with ⟨rfl, _⟩ | ⟨number, rfl, hnumber⟩
  · rfl
  · have hbind : env.frames[number]?.bind s.frame? = env.frames[number]?.bind s'.frame? := by
      cases hj : env.frames[number]? with
      | none => rfl
      | some j =>
        cases hnumber j hj
        exact hframe
    simp only [Env.params, Env.frame, hbind]

/-- What is to be recorded goes to the frame. -/
theorem frame_of_record (h : o.within env id = true) (hparams : s.OwnParams id) {result : Provided Answer}
    (heval : o.eval env s = .ok result) {x : FrameEntry}
    (hx : .record x ∈ result.conditions.flatMap Cond.demands) : x.argument.frame = id := by
  have hkeeps := Op.keeps_seen closed_over (.inr closedRaw_over) (sees_of_within h hparams) heval
  exact recorded_over.of_conditions (hkeeps fun _ _ => trivial).1 hx

/-- An operation on values of one frame writes to no other, and to this one only while it is
alive. -/
theorem records_within (h : o.within env id = true) (hparams : s.OwnParams id) {x : FrameEntry}
    (hx : x ∈ o.records env s) : x.argument.frame = id ∧ s.alive id = true := by
  rcases of_mem_records hx with ⟨halive, result, heval, hdemand⟩
  have hframe := frame_of_record h hparams heval hdemand
  exact ⟨hframe, hframe ▸ halive⟩

theorem frame?_attempt_of_ne (h : o.within env id = true) (hparams : s.OwnParams id) {j : FrameId}
    (hj : j ≠ id) :
    ((Step.op o).attempt env s).2.frame? j = s.frame? j := by
  have hnone : (o.records env s).filter (fun x => x.argument.frame = j) = [] := by
    rw [List.filter_eq_nil_iff]
    intro x hx
    rw [(records_within h hparams hx).1, decide_eq_true_eq]
    exact fun heq => hj heq.symm
  rw [session_attempt_op, Session.frame?_enterAll, hnone]
  exact Option.map_id'

/-- In two sessions that agree on the frame, an operation on its values does the same. -/
theorem attempt_within (h : o.within env id = true) (hparams : s.OwnParams id)
    (hframe : s.frame? id = s'.frame? id) :
    ((Step.op o).attempt env s).1 = ((Step.op o).attempt env s').1 ∧
      ((Step.op o).attempt env s).2.frame? id = ((Step.op o).attempt env s').2.frame? id := by
  have heq := eval_of_within h hframe
  cases heval : o.eval env s with
  | error fault =>
    rw [attempt_op_error heval, attempt_op_error (heq ▸ heval)]
    exact ⟨rfl, hframe⟩
  | ok result =>
    have hmet : GuardedC.attempt s.alive (result.conditions.flatMap Cond.demands) =
        GuardedC.attempt s'.alive (result.conditions.flatMap Cond.demands) := by
      refine attempt_congr ?_
      intro x hx
      rw [frame_of_record h hparams heval hx, Session.alive, Session.alive, hframe]
    rcases hattempt : GuardedC.attempt s.alive (result.conditions.flatMap Cond.demands) with ⟨es, met⟩
    rw [attempt_op_ok heval hattempt, attempt_op_ok (heq ▸ heval) (hmet ▸ hattempt)]
    refine ⟨rfl, ?_⟩
    rw [Session.frame?_enterAll, Session.frame?_enterAll, hframe]

/-- What comes of demands none of which can be recorded. -/
def refused : List Demand → Except TraceError Unit
  | [] => .ok ()
  | .refuse e :: _ => .error e
  | .record x :: _ => .error (.detached x.argument.name)

/-- An operation on values of a frame that is gone changes nothing, and fails at the first
comparison that it would record. -/
theorem attempt_detached (h : o.within env id = true) (hgone : s.frame? id = none) :
    ((Step.op o).attempt env s).2 = s ∧
      ∀ result, o.eval env s = .ok result →
        ((Step.op o).attempt env s).1 =
          ((refused (result.conditions.flatMap Cond.demands)).mapError Fault.trace).map
            fun _ => result.value := by
  have hparams : s.OwnParams id := Session.ownParams_of_gone hgone
  refine ⟨?_, ?_⟩
  · have hnone : o.records env s = [] := by
      rw [List.eq_nil_iff_forall_not_mem]
      intro x hx
      have halive := (records_within h hparams hx).2
      rw [Session.alive, hgone] at halive
      cases halive
    rw [session_attempt_op, hnone]
    rfl
  · intro result heval
    have hmet : (GuardedC.attempt s.alive (result.conditions.flatMap Cond.demands)).2 =
        refused (result.conditions.flatMap Cond.demands) := by
      have hframe := fun x => frame_of_record (x := x) h hparams heval
      cases hdemands : result.conditions.flatMap Cond.demands with
      | nil => rfl
      | cons d ds =>
        cases d with
        | refuse e => rfl
        | record x =>
          have hdead : ¬ s.alive x.argument.frame = true := by
            rw [hframe x (hdemands ▸ .head _), Session.alive, hgone]
            exact Bool.false_ne_true
          rw [GuardedC.attempt, if_neg hdead]
          rfl
    rw [attempt_op_ok heval rfl, hmet]

end

/-! ## Runs of one frame -/

/-- A step of a run, with the values it could refer to and what came of it. -/
structure Event where
  env : Env
  step : Step
  outcome : Except Fault Answer

/-- All that happens in a run. -/
def events (env : Env) (s : Session) : List Step → List Event
  | [] => []
  | step :: steps =>
    ⟨env, step, (step.attempt env s).1⟩ :: events (env.push (step.attempt env s).1)
      (step.attempt env s).2 steps

namespace Event

/-- The frame was made. -/
def opens (id : FrameId) : Event → Bool
  | ⟨_, .openFrame _, .ok (.frame _ new)⟩ => new == id
  | _ => false

/-- An operation was carried out on values of the frame. -/
def uses (id : FrameId) : Event → Bool
  | ⟨env, .op o, _⟩ => o.within env id
  | _ => false

def concerns (id : FrameId) (e : Event) : Bool := e.opens id || e.uses id

/-- An operation does not mix values of several frames. -/
def OneFrame (e : Event) : Prop := ∀ o, e.step = .op o → ∃ id, o.within e.env id = true

/-- An operation uses values of one of these frames only. -/
def keepsTo (ids : List FrameId) : Event → Bool
  | ⟨env, .op o, _⟩ => ids.any fun id => o.within env id
  | _ => true

theorem oneFrame_of_keepsTo {ids : List FrameId} {e : Event} (h : e.keepsTo ids = true) : e.OneFrame := by
  rcases e with ⟨env, step, outcome⟩
  rintro o rfl
  rcases List.any_eq_true.1 h with ⟨id, _, hwithin⟩
  exact ⟨id, hwithin⟩

end Event

/-- Carries out the steps of some events again, each on the values that it had. -/
def replay (s : Session) : List Event → List (Except Fault Answer) × Session
  | [] => ([], s)
  | e :: es =>
    let rest := replay (e.step.attempt e.env s).2 es
    ((e.step.attempt e.env s).1 :: rest.1, rest.2)

/-- A session in which some frames came and went. -/
def vacant (n : Nat) : Session := ⟨List.replicate n none, []⟩

/-- In `v`, where only the frame `j` is looked after, it is as in `s`. If it is still to be made, it
will get its number. -/
structure Tracks (j : FrameId) (s v : Session) : Prop where
  same : s.frame? j = v.frame? j
  fresh : s.frames.length ≤ j → v.frames.length = j

section

variable {env : Env} {s v : Session} {j : FrameId} {step : Step} {steps : List Step}

/-- A step that concerns the frame does the same to it in both sessions. -/
theorem Tracks.attempt (h : Tracks j s v) (hs : s.Laid)
    (hstep : (Event.mk env step (step.attempt env s).1).concerns j = true) :
    (step.attempt env s).1 = (step.attempt env v).1 ∧
      Tracks j (step.attempt env s).2 (step.attempt env v).2 := by
  cases step with
  | op o =>
    have hwithin : o.within env j = true := by
      simpa [Event.concerns, Event.opens, Event.uses] using hstep
    rcases attempt_within hwithin (hs.ownParams j) h.same with ⟨houtcome, hframe⟩
    refine ⟨houtcome, hframe, ?_⟩
    rw [session_attempt_op, session_attempt_op, Session.length_frames_enterAll,
      Session.length_frames_enterAll]
    exact h.fresh
  | openFrame types =>
    rcases attempt_openFrame env s types with ⟨fault, hfail⟩ | ⟨tys, slots, hlays⟩
    · rw [hfail] at hstep
      cases hstep
    · rcases attempt_openFrame_ok env hlays with ⟨s', hopened, hattempt⟩
      rw [hattempt] at hstep ⊢
      have hnew : s.frames.length = j := by
        simpa [Event.concerns, Event.opens, Event.uses] using hstep
      -- the same number is free in `v`, so the same frame is made there
      have hlength : v.frames.length = s.frames.length := (h.fresh (Nat.le_of_eq hnew)).trans hnew.symm
      rcases attempt_openFrame_ok env (hlength ▸ hlays) with ⟨v', hopened', hattempt'⟩
      rw [hattempt', hlength]
      subst hnew
      refine ⟨rfl, ?_, ?_⟩
      · rw [hopened.frame, ← hlength, hopened'.frame]
      · intro hle
        rw [hopened.length] at hle
        exact absurd hle (Nat.not_succ_le_self _)
  | _ => cases hstep

/-- A step that does not concern the frame leaves it as it is, unless it drops it for good. -/
theorem Tracks.skip (h : Tracks j s v) (hs : s.Laid)
    (hone : (Event.mk env step (step.attempt env s).1).OneFrame)
    (hstep : (Event.mk env step (step.attempt env s).1).concerns j = false)
    (hstays : j < (step.attempt env s).2.frames.length → ((step.attempt env s).2.frame? j).isSome) :
    Tracks j (step.attempt env s).2 v := by
  cases step with
  | op o =>
    rcases hone o rfl with ⟨id, hwithin⟩
    have hne : j ≠ id := by
      rintro rfl
      simp [Event.concerns, Event.uses, hwithin] at hstep
    refine ⟨?_, ?_⟩
    · rw [frame?_attempt_of_ne hwithin (hs.ownParams id) hne]
      exact h.same
    · rw [session_attempt_op, Session.length_frames_enterAll]
      exact h.fresh
  | query q => exact h
  | ranges number =>
    have hframes := frames_attempt_ranges env s number
    refine ⟨(Session.frame?_congr hframes j).trans h.same, ?_⟩
    rw [hframes]
    exact h.fresh
  | openFrame types =>
    rcases attempt_openFrame env s types with ⟨fault, hfail⟩ | ⟨tys, slots, hlays⟩
    · rw [hfail]
      exact h
    · rcases attempt_openFrame_ok env hlays with ⟨s', hopened, hattempt⟩
      rw [hattempt] at hstep ⊢
      have hne : j ≠ s.frames.length := by
        rintro rfl
        simp [Event.concerns, Event.opens] at hstep
      refine ⟨(hopened.others j hne).trans h.same, ?_⟩
      intro hle
      rw [hopened.length] at hle
      exact h.fresh (Nat.le_of_succ_le hle)
  | dropFrame number =>
    rcases attempt_dropFrame env s number with hsame | ⟨k, _, hdrop⟩
    · rw [hsame]
      exact h
    · rw [hdrop] at hstays ⊢
      have hlength : (s.dropFrame k).frames.length = s.frames.length := by simp [Session.dropFrame]
      refine ⟨?_, by rw [hlength]; exact h.fresh⟩
      have hframe := s.frame?_dropFrame k j
      by_cases hk : k = j
      · -- the frame would be gone for good, so it was not there
        rw [if_pos hk] at hframe
        rw [hframe, hlength] at hstays
        rw [hframe, ← h.same]
        cases hf : s.frame? j with
        | none => rfl
        | some f => cases hstays (Session.lt_length_of_frame? hf)
      · rw [hframe, if_neg hk]
        exact h.same
  | foreign types index =>
    rcases attempt_foreign env s types index with hsame | ⟨tys, slots, s₁, hopened, hdrop⟩
    · rw [hsame]
      exact h
    · rw [hdrop] at hstays ⊢
      have hlength : (s₁.dropFrame s.frames.length).frames.length = s.frames.length + 1 := by
        simp [Session.dropFrame, hopened.length]
      have hframe := s₁.frame?_dropFrame s.frames.length j
      have hne : j ≠ s.frames.length := by
        intro heq
        rw [if_pos heq.symm] at hframe
        rw [hframe, hlength, heq] at hstays
        cases hstays (Nat.lt_succ_self _)
      refine ⟨?_, ?_⟩
      · rw [hframe, if_neg (Ne.symm hne), hopened.others j hne]
        exact h.same
      · intro hle
        rw [hlength] at hle
        exact h.fresh (Nat.le_of_succ_le hle)

/-- A frame that is alive in the end is the one that its own steps make and fill. -/
theorem replay_of_tracks (h : Tracks j s v) (hs : Sound env s) (hone : ∀ e ∈ events env s steps, e.OneFrame)
    {f : Frame} (hf : (after env s steps).2.frame? j = some f) :
    let own := (events env s steps).filter (·.concerns j)
    (replay v own).1 = own.map Event.outcome ∧ (replay v own).2.frame? j = some f := by
  induction steps generalizing env s v with
  | nil => exact ⟨rfl, h.same.symm.trans hf⟩
  | cons step steps ih =>
    rcases List.forall_mem_cons.1 hone with ⟨hfirst, hrest⟩
    simp only [events]
    cases hstep : (Event.mk env step (step.attempt env s).1).concerns j with
    | true =>
      rcases h.attempt hs.laid hstep with ⟨houtcome, htracks⟩
      rcases ih htracks (hs.attempt step) hrest hf with ⟨houtcomes, hframe⟩
      rw [List.filter_cons_of_pos hstep]
      exact ⟨congrArg₂ List.cons houtcome.symm houtcomes, hframe⟩
    | false =>
      have hstays : j < (step.attempt env s).2.frames.length →
          ((step.attempt env s).2.frame? j).isSome := by
        intro hj
        have hgrows := grows_after (env.push (step.attempt env s).1) (step.attempt env s).2 steps
        rcases hgrows.frame j hj f hf with ⟨g, _, hg, _⟩
        rw [hg]
        rfl
      have hskip := ih (h.skip hs.laid hfirst hstep hstays) (hs.attempt step) hrest hf
      rw [List.filter_cons_of_neg (by simp [hstep])]
      exact hskip

end

/-! ## Isolation -/

/-- The session at the end of a script that makes its own frames and is run to its end. -/
def watched (steps : List Step) : Session := ((watch {} steps).run Session.empty).2

/-- The making of a frame and the operations on its values, in the order of the script. -/
def ownEvents (steps : List Step) (j : FrameId) : List Event :=
  (events {} Session.empty steps).filter (·.concerns j)

/-- What frames can rely on, whatever else a script does. -/
structure Isolated (steps : List Step) : Prop where
  /-- As long as a frame is alive, it is only added to. -/
  appended : ∀ front back, steps = front ++ back →
    ∀ j f f', (watched front).frame? j = some f → (watched steps).frame? j = some f' → f.Extends f'
  /-- A frame keeps one list of facts for each of its arguments. -/
  table : ∀ j f, (watched steps).frame? j = some f → f.facts.length = f.arguments.length
  /-- If no operation mixes values of several frames, each frame is what its own steps make of
  it. -/
  alone : (∀ e ∈ events {} Session.empty steps, e.OneFrame) →
    ∀ j f, (watched steps).frame? j = some f →
      (replay (vacant j) (ownEvents steps j)).1 = (ownEvents steps j).map Event.outcome ∧
        (replay (vacant j) (ownEvents steps j)).2.frame? j = some f
  /-- A next operation on values of a frame that is gone changes nothing, and fails at the first
  comparison that it would record. -/
  detached : ∀ o j, o.within (after {} Session.empty steps).1 j = true → (watched steps).frame? j = none →
    let next := (Step.op o).attempt (after {} Session.empty steps).1 (watched steps)
    next.2 = watched steps ∧
      ∀ result, o.eval (after {} Session.empty steps).1 (watched steps) = .ok result →
        next.1 =
          ((refused (result.conditions.flatMap Cond.demands)).mapError Fault.trace).map fun _ =>
            result.value

theorem watched_eq (steps : List Step) : watched steps = (after {} Session.empty steps).2 :=
  session_watch {} steps Session.empty

/-- The states of such a script are states of scripts. -/
theorem reached_watched (steps : List Step) : Reached (after {} Session.empty steps).1 (watched steps) := by
  rw [watched_eq]
  exact Reached.empty.after steps

theorem grows_watched (front back : List Step) : (watched front).Grows (watched (front ++ back)) := by
  rw [watched_eq (front ++ back), after_append, ← watched_eq front]
  exact grows_after _ _ back

/-- However frames are made, used and dropped in turn, none of them meets the others. -/
theorem frames_isolated (steps : List Step) : Isolated steps where
  appended := by
    rintro front back rfl j f f' hf hf'
    rcases (grows_watched front back).frame j (Session.lt_length_of_frame? hf) f' hf' with ⟨g, es, hg, rfl⟩
    rw [hf] at hg
    cases hg
    exact f.extends_enterAll es
  table j f hf := (reached_watched steps).sound.tabled j f hf
  alone := by
    intro hone j f hf
    -- no frame has been made yet, neither here nor where the frame is alone
    have htracks : Tracks j Session.empty (vacant j) := by
      refine ⟨?_, ?_⟩
      · show none = (List.replicate j none)[j]?.join
        rw [List.getElem?_eq_none (by simp)]
        rfl
      · intro _
        exact List.length_replicate
    rw [watched_eq] at hf
    exact replay_of_tracks htracks Reached.empty.sound hone hf
  detached o j h hgone := attempt_detached h hgone

/-- Two frames are used in turn, a conjunction fails half way, and one frame is dropped. -/
def interleaved : List Step :=
  [.openFrame [.integer 8 false], .openFrame [.integer 16 true, .byteArray 32 false],
    .op (.int 0 (.frame 0)), .op (.int 0 (.frame 1)), .op (.compare .lt (.register 2) (.lit 10)),
    .op (.compare .ge (.register 3) (.lit 3)), .op (.assert (.register 5)), .op (.assert (.register 4)),
    .op (.bytes 1 (.frame 1)), .op (.read .byte 8 (.register 3)),
    .op (.compare .lt (.register 9) (.register 9)), .op (.connect .and (.register 5) (.register 10)),
    .op (.assert (.register 11)), .dropFrame 0, .op (.read .byte 8 (.lit 4)), .op (.assert (.register 4))]

theorem frames_isolated_interleaved :
    (∀ e ∈ events {} Session.empty interleaved, e.OneFrame) ∧ (watched interleaved).frame? 0 = none ∧
      (ownEvents interleaved 1).length = 10 ∧
      (∃ f, (watched interleaved).frame? 1 = some f ∧ f.facts.map List.length = [4, 0, 2] ∧
        (replay (vacant 1) (ownEvents interleaved 1)).1 = (ownEvents interleaved 1).map Event.outcome ∧
          (replay (vacant 1) (ownEvents interleaved 1)).2.frame? 1 = some f) ∧
      (Step.op (.assert (.register 4))).attempt (after {} Session.empty interleaved).1
          (watched interleaved) =
        (.error (.trace (.detached "arg_0")), watched interleaved) := by
  have hisolated := frames_isolated interleaved
  have hkeeps : (events {} Session.empty interleaved).all (·.keepsTo [0, 1]) = true := by decide +kernel
  have hone : ∀ e ∈ events {} Session.empty interleaved, e.OneFrame := by
    intro e he
    exact Event.oneFrame_of_keepsTo (List.all_eq_true.1 hkeeps e he)
  have hgone : (watched interleaved).frame? 0 = none := by decide +kernel
  have hkept : ((watched interleaved).frame? 1).map (·.facts.map List.length) = some [4, 0, 2] := by
    decide +kernel
  rcases Option.map_eq_some_iff.1 hkept with ⟨f, hf, hfacts⟩
  have hbelow : (Op.assert (.register 4)).eval (after {} Session.empty interleaved).1
        (watched interleaved) =
      .ok ⟨[.symbolic
        (.binary (.compare .lt) (.argument ⟨0, "arg_0", .integer ⟨.w8, false⟩, 0⟩) (.lit 10))],
        .value .nothing⟩ := by
    decide +kernel
  rcases hisolated.detached (.assert (.register 4)) 0 (by decide +kernel) hgone with ⟨hsession, houtcome⟩
  exact ⟨hone, hgone, by decide +kernel, ⟨f, hf, hfacts, hisolated.alone hone 1 f hf⟩,
    Prod.ext (houtcome _ hbelow) hsession⟩

end Script

end GuardedC
