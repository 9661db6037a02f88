import GuardedC.Proofs.CompileOutcome
import GuardedC.Proofs.EmittedText

/-!
# Order and repetition of assertions

Facts are folded in one after the other, and two orders of the same facts go through different sets
on the way; one of them may stop early where the other goes on. What comes out is the same, since a
fold that ends well ends in the set of all values that satisfy the facts (`foldlM_refine_eq_ok`),
and a set is determined by its members.

For scripts, `plan` tells which conditions the steps ask for, whether or not these can be asserted.
A run comes to its end exactly if all of them can be asserted, and what it leaves in its frame is
told by these conditions (`returns_run_of_plan`). So `assertion_order_irrelevant` holds for ranges
and for texts.
-/

namespace GuardedC

/-! ## Ranges -/

section

variable {start range : IntSet} {facts facts' : List Fact} {argument : String}

/-- A chain of refinements ends in the set that the facts leave, and in no other. -/
theorem foldlM_refine_eq_ok (hstart : ∀ v ∈ start, v < Wide.highest) (hne : ∃ v, v ∈ start) :
    facts.foldlM (refine argument) start = .ok range ↔ Refines facts start range := by
  constructor
  · intro h
    exact refines_of_foldlM hstart h
  · intro h
    rcases h.nonempty hne with ⟨v, hv⟩
    have hends := (exists_foldlM_refine_iff argument hstart hne).2 ⟨h.literal, v, (h.mem v).1 hv⟩
    rcases hends with ⟨rest, hrest⟩
    -- both sets hold what satisfies all facts, and sets with the same members are equal
    have hsame : rest = range := by
      apply IntSet.ext
      intro w
      rw [(refines_of_foldlM hstart hrest).mem, h.mem]
    rw [hrest, hsame]

/-- What facts leave depends on which facts there are. -/
theorem refines_congr (hsame : ∀ fact, fact ∈ facts ↔ fact ∈ facts') :
    Refines facts start range ↔ Refines facts' start range := by
  constructor
  · intro h
    exact ⟨fun fact hfact => h.literal fact ((hsame fact).2 hfact),
      by simpa only [hsame] using h.mem, h.nonempty⟩
  · intro h
    exact ⟨fun fact hfact => h.literal fact ((hsame fact).1 hfact),
      by simpa only [hsame] using h.mem, h.nonempty⟩

end

namespace Frame

/-- Frames of the same arguments, each of which carries the same facts in both of them. Their order
may differ, and how often each of them is there. -/
structure SameFacts (f g : Frame) : Prop where
  arguments : f.arguments = g.arguments
  facts : ∀ a ∈ f.arguments, ∀ fact, fact ∈ f.factsAt a.index ↔ fact ∈ g.factsAt a.index

variable {f g : Frame}

theorem range?_congr {a : Argument} {row : Option ArgumentRange}
    (hsame : ∀ fact, fact ∈ f.factsAt a.index ↔ fact ∈ g.factsAt a.index) :
    f.range? a = .ok row ↔ g.range? a = .ok row := by
  by_cases hinteger : ∃ type, a.ty = .integer type
  · -- both folds end in the set that the facts leave, or none of them ends
    rcases hinteger with ⟨type, htype⟩
    have hfold : ∀ range, (f.factsAt a.index).foldlM (refine a.name) type.values = .ok range ↔
        (g.factsAt a.index).foldlM (refine a.name) type.values = .ok range := by
      intro range
      have hstart : ∀ v ∈ type.values, v < Wide.highest := fun _ => IntegerType.lt_highest
      rw [foldlM_refine_eq_ok hstart type.exists_value, foldlM_refine_eq_ok hstart type.exists_value]
      exact refines_congr hsame
    rw [range?_of_integer htype, range?_of_integer htype, except_bind_ok, except_bind_ok]
    simp only [hfold]
  · -- facts about other arguments are not looked at
    have hty : ∀ type, a.ty ≠ .integer type := fun type htype => hinteger ⟨type, htype⟩
    rw [range?_of_not_integer hty, range?_of_not_integer hty]

theorem rangesOf_congr {args : List Argument} {rows : List ArgumentRange}
    (hsame : ∀ a ∈ args, ∀ fact, fact ∈ f.factsAt a.index ↔ fact ∈ g.factsAt a.index) :
    f.rangesOf args = .ok rows ↔ g.rangesOf args = .ok rows := by
  induction args generalizing rows with
  | nil => rfl
  | cons a args ih =>
    have hrest : ∀ rest, f.rangesOf args = .ok rest ↔ g.rangesOf args = .ok rest := by
      intro rest
      exact ih fun b hb => hsame b (.tail _ hb)
    simp only [rangesOf, except_bind_ok, range?_congr (hsame a (.head _)), hrest]

theorem SameFacts.ranges (h : f.SameFacts g) (rows : List ArgumentRange) :
    f.ranges = .ok rows ↔ g.ranges = .ok rows := by
  unfold Frame.ranges
  rw [← h.arguments]
  exact rangesOf_congr h.facts

theorem SameFacts.writtenAs (h : f.SameFacts g) (hcomplex : f.complex = [] ↔ g.complex = [])
    {options : Options} {name : String} {returns : Ty} {value : Value} {unit : CFunction} :
    f.WrittenAs options name returns value unit ↔ g.WrittenAs options name returns value unit := by
  unfold WrittenAs
  simp only [h.ranges, hcomplex, h.arguments]

/-! ## Entries -/

/-- Entries that are the same but for their order and repetition leave the same facts. -/
theorem sameFacts_enterAll (f : Frame) {es es' : List FrameEntry} (hsame : ∀ x, x ∈ es ↔ x ∈ es') :
    (f.enterAll es).SameFacts (f.enterAll es') := by
  constructor
  · rw [arguments_enterAll, arguments_enterAll]
  · intro a _ fact
    simp only [factsAt_enterAll, List.mem_append, List.mem_filterMap, hsame]

theorem complex_enterAll_congr (f : Frame) {es es' : List FrameEntry} (hsame : ∀ x, x ∈ es ↔ x ∈ es') :
    (f.enterAll es).complex = [] ↔ (f.enterAll es').complex = [] := by
  simp only [complex_enterAll, List.append_eq_nil_iff, List.filterMap_eq_nil_iff, hsame]

end Frame

section

variable {cs cs' : List Cond} {es : List FrameEntry}

/-- Conditions have entries if each of them has. -/
theorem exists_entriesOf? (h : ∀ c ∈ cs, ∃ xs, c.entries? = some xs) : ∃ es, entriesOf? cs = some es := by
  induction cs with
  | nil => exact ⟨[], rfl⟩
  | cons c cs ih =>
    rcases h c (.head _) with ⟨xs, hxs⟩
    rcases ih fun d hd => h d (.tail _ hd) with ⟨ys, hys⟩
    exact ⟨xs ++ ys, entriesOf?_cons.2 ⟨xs, hxs, ys, hys, rfl⟩⟩

theorem mem_iff_of_entriesOf? (h : entriesOf? cs = some es) {x : FrameEntry} :
    x ∈ es ↔ ∃ c ∈ cs, ∃ xs, c.entries? = some xs ∧ x ∈ xs := by
  constructor
  · intro hx
    exact exists_of_mem_entriesOf? h hx
  · rintro ⟨c, hc, xs, hxs, hx⟩
    rcases mem_entriesOf? h hc with ⟨ys, hys, hsub⟩
    cases hxs.symm.trans hys
    exact hsub hx

/-- Conditions that are the same but for their order and repetition leave the same entries. -/
theorem entriesOf?_congr (hsame : ∀ c, c ∈ cs ↔ c ∈ cs') (h : entriesOf? cs = some es) :
    ∃ es', entriesOf? cs' = some es' ∧ ∀ x, x ∈ es ↔ x ∈ es' := by
  have hall : ∀ c ∈ cs', ∃ xs, c.entries? = some xs := by
    intro c hc
    rcases mem_entriesOf? h ((hsame c).2 hc) with ⟨xs, hxs, _⟩
    exact ⟨xs, hxs⟩
  rcases exists_entriesOf? hall with ⟨es', hes'⟩
  refine ⟨es', hes', ?_⟩
  intro x
  rw [mem_iff_of_entriesOf? h, mem_iff_of_entriesOf? hes']
  simp only [hsame]

end

/-! ## Scripts -/

namespace Script

section

variable {env env' env'' : Env} {s s' : Session} {steps : List Step} {cs : List Cond}

/-- Recording does not touch parameters. -/
theorem Env.params_enterAll (env : Env) (s : Session) (es : List FrameEntry) (source : Source) :
    env.params (s.enterAll es) source = env.params s source := by
  cases source with
  | given => rfl
  | frame number =>
    cases hid : env.frames[number]? with
    | none => simp only [Env.params, Env.frame, hid, Option.bind_none]
    | some id =>
      simp only [Env.params, Env.frame, hid, Option.bind_some, Session.frame?_enterAll]
      cases s.frame? id with
      | none => rfl
      | some f => exact congrArg Except.ok (f.params_enterAll _)

theorem Op.eval_enterAll (env : Env) (s : Session) (es : List FrameEntry) (o : Op) :
    o.eval env (s.enterAll es) = o.eval env s :=
  Op.eval_congr fun source _ => env.params_enterAll s es source

/-- What operations make of the registers, and the conditions that they ask for in turn, whether or
not these can be asserted. There is no plan where an operation yields nothing, nor for other
steps. -/
def plan (s : Session) (env : Env) : List Step → Option (Env × List Cond)
  | [] => some (env, [])
  | .op o :: steps =>
    match o.eval env s with
    | .ok result =>
      (plan s (env.push (.ok result.value)) steps).map fun (env', cs) => (env', result.conditions ++ cs)
    | .error _ => none
  | _ :: _ => none

theorem plan_cons {step : Step} :
    plan s env (step :: steps) = some (env', cs) ↔
      ∃ o result ds, step = .op o ∧ o.eval env s = .ok result ∧
        plan s (env.push (.ok result.value)) steps = some (env', ds) ∧ cs = result.conditions ++ ds := by
  constructor
  · intro h
    cases step with
    | op o =>
      rw [plan] at h
      cases hresult : o.eval env s with
      | ok result =>
        simp only [hresult, Option.map_eq_some_iff, Prod.mk.injEq] at h
        rcases h with ⟨⟨_, ds⟩, hrest, rfl, rfl⟩
        exact ⟨o, result, ds, rfl, hresult, hrest, rfl⟩
      | error fault =>
        simp only [hresult] at h
        cases h
    | _ => cases h
  · rintro ⟨o, result, ds, rfl, hresult, hrest, rfl⟩
    simp only [plan, hresult, hrest, Option.map_some]

/-- Operations come to their end exactly if all conditions that they ask for can be asserted. -/
theorem returns_run_of_plan (h : plan s env steps = some (env', cs)) (es : List FrameEntry) :
    Returns (run env steps) (s.enterAll es) env'' s' ↔
      env'' = env' ∧ ∃ fs, entriesOf? cs = some fs ∧ s.Holding fs ∧ s' = s.enterAll (es ++ fs) := by
  -- `es` is what the steps before these have recorded
  induction steps generalizing env cs es with
  | nil =>
    cases h
    simp [entriesOf?, Session.Holding]
  | cons step steps ih =>
    rcases plan_cons.1 h with ⟨o, result, ds, rfl, hresult, hrest, rfl⟩
    rw [returns_run_cons]
    simp only [returns_op, Op.eval_enterAll, hresult]
    constructor
    · -- what an operation records changes nothing for those after it
      rintro ⟨_, _, ⟨_, ⟨⟩, rfl, xs, hxs, hlive, rfl⟩, hrun⟩
      rw [← Session.enterAll_append, ih hrest] at hrun
      rcases hrun with ⟨rfl, ys, hys, hlater, rfl⟩
      rw [Session.holding_enterAll] at hlive
      refine ⟨rfl, xs ++ ys, entriesOf?_append hxs hys, ?_, by rw [List.append_assoc]⟩
      rw [Session.holding_append, Session.holding_enterAll]
      exact ⟨hlive, hlater⟩
    · rintro ⟨rfl, fs, hfs, hlive, rfl⟩
      rcases entriesOf?_append_eq_some.1 hfs with ⟨xs, hxs, ys, hys, rfl⟩
      rw [Session.holding_append, Session.holding_enterAll] at hlive
      refine ⟨result.value, s.enterAll (es ++ xs), ⟨result, rfl, rfl, xs, hxs, ?_, ?_⟩, ?_⟩
      · exact (Session.holding_enterAll s es xs).2 hlive.1
      · rw [Session.enterAll_append]
      · rw [ih hrest]
        exact ⟨rfl, ys, hys, hlive.2, by rw [List.append_assoc]⟩

end

section

variable {options : Options} {name : String} {params : List Ty} {returns : Ty} {steps steps' : List Step}
  {result result' : Option Nat} {s start : Session} {id : FrameId} {env env₁ env₂ : Env}
  {cs cs' : List Cond} {unit : CFunction}

/-- A script is compiled to what its frame is written as. -/
theorem Begins.exists_returns_compile (hbegins : Begins name params s id env start) :
    (∃ s', Returns (compile options name params returns steps result) s unit s') ↔
      ∃ env' s' value, Returns (run env steps) start env' s' ∧ env'.result result = .ok value ∧
        (s'.frameOf id).WrittenAs options name returns value unit := by
  rcases hbegins with ⟨hopen, rfl⟩
  simp only [compile, compileWith, returns_bind, returns_mapError, returns_get, returns_say, returns_eval]
  constructor
  · rintro ⟨_, _, _, rfl, id', start', hopen', _, _, ⟨rfl, rfl⟩, value, s', ⟨env', hrun, hvalue⟩, _,
      _, ⟨rfl, rfl⟩, hwrite⟩
    -- the frame is the one that the script begins with
    rcases hopen.unique hopen' with ⟨rfl, rfl⟩
    exact ⟨env', _, value, hrun, hvalue, (exists_returns_toCFunction _).1 ⟨_, hwrite⟩⟩
  · rintro ⟨env', s', value, hrun, hvalue, hwritten⟩
    rcases (exists_returns_toCFunction s').2 hwritten with ⟨s'', hwrite⟩
    exact ⟨s'', (), _, rfl, id, start, hopen, _, _, ⟨rfl, rfl⟩, value, s', ⟨env', hrun, hvalue⟩, _,
      _, ⟨rfl, rfl⟩, hwrite⟩

theorem exists_returns_build {text : String} :
    (∃ s', Returns (build options name params returns steps result) s text s') ↔
      ∃ unit, (∃ s', Returns (compile options name params returns steps result) s unit s') ∧
        unit.text = .ok text := by
  constructor
  · rintro ⟨s', h⟩
    rcases returns_build.1 h with ⟨unit, s₁, hcompile, htext, _⟩
    exact ⟨unit, ⟨s₁, hcompile⟩, htext⟩
  · rintro ⟨unit, ⟨s₁, hcompile⟩, htext⟩
    exact ⟨_, returns_build.2 ⟨unit, s₁, hcompile, htext, rfl⟩⟩

/-- What is compiled from a script that asks for the same conditions and hands back the same
value. -/
theorem exists_returns_compile_of_plan (hbegins : Begins name params s id env start)
    (h : plan start env steps = some (env₁, cs)) (h' : plan start env steps' = some (env₂, cs'))
    (hsame : ∀ c, c ∈ cs ↔ c ∈ cs') (hresult : env₁.result result = env₂.result result')
    (hcompile : ∃ s', Returns (compile options name params returns steps result) s unit s') :
    ∃ s', Returns (compile options name params returns steps' result') s unit s' := by
  rw [hbegins.exists_returns_compile] at hcompile ⊢
  rcases hcompile with ⟨_, _, value, hrun, hvalue, hwritten⟩
  rcases (returns_run_of_plan h []).1 hrun with ⟨rfl, es, hes, hlive, rfl⟩
  rcases entriesOf?_congr hsame hes with ⟨es', hes', hentries⟩
  have hlive' : start.Holding es' := fun x hx => hlive x ((hentries x).2 hx)
  have hrun' : Returns (run env steps') start env₂ (start.enterAll es') :=
    (returns_run_of_plan h' []).2 ⟨rfl, es', hes', hlive', rfl⟩
  refine ⟨env₂, _, value, hrun', hresult ▸ hvalue, ?_⟩
  -- both runs leave the same facts in the frame of the script
  rcases hbegins with ⟨hopen, rfl⟩
  rcases opened_of_returns hopen with ⟨slots, hopened⟩
  have hframe : start.frame? id = some (start.frameOf id) := by rw [hopened.frame, hopened.frameOf]
  have hown : ∀ x, x ∈ es.filter (fun x => x.argument.frame = id) ↔
      x ∈ es'.filter (fun x => x.argument.frame = id) := by
    intro x
    rw [List.mem_filter, List.mem_filter, hentries]
  rw [List.nil_append, Session.frameOf_enterAll hframe] at hwritten
  rw [Session.frameOf_enterAll hframe]
  exact ((Frame.sameFacts_enterAll _ hown).writtenAs (Frame.complex_enterAll_congr _ hown)).1 hwritten

end

/-- The order of assertions is irrelevant, and so is whether one is made again. Frames in which
every argument carries the same facts are both collapsed, to the same ranges and the same guard, or
neither is. Scripts that ask for the same conditions and hand back the same value are both built, to
the same text, or neither is. -/
theorem assertion_order_irrelevant :
    (∀ (f g : Frame) (s s' : Session), f.SameFacts g →
      ((∃ rows t, Returns f.collapse s rows t) ↔ ∃ rows t, Returns g.collapse s' rows t) ∧
        ∀ rows rows' t t', Returns f.collapse s rows t → Returns g.collapse s' rows' t' →
          rows = rows' ∧ (ArgumentRange.guard rows).text = (ArgumentRange.guard rows').text) ∧
    ∀ (options : Options) (name : String) (params : List Ty) (returns : Ty) (s start : Session)
      (id : FrameId)
      (env env₁ env₂ : Env) (steps steps' : List Step) (result result' : Option Nat) (cs cs' : List Cond),
      Begins name params s id env start →
      plan start env steps = some (env₁, cs) → plan start env steps' = some (env₂, cs') →
      (∀ c, c ∈ cs ↔ c ∈ cs') → env₁.result result = env₂.result result' →
        ∀ text, (∃ s', Returns (build options name params returns steps result) s text s') ↔
          ∃ s', Returns (build options name params returns steps' result') s text s' := by
  constructor
  · intro f g s s' hsame
    constructor
    · simp only [Frame.exists_returns_collapse_iff, hsame.ranges]
    · intro rows rows' t t' hf hg
      have hrows := (hsame.ranges rows).1 (Frame.returns_collapse hf)
      rw [Frame.returns_collapse hg, Except.ok.injEq] at hrows
      exact ⟨hrows.symm, by rw [hrows]⟩
  · intro options name params returns s start id env env₁ env₂ steps steps' result result' cs cs'
      hbegins hplan hplan'
      hsame hresult text
    simp only [exists_returns_build]
    constructor
    · rintro ⟨unit, hcompile, htext⟩
      exact ⟨unit, exists_returns_compile_of_plan hbegins hplan hplan' hsame hresult hcompile, htext⟩
    · rintro ⟨unit, hcompile, htext⟩
      have hsame' : ∀ c, c ∈ cs' ↔ c ∈ cs := fun c => (hsame c).symm
      exact ⟨unit, exists_returns_compile_of_plan hbegins hplan' hplan hsame' hresult.symm hcompile, htext⟩

/-- A lower bound for a number, then a byte of an array. -/
def boundThenByte : List Step :=
  [.op (.int 0 .given), .op (.compare .ge (.register 0) (.lit 10)), .op (.assert (.register 1)),
    .op (.bytes 1 .given), .op (.read .byte 3 (.lit 7))]

/-- The byte first, and both of them twice. -/
def byteThenBound : List Step :=
  [.op (.bytes 1 .given), .op (.read .byte 0 (.lit 7)), .op (.int 0 .given),
    .op (.compare .ge (.register 2) (.lit 10)), .op (.assert (.register 3)), .op (.read .byte 0 (.lit 7)),
    .op (.assert (.register 3))]

theorem assertion_order_irrelevant_boundAndByte :
    let params : List Ty := [.integer ⟨.w8, false⟩, .byteArray ⟨.w32, false⟩]
    let x : Argument := ⟨0, "arg_0", .integer ⟨.w8, false⟩, 0⟩
    let f : Frame := ⟨[x], [], [[⟨.ge, .lit 10⟩, ⟨.ne, .lit 20⟩]], []⟩
    let g : Frame := ⟨[x], [], [[⟨.ne, .lit 20⟩, ⟨.ge, .lit 10⟩, ⟨.ne, .lit 20⟩]], []⟩
    (∃ rows t t', Returns f.collapse Session.empty rows t ∧ Returns g.collapse Session.empty rows t') ∧
      ∃ text s₁ s₂,
        Returns (build {} "f" params (.integer ⟨.w8, false⟩) boundThenByte (some 4)) Session.empty text s₁ ∧
        Returns (build {} "f" params (.integer ⟨.w8, false⟩) byteThenBound (some 1)) Session.empty
          text s₂ := by
  intro params x f g
  have hsame : f.SameFacts g := by
    refine ⟨rfl, ?_⟩
    intro a ha fact
    rw [List.mem_singleton.1 ha]
    show fact ∈ [_, _] ↔ fact ∈ [_, _, _]
    simp only [List.mem_cons, List.not_mem_nil, or_false]
    tauto
  constructor
  · rcases assertion_order_irrelevant.1 f g Session.empty Session.empty hsame with ⟨hboth, hrows⟩
    rcases exists_returns (s := Session.empty) (f := fun _ => ()) (b := ())
      (show (f.collapse.run.run Session.empty).1.toOption.map (fun _ => ()) =
        some () by decide +kernel) with
      ⟨rows, t, hf, _⟩
    rcases hboth.1 ⟨rows, t, hf⟩ with ⟨rows', t', hg⟩
    cases (hrows rows rows' t t' hf hg).1
    exact ⟨rows, t, t', hf, hg⟩
  · let start : Session := ((openFrame params).run.run (Session.empty.write (.compiling "f" 2))).2
    let env : Env := { given := some (start.frameOf 0).params }
    let first := (plan start env boundThenByte).getD ({}, [])
    let second := (plan start env byteThenBound).getD ({}, [])
    have hbegins : Begins "f" params Session.empty 0 env start := ⟨Prod.ext (by decide +kernel) rfl, rfl⟩
    have hfirst : plan start env boundThenByte = some (first.1, first.2) := by decide +kernel
    have hsecond : plan start env byteThenBound = some (second.1, second.2) := by decide +kernel
    have hconditions : ∀ c, c ∈ first.2 ↔ c ∈ second.2 := by
      have hall : first.2.all (· ∈ second.2) ∧ second.2.all (· ∈ first.2) := by decide +kernel
      simp only [List.all_eq_true, decide_eq_true_eq] at hall
      exact fun c => ⟨hall.1 c, hall.2 c⟩
    have hresult : first.1.result (some 4) = second.1.result (some 1) := by decide +kernel
    rcases exists_returns (s := Session.empty) (f := fun _ => ()) (b := ())
      (show ((build {} "f" params (.integer ⟨.w8, false⟩) boundThenByte (some 4)).run.run
        Session.empty).1.toOption.map (fun _ => ()) = some () by decide +kernel) with ⟨text, s₁, hbuild, _⟩
    rcases (assertion_order_irrelevant.2 {} "f" params (.integer ⟨.w8, false⟩) Session.empty start 0
      env first.1
      second.1 _ _ (some 4) (some 1) first.2 second.2 hbegins hfirst hsecond hconditions hresult text).1
      ⟨s₁, hbuild⟩ with ⟨s₂, hbuild'⟩
    exact ⟨text, s₁, s₂, hbuild, hbuild'⟩

end Script

end GuardedC
