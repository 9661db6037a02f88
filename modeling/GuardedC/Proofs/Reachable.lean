import GuardedC.Proofs.Growth

/-!
# States of scripts

A state is an environment with a session. `Reached` are the states that scripts come to, from an
empty session and by steps of any kind, also by steps that fail and by steps on frames of other
traces.

In every such state (`Reached.sound`):

* frames are laid out for their parameters and have only been added to (`Session.Laid`);
* each frame has one list of facts for each of its arguments (`Session.Tabled`);
* every argument in a register was made by a frame, and stands in that frame if it is alive
  (`Session.Issued`);
* every view is one of a byte array, and the length of a window is a difference (`Bytes.Formed`).

So nothing that is recorded gets lost: conditions that were asserted hold exactly where the facts do
that they left in the frames (`newFactsHold_iff_holds`).
-/

namespace GuardedC

/-! ## Frames -/

/-- A frame as it is made and kept: laid out for some parameters, and only added to since. -/
def Frame.Laid (id : FrameId) (f : Frame) : Prop :=
  ∃ tys slots es, Layout id 0 0 tys slots ∧ f = (Frame.ofSlots slots).enterAll es

namespace Frame.Laid

variable {id : FrameId} {f : Frame}

theorem enterAll (h : f.Laid id) (es : List FrameEntry) : (f.enterAll es).Laid id := by
  rcases h with ⟨tys, slots, fs, hlayout, rfl⟩
  refine ⟨tys, slots, fs ++ es, hlayout, ?_⟩
  simp [Frame.enterAll]

theorem signature (h : f.Laid id) : Signature id f.arguments := by
  rcases h with ⟨tys, slots, es, hlayout, rfl⟩
  rw [Frame.arguments_enterAll]
  exact hlayout.signature

end Frame.Laid

namespace Session

variable {s s₁ : Session} {id : FrameId} {f : Frame} {a : Argument}

/-- All frames that are alive are laid out. -/
def Laid (s : Session) : Prop := ∀ id f, s.frame? id = some f → f.Laid id

theorem Laid.of_changes {P : Session → FrameEntry → Prop} (hs : s.Laid) (h : s.Changes P s₁) : s₁.Laid :=
  h.forall_frame (fun {_ tys slots} hlayout => ⟨tys, slots, _, hlayout, rfl⟩)
    (fun _ _ hlaid => hlaid.enterAll _) hs

/-! ## Arguments -/

/-- The argument was made by a frame of the session. If this frame is alive, it has the argument in
its place. -/
structure Issued (s : Session) (a : Argument) : Prop where
  made : a.frame < s.frames.length
  placed : ∀ f, s.frame? a.frame = some f → f.arguments[a.index]? = some a

theorem Issued.mono (h : s.Issued a) (hgrows : s.Grows s₁) : s₁.Issued a := by
  refine ⟨Nat.lt_of_lt_of_le h.made hgrows.length, ?_⟩
  intro f' hf'
  rcases hgrows.frame a.frame h.made f' hf' with ⟨f, es, hf, rfl⟩
  rw [f.arguments_enterAll]
  exact h.placed f hf

theorem Laid.issued (hs : s.Laid) (hf : s.frame? id = some f) (ha : a ∈ f.arguments) : s.Issued a := by
  have hsig := (hs id f hf).signature
  have hframe : a.frame = id := hsig.frame a ha
  subst hframe
  refine ⟨lt_length_of_frame? hf, ?_⟩
  intro f' hf'
  rw [hf] at hf'
  cases hf'
  exact hsig.getElem?_index ha

/-- All frames that are alive have one list of facts for each argument. -/
def Tabled (s : Session) : Prop := ∀ id f, s.frame? id = some f → f.Tabled

/-- Nothing is recorded beyond the table, for it is about arguments that the frames have made. -/
theorem Tabled.of_changes (hs : s.Tabled) (h : s.Changes (fun s x => s.Issued x.argument) s₁) :
    s₁.Tabled := by
  refine h.forall_frame (fun hlayout => hlayout.tabled) ?_ hs
  intro s id f es hes hf htabled
  refine htabled.enterAll ?_
  intro x hx
  rcases hes x hx with ⟨hissued, rfl⟩
  exact (List.getElem?_eq_some_iff.1 (hissued.placed f hf)).1

end Session

/-! ## Values -/

/-- A view as scripts can get hold of it: of a byte array with its length, and through a window
whose length was computed as a difference. -/
structure Bytes.Formed (s : Session) (b : Bytes) : Prop where
  consistent : b.Consistent
  issued : b.Over s.Issued
  array : ∃ id tys slots, Layout id 0 0 tys slots ∧
    ArrayIn (slots.flatMap Slot.arguments) b.source b.sourceLength
  window : b.isWindow = true → ∃ stop, b.length = .arith .sub stop b.start

namespace Bytes.Formed

variable {s : Session} {b : Bytes}

theorem issued_source (h : b.Formed s) : s.Issued b.source := h.issued.source h.consistent

theorem issued_sourceLength (h : b.Formed s) : s.Issued b.sourceLength :=
  h.issued.sourceLength h.consistent

/-- An array and its length belong to one frame. -/
theorem frame_eq (h : b.Formed s) : b.sourceLength.frame = b.source.frame := by
  rcases h.array with ⟨id, tys, slots, hlayout, harray⟩
  rw [hlayout.signature.frame _ harray.data_mem, hlayout.signature.frame _ harray.size_mem]

theorem mem_arguments (h : b.Formed s) {f : Frame} (hf : s.frame? b.source.frame = some f) :
    b.source ∈ f.arguments ∧ b.sourceLength ∈ f.arguments := by
  constructor
  · exact List.mem_of_getElem? (h.issued_source.placed f hf)
  · refine List.mem_of_getElem? (h.issued_sourceLength.placed f ?_)
    rw [h.frame_eq]
    exact hf

end Bytes.Formed

/-- A value as scripts can get hold of it. -/
abbrev Session.Offers (s : Session) : Value → Prop := Value.All (Expr.Over s.Issued) (Bytes.Formed s)

section

variable {s s₁ : Session}

theorem Session.Offers.mono {v : Value} (h : s.Offers v) (hgrows : s.Grows s₁) : s₁.Offers v := by
  have hissued : ∀ a, s.Issued a → s₁.Issued a := fun a ha => ha.mono hgrows
  have hover : ∀ e : Expr, e.Over s.Issued → e.Over s₁.Issued := fun e he a ha => hissued a (he a ha)
  exact h.imp hover hover fun b hb => ⟨hb.consistent, hb.issued.imp hissued, hb.array, hb.window⟩

theorem closed_formed : Closed (fun _ => True) (Expr.Over s.Issued) (Bytes.Formed s) where
  lit := closed_over.lit
  binary := closed_over.binary
  arrayLength hb := hb.issued.arrayLength
  bounds hb := ⟨hb.issued.start, hb.issued.length⟩
  byteAt hb hkey hH := closed_over.byteAt hb.issued hkey hH
  slice hb hstart hlength hH :=
    ⟨hb.consistent.slice _ _, closed_over.slice hb.issued hstart hlength hH, hb.array, fun _ => ⟨_, rfl⟩⟩

theorem closedRaw_formed : ClosedRaw (Expr.Over s.Issued) (Bytes.Formed s) where
  expr hb := hb.issued.view
  byteIndex := closedRaw_over.byteIndex
  byteSlice := closedRaw_over.byteSlice

/-- The parameters of a frame stand for its own arguments. -/
theorem Session.Laid.offers_params (hs : s.Laid) {id : FrameId} {f : Frame} (hf : s.frame? id = some f) :
    ∀ p ∈ f.params, s.Offers p.toValue := by
  intro p hp
  have hissued : ∀ a ∈ f.arguments, s.Issued a := fun a ha => hs.issued hf ha
  rcases hs id f hf with ⟨tys, slots, es, hlayout, rfl⟩
  rw [Frame.params_enterAll] at hp
  rw [Frame.arguments_enterAll] at hissued
  have hin : p.In (slots.flatMap Slot.arguments) := hlayout.params_in p hp
  have hover := hin.over hissued
  cases p with
  | int e => exact hover
  | bytes b =>
    rcases hin with ⟨data, size, harray, rfl⟩
    exact ⟨Bytes.consistent_array data size, hover, ⟨id, tys, slots, hlayout, harray⟩, by simp⟩

end

/-! ## States -/

namespace Script

/-- The states of scripts. -/
inductive Reached : Env → Session → Prop where
  | empty : Reached {} Session.empty
  /-- The log may be written to at any time. -/
  | said {env : Env} {s : Session} (h : Reached env s) (m : Message) : Reached env (s.write m)
  /-- A trace begins, on a frame of its own. -/
  | traced {env : Env} {s s' : Session} {tys : List Ty} {id : FrameId} (h : Reached env s)
      (hopen : Returns (GuardedC.openFrame tys) s id s') :
      Reached { given := some (s'.frameOf id).params } s'
  /-- A step is taken, and may fail. -/
  | step {env : Env} {s : Session} (h : Reached env s) (step : Step) :
      Reached (env.push (step.attempt env s).1) (step.attempt env s).2

theorem Reached.after {env : Env} {s : Session} (h : Reached env s) (steps : List Step) :
    Reached (after env s steps).1 (after env s steps).2 := by
  induction steps generalizing env s with
  | nil => exact h
  | cons step steps ih => exact ih (h.step step)

/-- What holds in every state. -/
structure Sound (env : Env) (s : Session) : Prop where
  laid : s.Laid
  tabled : s.Tabled
  registers : ∀ v, some v ∈ env.registers → s.Offers v
  given : ∀ ps, env.given = some ps → ∀ p ∈ ps, s.Offers p.toValue

namespace Sound

variable {env : Env} {s s₁ : Session}

theorem all (h : Sound env s) : env.All s.Offers s :=
  .of_frames h.registers h.given fun _ _ _ hf => h.laid.offers_params hf

/-- A view that is in a register. -/
theorem formed (h : Sound env s) {n : Nat} {b : Bytes} (hb : env.bytes n = .ok b) : b.Formed s := by
  have hregister : env.AllAt s.Offers [n] := by
    intro m _ v hv
    exact h.registers v (Env.mem_registers_of_value hv)
  exact hregister.bytes hb

theorem of_changes (h : Sound env s) (hchanges : s.Changes (fun s x => s.Issued x.argument) s₁) :
    Sound env s₁ := by
  have hgrows : s.Grows s₁ := .of_changes hchanges
  refine ⟨h.laid.of_changes hchanges, h.tabled.of_changes hchanges, ?_, ?_⟩
  · intro v hv
    exact (h.registers v hv).mono hgrows
  · intro ps hps p hp
    exact (h.given ps hps p hp).mono hgrows

theorem pushNone (h : Sound env s) : Sound { env with registers := env.registers ++ [none] } s :=
  ⟨h.laid, h.tabled, Env.forall_registers_push h.registers (by simp), h.given⟩

theorem pushValue (h : Sound env s) {v : Value} (hv : s.Offers v) : Sound (env.push (.ok (.value v))) s :=
  ⟨h.laid, h.tabled, Env.forall_registers_push h.registers (by simpa using hv), h.given⟩

/-- What an operation records, also before it fails, is about arguments that were made. -/
theorem changes (h : Sound env s) (step : Step) :
    s.Changes (fun s x => s.Issued x.argument) (step.attempt env s).2 := by
  refine changes_attempt ?_
  rintro o rfl x hx
  rcases of_mem_records hx with ⟨_, result, heval, hdemand⟩
  have hkeeps := Op.keeps closed_formed (.inr closedRaw_formed) h.all heval
  exact recorded_over.of_conditions (hkeeps fun _ _ => trivial).1 hdemand

theorem attempt (h : Sound env s) (step : Step) :
    Sound (env.push (step.attempt env s).1) (step.attempt env s).2 := by
  have hnext : Sound env (step.attempt env s).2 := h.of_changes (h.changes step)
  have hgrows : s.Grows (step.attempt env s).2 := grows_attempt env s step
  rcases hattempt : step.attempt env s with ⟨fault | answer, s'⟩
  · rw [hattempt] at hnext
    exact hnext.pushNone
  rw [hattempt] at hnext hgrows
  have hreturns : Returns (step.run env) s answer s' := hattempt
  cases step with
  | op o =>
    rcases returns_op.1 hreturns with ⟨result, hresult, rfl, _⟩
    have hkeeps := Op.keeps closed_formed (.inr closedRaw_formed) h.all hresult
    have hanswer := (hkeeps fun _ _ => trivial).2
    cases hvalue : result.value with
    | value v =>
      rw [hvalue] at hanswer
      exact hnext.pushValue (Session.Offers.mono hanswer hgrows)
    | truth b => exact hnext.pushNone
    | _ =>
      rw [hvalue] at hanswer
      exact hanswer.elim
  | query q =>
    rw [push_inert (returns_query hreturns).1]
    exact hnext.pushNone
  | ranges number =>
    rw [push_inert (returns_ranges hreturns).1]
    exact hnext.pushNone
  | openFrame types =>
    rcases returns_openFrameStep hreturns with ⟨new, tys, slots, rfl, _⟩
    exact ⟨hnext.laid, hnext.tabled, hnext.pushNone.registers, hnext.given⟩
  | dropFrame number =>
    rw [push_inert (returns_dropFrame hreturns).1]
    exact hnext.pushNone
  | foreign types index =>
    -- the value is a parameter of a frame that is gone by now
    rcases returns_foreign hreturns with ⟨new, tys, slots, s₁, p, hopened, hp, rfl, rfl⟩
    have hopen : Sound env s₁ := h.of_changes (.opened hopened)
    have hparams : p ∈ ((Frame.ofSlots slots).enterAll (lengthEntries slots)).params := by
      rw [Frame.params_enterAll]
      exact hp
    have hvalue := hopen.laid.offers_params hopened.frame p hparams
    exact hnext.pushValue (hvalue.mono (.dropFrame s₁ new))

end Sound

theorem Reached.sound {env : Env} {s : Session} (h : Reached env s) : Sound env s := by
  induction h with
  | empty =>
    refine ⟨?_, ?_, ?_, ?_⟩
    · intro id f hf
      cases hf
    · intro id f hf
      cases hf
    · intro v hv
      cases hv
    · intro ps hps
      cases hps
  | said _ m ih => exact ih.of_changes (.frames rfl)
  | @traced env s s' tys id _ hopen ih =>
    rcases opened_of_returns hopen with ⟨slots, hopened⟩
    have hnext : Sound env s' := ih.of_changes (.opened hopened)
    refine ⟨hnext.laid, hnext.tabled, ?_, ?_⟩
    · intro v hv
      cases hv
    · intro ps hps p hp
      cases hps
      rw [hopened.frameOf] at hp
      exact hnext.laid.offers_params hopened.frame p hp
  | step _ step ih => exact ih.attempt step

theorem Reached.sound_of_returns {env : Env} {s s' : Session} (h : Reached env s) {step : Step}
    {answer : Answer} (hreturns : Returns (step.run env) s answer s') : Sound env s' := by
  have hattempt : (step.attempt env s).2 = s' := congrArg Prod.snd hreturns
  rw [← hattempt]
  exact h.sound.of_changes (h.sound.changes step)

end Script

/-! ## Facts -/

/-- All facts of a frame hold. -/
structure Frame.FactsHold (σ : Assignment) (f : Frame) : Prop where
  facts : ∀ a ∈ f.arguments, ∀ fact ∈ f.factsAt a.index, fact.Holds σ a
  complex : ∀ fact ∈ f.complex, fact.Holds σ

instance (σ : Assignment) (f : Frame) : Decidable (f.FactsHold σ) :=
  decidable_of_iff ((∀ a ∈ f.arguments, ∀ fact ∈ f.factsAt a.index, fact.Holds σ a) ∧
    ∀ fact ∈ f.complex, fact.Holds σ) ⟨fun h => ⟨h.1, h.2⟩, fun h => ⟨h.facts, h.complex⟩⟩

/-- All facts of a frame hold that an earlier state of it does not have yet. -/
structure Frame.NewFactsHold (σ : Assignment) (old : Option Frame) (f : Frame) : Prop where
  facts : ∀ number a fact, (number, a, fact) ∈ Script.newFacts number old f → fact.Holds σ a
  complex : ∀ number fact, (number, fact) ∈ Script.newComplex number old f → fact.Holds σ

/-- All facts hold that were recorded on the way from `s` to `s'`. -/
def Session.NewFactsHold (σ : Assignment) (s s' : Session) : Prop :=
  ∀ id f, s'.frame? id = some f → f.NewFactsHold σ (s.frame? id)

section

variable {σ : Assignment} {s : Session} {id : FrameId} {f : Frame} {es : List FrameEntry}

theorem Frame.FactsHold.newFactsHold (h : f.FactsHold σ) (old : Option Frame) : f.NewFactsHold σ old := by
  constructor
  · intro number a fact hmem
    simp only [Script.newFacts, List.mem_flatMap, List.mem_map, Prod.mk.injEq] at hmem
    rcases hmem with ⟨a', ha, fact', hfact, _, rfl, rfl⟩
    exact h.facts a' ha fact' (List.mem_of_mem_drop hfact)
  · intro number fact hmem
    simp only [Script.newComplex, List.mem_map, Prod.mk.injEq] at hmem
    rcases hmem with ⟨fact', hfact, _, rfl⟩
    exact h.complex fact' (List.mem_of_mem_drop hfact)

namespace Frame.Laid

variable (hf : f.Laid id) (hplaced : ∀ x ∈ es, f.arguments[x.argument.index]? = some x.argument)

include hf hplaced

/-- The new facts of a frame are those that were entered, if they are about arguments of the
frame. -/
theorem mem_newFacts_enterAll {number : Nat} {a : Argument} {fact : Fact} :
    (number, a, fact) ∈ Script.newFacts number (some f) (f.enterAll es) ↔ .fact a fact ∈ es := by
  constructor
  · intro hmem
    rcases List.mem_flatMap.1 hmem with ⟨b, hb, hmem⟩
    rcases List.mem_map.1 hmem with ⟨fact', hfact, heq⟩
    cases heq
    rw [f.arguments_enterAll] at hb
    have hplace := hf.signature.getElem?_index hb
    rw [f.factsAt_enterAll] at hfact
    simp only [Option.map_some, Option.getD_some, List.drop_left] at hfact
    rcases List.mem_filterMap.1 hfact with ⟨x, hx, hxfact⟩
    cases x with
    | fact c fact' =>
      -- arguments of one frame that have the same index are the same
      simp only [FrameEntry.factAt?] at hxfact
      split at hxfact
      · rename_i hsame
        cases hxfact
        have hother : f.arguments[c.index]? = some c := hplaced _ hx
        rw [hsame, hplace] at hother
        cases hother
        exact hx
      · cases hxfact
    | complex c fact' => cases hxfact
  · intro hx
    have hplace : f.arguments[a.index]? = some a := hplaced _ hx
    refine List.mem_flatMap.2 ⟨a, ?_, List.mem_map.2 ⟨fact, ?_, rfl⟩⟩
    · rw [f.arguments_enterAll]
      exact List.mem_of_getElem? hplace
    · rw [f.factsAt_enterAll]
      simp only [Option.map_some, Option.getD_some, List.drop_left]
      exact List.mem_filterMap.2 ⟨_, hx, if_pos rfl⟩

theorem newFactsHold_enterAll : (f.enterAll es).NewFactsHold σ (some f) ↔ ∀ x ∈ es, x.Holds σ := by
  have hcomplex : ∀ number fact, (number, fact) ∈ Script.newComplex number (some f) (f.enterAll es) ↔
      fact ∈ es.filterMap FrameEntry.complex? := by
    intro number fact
    simp [Script.newComplex, f.complex_enterAll]
  constructor
  · intro hnew x hx
    cases x with
    | fact a fact => exact hnew.facts id a fact ((mem_newFacts_enterAll hf hplaced).2 hx)
    | complex a fact =>
      exact hnew.complex id fact ((hcomplex id fact).2 (List.mem_filterMap.2 ⟨_, hx, rfl⟩))
  · intro hes
    constructor
    · intro number a fact hmem
      exact hes _ ((mem_newFacts_enterAll hf hplaced).1 hmem)
    · intro number fact hmem
      rcases List.mem_filterMap.1 ((hcomplex number fact).1 hmem) with ⟨x, hx, hxfact⟩
      cases x with
      | fact a fact' => cases hxfact
      | complex a fact' =>
        cases hxfact
        exact hes _ hx

end Frame.Laid

namespace Session.Laid

variable (hs : s.Laid) (hissued : ∀ x ∈ es, s.Issued x.argument)

include hs hissued

/-- Of each frame, the new facts are those that were entered for it. -/
theorem newFactsHold_frame {f f' : Frame} (hf : s.frame? id = some f)
    (hf' : (s.enterAll es).frame? id = some f') :
    f'.NewFactsHold σ (some f) ↔ ∀ x ∈ es, x.argument.frame = id → x.Holds σ := by
  rw [frame?_enterAll, hf, Option.map_some, Option.some.injEq] at hf'
  subst hf'
  rw [(hs id f hf).newFactsHold_enterAll]
  · simp only [List.mem_filter, decide_eq_true_eq, and_imp]
  · intro x hx
    simp only [List.mem_filter, decide_eq_true_eq] at hx
    refine (hissued x hx.1).placed f ?_
    rw [hx.2]
    exact hf

theorem newFactsHold_enterAll (hholding : s.Holding es) :
    s.NewFactsHold σ (s.enterAll es) ↔ ∀ x ∈ es, x.Holds σ := by
  constructor
  · intro hnew x hx
    rcases Option.isSome_iff_exists.1 (hholding x hx) with ⟨f, hf⟩
    have hf' := s.frame?_enterAll es x.argument.frame
    rw [hf] at hf'
    have hgain := hnew _ _ hf'
    rw [hf] at hgain
    exact (hs.newFactsHold_frame hissued hf hf').1 hgain x hx rfl
  · intro hes id f' hf'
    have hbefore := s.frame?_enterAll es id
    rw [hf'] at hbefore
    rcases Option.map_eq_some_iff.1 hbefore.symm with ⟨f, hf, _⟩
    rw [hf]
    exact (hs.newFactsHold_frame hissued hf hf').2 fun x hx _ => hes x hx

end Session.Laid

variable {cs : List Cond}

/-- Conditions that were asserted hold exactly where the new facts do. -/
theorem newFactsHold_iff_holds (hs : s.Laid) (hcs : ∀ c ∈ cs, c.All (Expr.Over s.Issued))
    (hes : entriesOf? cs = some es) (hholding : s.Holding es) :
    s.NewFactsHold σ (s.enterAll es) ↔ ∀ c ∈ cs, c.Holds σ := by
  rw [holds_iff_entriesOf hes]
  exact hs.newFactsHold_enterAll (recorded_over.of_entries hcs hes) hholding

/-- Conditions on one frame hold wherever all facts of this frame do. -/
theorem holds_of_factsHold (hs : s.Laid)
    (hcs : ∀ c ∈ cs, c.All (Expr.Over fun a => s.Issued a ∧ a.frame = id))
    (hes : entriesOf? cs = some es) (hholding : s.Holding es) {f' : Frame}
    (hf' : (s.enterAll es).frame? id = some f') (hfacts : f'.FactsHold σ) : ∀ c ∈ cs, c.Holds σ := by
  have hentries : ∀ x ∈ es, s.Issued x.argument ∧ x.argument.frame = id := recorded_over.of_entries hcs hes
  refine (holds_iff_entriesOf hes).2 ?_
  intro x hx
  rcases hentries x hx with ⟨_, hframe⟩
  rcases Option.isSome_iff_exists.1 (hholding x hx) with ⟨f, hf⟩
  rw [hframe] at hf
  exact (hs.newFactsHold_frame (fun y hy => (hentries y hy).1) hf hf').1 (hfacts.newFactsHold _) x hx hframe

end

end GuardedC
