import GuardedC.Proofs.Attempts

/-!
# Sessions grow

Steps make frames, add to them and drop them, and do nothing else to them. A number is never used
again, so a frame that was dropped stays away, and one that is alive has only been added to
(`Session.Grows`). This holds of every step, also of one that fails (`grows_attempt`), and so of
every run (`grows_after`).
-/

namespace GuardedC

/-- `f'` is `f` with more in its lists. -/
structure Frame.Extends (f f' : Frame) : Prop where
  arguments : f'.arguments = f.arguments
  params : f'.params = f.params
  facts : ∀ i, f.factsAt i <+: f'.factsAt i
  complex : f.complex <+: f'.complex

theorem Frame.extends_enterAll (f : Frame) (es : List FrameEntry) : f.Extends (f.enterAll es) := by
  refine ⟨f.arguments_enterAll es, f.params_enterAll es, ?_, ?_⟩
  · intro i
    rw [f.factsAt_enterAll es i]
    exact List.prefix_append _ _
  · rw [f.complex_enterAll]
    exact List.prefix_append _ _

namespace Session

/-- Frames were added to, made and dropped, and no number was used again. -/
structure Grows (s s' : Session) : Prop where
  length : s.frames.length ≤ s'.frames.length
  frame : ∀ id < s.frames.length, ∀ f', s'.frame? id = some f' →
    ∃ f es, s.frame? id = some f ∧ f' = f.enterAll es

variable {s s₁ s₂ : Session}

theorem lt_length_of_frame? {id : FrameId} {f : Frame} (h : s.frame? id = some f) :
    id < s.frames.length := by
  by_contra hge
  rw [frame?, List.getElem?_eq_none (Nat.le_of_not_lt hge)] at h
  cases h

theorem frame?_congr (h : s₁.frames = s.frames) (id : FrameId) : s₁.frame? id = s.frame? id := by
  rw [frame?, frame?, h]

namespace Grows

theorem of_frames (h : s₁.frames = s.frames) : s.Grows s₁ := by
  refine ⟨Nat.le_of_eq (by rw [h]), ?_⟩
  intro id _ f' hf'
  rw [frame?_congr h] at hf'
  exact ⟨f', [], hf', rfl⟩

theorem trans (h₁ : s.Grows s₁) (h₂ : s₁.Grows s₂) : s.Grows s₂ := by
  refine ⟨Nat.le_trans h₁.length h₂.length, ?_⟩
  intro id hid f₂ hf₂
  rcases h₂.frame id (Nat.lt_of_lt_of_le hid h₁.length) f₂ hf₂ with ⟨f₁, fs, hf₁, rfl⟩
  rcases h₁.frame id hid f₁ hf₁ with ⟨f, es, hf, rfl⟩
  refine ⟨f, es ++ fs, hf, ?_⟩
  simp [Frame.enterAll]

theorem enterAll (s : Session) (es : List FrameEntry) : s.Grows (s.enterAll es) := by
  refine ⟨Nat.le_of_eq (s.length_frames_enterAll es).symm, ?_⟩
  intro id _ f' hf'
  rw [frame?_enterAll] at hf'
  rcases Option.map_eq_some_iff.1 hf' with ⟨f, hf, rfl⟩
  exact ⟨f, _, hf, rfl⟩

theorem opened {tys : List Ty} {slots : List Slot} {new : FrameId} (h : Opened tys slots s s₁ new) :
    s.Grows s₁ := by
  refine ⟨by rw [h.length, h.id_eq]; exact Nat.le_succ _, ?_⟩
  intro id hid f' hf'
  rw [h.others id (h.id_eq ▸ Nat.ne_of_lt hid)] at hf'
  exact ⟨f', [], hf', rfl⟩

theorem dropFrame (s : Session) (j : FrameId) : s.Grows (s.dropFrame j) := by
  refine ⟨by simp [Session.dropFrame], ?_⟩
  intro id _ f' hf'
  rw [frame?_dropFrame] at hf'
  split at hf'
  · cases hf'
  · exact ⟨f', [], hf', rfl⟩

theorem of_changes {P : Session → FrameEntry → Prop} (h : s.Changes P s₁) : s.Grows s₁ := by
  induction h with
  | frames h => exact .of_frames h
  | @enterAll s es _ => exact .enterAll s es
  | opened h => exact .opened h
  | dropFrame s j => exact .dropFrame s j
  | trans _ _ ih₁ ih₂ => exact ih₁.trans ih₂

end Grows

/-- A property that frames have when they are made, and keep when they are added to, stays with all
frames. -/
theorem Changes.forall_frame {P : Session → FrameEntry → Prop} {Q : FrameId → Frame → Prop}
    (hmade : ∀ {id tys slots}, Layout id 0 0 tys slots →
      Q id ((Frame.ofSlots slots).enterAll (lengthEntries slots)))
    (hadded : ∀ {s : Session} {id f es}, (∀ x ∈ es, P s x ∧ x.argument.frame = id) → s.frame? id = some f →
      Q id f → Q id (f.enterAll es))
    (h : s.Changes P s₁) (hs : ∀ id f, s.frame? id = some f → Q id f) :
    ∀ id f, s₁.frame? id = some f → Q id f := by
  induction h with
  | frames h =>
    intro id f hf
    rw [frame?_congr h] at hf
    exact hs id f hf
  | enterAll hes =>
    intro id f hf
    rw [frame?_enterAll] at hf
    rcases Option.map_eq_some_iff.1 hf with ⟨g, hg, rfl⟩
    refine hadded ?_ hg (hs id g hg)
    intro x hx
    rcases List.mem_filter.1 hx with ⟨hmem, hframe⟩
    exact ⟨hes x hmem, of_decide_eq_true hframe⟩
  | @opened tys slots s s' new h =>
    intro id f hf
    by_cases hid : id = new
    · subst hid
      rw [h.frame] at hf
      cases hf
      exact hmade h.layout
    · rw [h.others id hid] at hf
      exact hs id f hf
  | dropFrame s j =>
    intro id f hf
    rw [frame?_dropFrame] at hf
    split at hf
    · cases hf
    · exact hs id f hf
  | trans _ _ ih₁ ih₂ => exact ih₂ (ih₁ hs)

end Session

namespace Script

/-- Whatever a step does, and whether or not it fails, frames only grow. -/
theorem grows_attempt (env : Env) (s : Session) (step : Step) : s.Grows (step.attempt env s).2 :=
  .of_changes (P := fun _ _ => True) (changes_attempt fun _ _ _ _ => trivial)

theorem grows_after (env : Env) (s : Session) (steps : List Step) : s.Grows (after env s steps).2 := by
  induction steps generalizing env s with
  | nil => exact .of_frames rfl
  | cons step steps ih => exact (grows_attempt env s step).trans (ih _ _)

end Script

end GuardedC
