import GuardedC.Session

/-!
# Computations that return

`Returns x s a s'` says that the computation `x`, started in the session `s`, returns `a` and leaves
the session `s'`. One rule for each way of building a computation takes such a statement apart, so
that the proofs about traces need not look at how failures and sessions are passed along.
-/

namespace GuardedC

/-- Started in `s`, the computation returns `a` and leaves `s'`. -/
def Returns {ε α : Type} (x : InSession ε α) (s : Session) (a : α) (s' : Session) : Prop :=
  x.run.run s = (.ok a, s')

variable {ε δ α β : Type} {s s' s'' : Session}

/-- A computation that is seen to yield a result returns it. -/
theorem exists_returns {x : InSession ε α} {f : α → β} {b : β}
    (h : (x.run.run s).1.toOption.map f = some b) : ∃ a s', Returns x s a s' ∧ f a = b := by
  rcases hx : x.run.run s with ⟨e | a, s'⟩
  · rw [hx] at h
    cases h
  · rw [hx] at h
    exact ⟨a, s', hx, Option.some.inj h⟩

/-- A computation returns one result. -/
theorem Returns.unique {x : InSession ε α} {a b : α} (ha : Returns x s a s') (hb : Returns x s b s'') :
    a = b ∧ s' = s'' := by
  have heq := ha.symm.trans hb
  rw [Prod.mk.injEq, Except.ok.injEq] at heq
  exact heq

/-! ## Rules -/

@[simp] theorem returns_pure {a b : α} :
    Returns (pure a : InSession ε α) s b s' ↔ b = a ∧ s' = s := by
  have h : (pure a : InSession ε α).run.run s = (.ok a, s) := rfl
  unfold Returns
  rw [h, Prod.mk.injEq, Except.ok.injEq]
  exact and_congr eq_comm eq_comm

/-- A sequence returns if its first part does and the second one does from there. -/
@[simp] theorem returns_bind {x : InSession ε α} {f : α → InSession ε β} {b : β} :
    Returns (x >>= f) s b s'' ↔ ∃ a s', Returns x s a s' ∧ Returns (f a) s' b s'' := by
  constructor
  · intro h
    rcases hx : x.run.run s with ⟨e | a, s'⟩
    · have hfail : (x >>= f).run.run s = (.error e, s') := by
        simp only [ExceptT.run_bind, StateT.run_bind, hx]
        rfl
      rw [Returns, hfail] at h
      cases h
    · have hrest : (x >>= f).run.run s = (f a).run.run s' := by
        simp only [ExceptT.run_bind, StateT.run_bind, hx]
        rfl
      exact ⟨a, s', hx, hrest.symm.trans h⟩
  · rintro ⟨a, s', hx, hf⟩
    have hrest : (x >>= f).run.run s = (f a).run.run s' := by
      simp only [ExceptT.run_bind, StateT.run_bind, show x.run.run s = (.ok a, s') from hx]
      rfl
    exact hrest.trans hf

@[simp] theorem returns_throw {e : ε} {a : α} : ¬ Returns (throw e : InSession ε α) s a s' := by
  intro h
  cases h

theorem run_mapError (x : InSession ε α) (f : ε → δ) (s : Session) :
    (x.mapError f).run.run s = ((x.run.run s).1.mapError f, (x.run.run s).2) := by
  unfold InSession.mapError ExceptT.adapt
  simp only [ExceptT.run_mk, StateT.run_map]
  rfl

/-- Renaming the failures changes nothing where there is none. -/
@[simp] theorem returns_mapError {x : InSession ε α} {f : ε → δ} {a : α} :
    Returns (x.mapError f) s a s' ↔ Returns x s a s' := by
  unfold Returns
  rw [run_mapError]
  rcases x.run.run s with ⟨e | b, s₁⟩
  · constructor <;> intro h <;> cases h
  · show ((.ok b, s₁) : Except δ α × Session) = (.ok a, s') ↔
      ((.ok b, s₁) : Except ε α × Session) = (.ok a, s')
    simp only [Prod.mk.injEq, Except.ok.injEq]

@[simp] theorem returns_get {a : Session} :
    Returns (get : InSession ε Session) s a s' ↔ a = s ∧ s' = s := by
  have h : (get : InSession ε Session).run.run s = (.ok s, s) := rfl
  unfold Returns
  rw [h, Prod.mk.injEq, Except.ok.injEq]
  exact and_congr eq_comm eq_comm

@[simp] theorem returns_modify {f : Session → Session} {u : Unit} :
    Returns (modify f : InSession ε Unit) s u s' ↔ s' = f s := by
  have h : (modify f : InSession ε Unit).run.run s = (.ok (), f s) := rfl
  unfold Returns
  rw [h, Prod.mk.injEq, Except.ok.injEq]
  exact (and_iff_right rfl).trans eq_comm

@[simp] theorem returns_say {m : Message} {u : Unit} :
    Returns (liftM (say m) : InSession ε Unit) s u s' ↔ s' = s.write m :=
  returns_modify

/-- What needs no session leaves it as it is. -/
@[simp] theorem returns_except {x : Except ε α} {a : α} :
    Returns (liftM x : InSession ε α) s a s' ↔ x = .ok a ∧ s' = s := by
  have h : (liftM x : InSession ε α).run.run s = (x, s) := rfl
  unfold Returns
  rw [h, Prod.mk.injEq]
  exact and_congr Iff.rfl eq_comm

/-! ## Results without a session -/

@[simp] theorem except_bind_ok {x : Except ε α} {f : α → Except ε β} {b : β} :
    x >>= f = .ok b ↔ ∃ a, x = .ok a ∧ f a = .ok b := by
  cases x with
  | error e => simp [bind, Except.bind]
  | ok a => simp [bind, Except.bind]

/-- A sequence fails if its first part does, or else the second. -/
theorem except_bind_error {x : Except ε α} {f : α → Except ε β} {e : ε} :
    x >>= f = .error e ↔ x = .error e ∨ ∃ a, x = .ok a ∧ f a = .error e := by
  cases x with
  | error e' => simp [bind, Except.bind]
  | ok a => simp [bind, Except.bind]

@[simp] theorem except_pure_ok {a b : α} : (pure a : Except ε α) = .ok b ↔ a = b := by
  simp [pure, Except.pure]

@[simp] theorem except_mapError_ok {x : Except ε α} {f : ε → δ} {a : α} :
    x.mapError f = .ok a ↔ x = .ok a := by
  cases x with
  | error e => exact iff_of_false (fun h => nomatch h) (fun h => nomatch h)
  | ok b =>
    show Except.ok b = .ok a ↔ _
    rw [Except.ok.injEq, Except.ok.injEq]

end GuardedC
