import GuardedC.Proofs.Reachable
import Mathlib.Data.List.Forall2

/-!
# Conjunct by conjunct

To assert a condition is to assert its conjuncts, from left to right and up to the first one that
cannot be asserted, whatever the shape of the condition and whoever built it.

* `Expr.Records` is what one conjunct leaves in a frame: a fact about an argument, or a complex fact
  about a byte; a conjunct of any other form leaves nothing and cannot be asserted.
* `Session.adding` is a session with new entries, each at the end of its list, and with nothing else
  changed; `Session.enterAll_eq_adding` says that this is what recording does.
* `assertThat_records_conjuncts` puts the two together for a whole condition.
-/

namespace GuardedC

/-! ## Conjuncts -/

/-- The conjuncts of a condition, from left to right. -/
def Expr.conjuncts : Expr → List Expr
  | .binary (.connect .and) l r => l.conjuncts ++ r.conjuncts
  | e => [e]

/-- What a conjunct leaves in a frame. -/
inductive Expr.Records : Expr → FrameEntry → Prop where
  /-- A comparison that begins with an argument is a fact about this argument. -/
  | left {op : Comparison} {a : Argument} {r : Expr} :
      Expr.Records (.binary op (.argument a) r) (.fact a ⟨op, r⟩)
  /-- One that only ends with an argument is a fact about this one, told the other way round. -/
  | right {op : Comparison} {l : Expr} {a : Argument} (hl : l.argument? = none) :
      Expr.Records (.binary op l (.argument a)) (.fact a ⟨op.reverse, l⟩)
  /-- A byte and a known integer make a complex fact, in the frame of the argument that is read
  from. -/
  | byteLeft {op : Comparison} {source key : Expr} {v : Int} {a : Argument} (ha : source.root? = some a) :
      Expr.Records (.binary op (.byteIndex source key) (.lit v))
        (.complex a ⟨op, .byteIndex source key, .lit v⟩)
  | byteRight {op : Comparison} {source key : Expr} {v : Int} {a : Argument} (ha : source.root? = some a) :
      Expr.Records (.binary op (.lit v) (.byteIndex source key))
        (.complex a ⟨op, .lit v, .byteIndex source key⟩)

section

variable {op : Comparison} {l r e : Expr} {x : FrameEntry}

/-- The forms of conjuncts do not overlap, so the entry of a comparison is what it records. -/
theorem Comparison.records_iff_entry? : (Expr.binary op l r).Records x ↔ op.entry? l r = some x := by
  constructor
  · intro h
    cases h with
    | left => rfl
    | right hl =>
      -- an argument on the left would have been recorded instead
      cases l with
      | argument a => cases hl
      | _ => rfl
    | byteLeft ha =>
      show Option.map _ _ = _
      rw [Expr.root?, ha]
      rfl
    | byteRight ha =>
      show Option.map _ _ = _
      rw [Expr.root?, ha]
      rfl
  · intro h
    unfold Comparison.entry? at h
    split at h
    · cases h
      exact .left
    · rename_i a hleft
      cases h
      apply Expr.Records.right
      cases l with
      | argument b => exact absurd rfl (hleft b)
      | _ => rfl
    · rcases Option.map_eq_some_iff.1 h with ⟨a, ha, rfl⟩
      exact .byteLeft ha
    · rcases Option.map_eq_some_iff.1 h with ⟨a, ha, rfl⟩
      exact .byteRight ha
    · cases h

/-! ## The demands of conjuncts -/

/-- A demand is that of a conjunct: to record what the conjunct records, or to refuse it if there is
nothing. -/
def Demand.Of (c : Expr) : Demand → Prop
  | .record x => c.Records x
  | .refuse error => (∀ x, ¬ c.Records x) ∧ ∃ shape, error = .unsupportedAssertion shape

/-- A condition is asserted by one demand for each conjunct. -/
theorem Expr.demands_of_conjuncts (e : Expr) : List.Forall₂ Demand.Of e.conjuncts e.demands := by
  -- of conjuncts, literals alone are refused one level up, with the conjunction as the reason
  have hliteral : ∀ {e shape : Expr}, e.isLiteral = true →
      List.Forall₂ Demand.Of e.conjuncts [.refuse (.unsupportedAssertion shape)] := by
    intro e shape he
    cases e with
    | lit v =>
      refine .cons ⟨?_, shape, rfl⟩ .nil
      intro x hx
      cases hx
    | _ => cases he
  fun_induction Expr.demands e with
  | case1 l r ihl ihr =>
    rw [Expr.conjuncts]
    apply List.rel_append
    · split
      · rename_i hl
        exact hliteral hl
      · exact ihl
    · split
      · rename_i hr
        exact hliteral hr
      · exact ihr
  | case2 op l r =>
    refine .cons ?_ .nil
    unfold Comparison.demand
    split
    · rename_i x hx
      exact Comparison.records_iff_entry?.2 hx
    · rename_i hnone
      refine ⟨?_, _, rfl⟩
      intro x hx
      rw [Comparison.records_iff_entry?.1 hx] at hnone
      cases hnone
  | case3 e hand hcompare =>
    rw [Expr.conjuncts]
    · refine .cons ⟨?_, e, rfl⟩ .nil
      intro x hx
      cases hx <;> exact hcompare _ _ _ rfl
    · exact hand

end

/-! ## Sessions with more entries -/

/-- A frame with more entries: facts go to the list of their argument, complex facts to the list of
the frame. The table gets longer if there are facts about arguments beyond its end. -/
def Frame.adding (f : Frame) (es : List FrameEntry) : Frame :=
  let rows := es.foldl (fun n x => max n x.rows) f.facts.length
  { f with
    facts := (List.range rows).map fun i => f.factsAt i ++ es.filterMap (FrameEntry.factAt? i)
    complex := f.complex ++ es.filterMap FrameEntry.complex? }

/-- A session with more entries: each goes to the frame of its argument, and to the log. -/
def Session.adding (s : Session) (es : List FrameEntry) : Session where
  frames := s.frames.mapIdx fun id frame => frame.map (·.adding (es.filter fun x => x.argument.frame = id))
  log := s.log ++ es.map FrameEntry.message

@[simp] theorem Frame.adding_nil (f : Frame) : f.adding [] = f := by
  have hsame : (List.range f.facts.length).map (fun i => f.factsAt i) = f.facts := by
    apply List.ext_getElem
    · simp
    · intro i hi hi'
      simp [Frame.factsAt, List.getElem?_eq_getElem hi']
  simp only [Frame.adding, List.foldl_nil, List.filterMap_nil, List.append_nil, hsame]

theorem Frame.enter_adding (f : Frame) (x : FrameEntry) (es : List FrameEntry) :
    (f.enter x).adding es = f.adding (x :: es) := by
  have hfacts : ∀ i, (f.enter x).factsAt i ++ es.filterMap (FrameEntry.factAt? i) =
      f.factsAt i ++ (x :: es).filterMap (FrameEntry.factAt? i) := by
    intro i
    rw [f.factsAt_enter, List.append_assoc]
    cases hx : x.factAt? i <;> simp [hx]
  have hcomplex : (f.enter x).complex ++ es.filterMap FrameEntry.complex? =
      f.complex ++ (x :: es).filterMap FrameEntry.complex? := by
    rw [f.complex_enter, List.append_assoc]
    cases hx : x.complex? <;> simp [hx]
  simp only [Frame.adding, hfacts, hcomplex, f.length_facts_enter, f.arguments_enter, f.params_enter,
    List.foldl_cons]

/-- Recording adds entries, and does nothing else. -/
theorem Session.enterAll_eq_adding (s : Session) (es : List FrameEntry) : s.enterAll es = s.adding es := by
  induction es generalizing s with
  | nil =>
    have hframes : s.frames.mapIdx (fun _ frame => frame.map fun f => f.adding []) = s.frames := by
      apply List.ext_getElem?
      intro id
      simp
    simp only [Session.enterAll_nil, Session.adding, List.filter_nil, hframes, List.map_nil,
      List.append_nil]
  | cons x es ih =>
    show (s.enter x).enterAll es = _
    rw [ih]
    have hframes : (s.enter x).frames.mapIdx
        (fun id frame => frame.map (·.adding (es.filter fun y => y.argument.frame = id))) =
          s.frames.mapIdx fun id frame =>
            frame.map (·.adding ((x :: es).filter fun y => y.argument.frame = id)) := by
      apply List.ext_getElem?
      intro id
      simp only [Session.enter, Session.updateFrame, Session.write, List.getElem?_mapIdx,
        List.getElem?_modify, List.filter_cons]
      by_cases hid : x.argument.frame = id
      · simp [hid, Function.comp_def, Frame.enter_adding]
      · simp [hid]
    unfold Session.adding
    rw [hframes]
    simp [Session.enter, Session.updateFrame, Session.write]

/-! ## Asserting -/

/-- The conjunct can be asserted in the session, and leaves the entry. -/
def Session.Takes (s : Session) (c : Expr) (x : FrameEntry) : Prop :=
  c.Records x ∧ (s.frame? x.argument.frame).isSome

/-- Why a conjunct cannot be asserted: the frame of its argument is gone, or it has no form that
could be recorded. -/
def Session.Refuses (s : Session) (c : Expr) (error : TraceError) : Prop :=
  (∃ x, c.Records x ∧ s.frame? x.argument.frame = none ∧ error = .detached x.argument.name) ∨
    (∀ x, ¬ c.Records x) ∧ ∃ shape, error = .unsupportedAssertion shape

section

variable {s : Session} {c : Expr} {x y : FrameEntry}

/-- A conjunct records one thing. -/
theorem Expr.Records.unique (hx : c.Records x) (hy : c.Records y) : x = y := by
  cases c with
  | binary op l r =>
    cases op with
    | compare op =>
      rw [Comparison.records_iff_entry?] at hx hy
      rw [hx, Option.some.injEq] at hy
      exact hy
    | _ => cases hx
  | _ => cases hx

theorem Session.Refuses.not_takes {error : TraceError} (h : s.Refuses c error) : ∀ x, ¬ s.Takes c x := by
  rintro x ⟨hx, halive⟩
  rcases h with ⟨y, hy, hgone, _⟩ | ⟨hnever, _⟩
  · rw [hx.unique hy, hgone] at halive
    cases halive
  · exact hnever x hx

theorem exists_takes_of_mem {done : List Expr} {es : List FrameEntry} (h : List.Forall₂ s.Takes done es)
    (hc : c ∈ done) : ∃ x, s.Takes c x := by
  induction h with
  | nil => cases hc
  | @cons _ x _ _ hfirst _ ih =>
    rcases List.mem_cons.1 hc with rfl | hc
    · exact ⟨x, hfirst⟩
    · exact ih hc

/-- Demands are met up to the first conjunct that is refused. -/
theorem attempt_of_conjuncts {cs : List Expr} {ds : List Demand} (h : List.Forall₂ Demand.Of cs ds) :
    ∃ done rest, cs = done ++ rest ∧ List.Forall₂ s.Takes done (attempt s.alive ds).1 ∧
      ((rest = [] ∧ (attempt s.alive ds).2 = .ok ()) ∨
        ∃ c later error, rest = c :: later ∧ s.Refuses c error ∧
          (attempt s.alive ds).2 = .error error) := by
  induction h with
  | nil => exact ⟨[], [], rfl, .nil, .inl ⟨rfl, rfl⟩⟩
  | @cons c d cs ds hfirst _ ih =>
    cases d with
    | refuse error => exact ⟨[], c :: cs, rfl, .nil, .inr ⟨c, cs, error, rfl, .inr hfirst, rfl⟩⟩
    | record x =>
      cases halive : s.alive x.argument.frame with
      | true =>
        rcases ih with ⟨done, rest, rfl, htaken, hend⟩
        simp only [attempt, halive, if_true]
        exact ⟨c :: done, rest, rfl, .cons ⟨hfirst, halive⟩ htaken, hend⟩
      | false =>
        have hgone : s.frame? x.argument.frame = none := by
          simpa [Session.alive] using halive
        simp only [attempt, halive, Bool.false_eq_true, if_false]
        exact ⟨[], c :: cs, rfl, .nil, .inr ⟨c, cs, _, rfl, .inl ⟨x, hfirst, hgone, rfl⟩, rfl⟩⟩

end

/-- Asserting a condition handles its conjuncts from left to right. Those before the first one that
is refused leave their entries, each at the end of its list, and nothing else in the session
changes. It succeeds exactly if every conjunct has one of the forms that can be recorded and the
frame of its argument is alive. Then, in every state of a script, the condition is true exactly
where all facts hold that were added. -/
theorem assertThat_records_conjuncts (s : Session) (e : Expr) :
    ∃ done rest es outcome, e.conjuncts = done ++ rest ∧ List.Forall₂ s.Takes done es ∧
      (assertThat (.symbolic e)).run.run s = (outcome, s.adding es) ∧
      ((rest = [] ∧ outcome = .ok ()) ∨
        ∃ c later error, rest = c :: later ∧ s.Refuses c error ∧ outcome = .error error) ∧
      (outcome = .ok () ↔ ∀ c ∈ e.conjuncts, ∃ x, s.Takes c x) ∧
      (outcome = .ok () → ∀ env, Script.Reached env s → e.Over s.Issued →
        ∀ σ : Assignment, IsTrue (e.eval? σ) ↔ s.NewFactsHold σ (s.adding es)) := by
  have hrun := meets_assertExpr e s
  rcases attempt_of_conjuncts (s := s) e.demands_of_conjuncts with ⟨done, rest, hsplit, htaken, hend⟩
  rw [s.enterAll_eq_adding] at hrun
  refine ⟨done, rest, (attempt s.alive e.demands).1, (attempt s.alive e.demands).2, hsplit, htaken,
    hrun, hend, ?_, ?_⟩
  · constructor
    · intro hok
      rcases hend with ⟨rfl, _⟩ | ⟨_, _, error, _, _, hfail⟩
      · intro c hc
        rw [hsplit, List.append_nil] at hc
        exact exists_takes_of_mem htaken hc
      · cases hok.symm.trans hfail
    · intro hall
      rcases hend with ⟨_, hok⟩ | ⟨c, later, error, rfl, hrefuses, _⟩
      · exact hok
      · -- the conjunct that is refused would have to be taken
        rcases hall c (hsplit ▸ List.mem_append_right _ (.head _)) with ⟨x, hx⟩
        exact absurd hx (hrefuses.not_takes x)
  · intro hok env hreached he σ
    have hreturns : Returns (assertThat (.symbolic e)) s () (s.adding (attempt s.alive e.demands).1) := by
      rw [hok] at hrun
      exact hrun
    rcases returns_assertThat.1 hreturns with ⟨fs, hfs, hholding, hadding⟩
    have hconditions : entriesOf? [.symbolic e] = some fs := by
      simp [entriesOf?, hfs]
    rw [hadding, newFactsHold_iff_holds hreached.sound.laid (by simpa [Cond.All] using he)
      hconditions hholding]
    simp [Cond.Holds]

namespace Script

/-- Three comparisons made by hand and joined to the right: of a number from its right side, of a
byte at an unknown position, and of the number with an address. -/
def handMade : List Step :=
  [.openFrame [.named "binary", .named "u8"], .op (.bytes 0 (.frame 0)), .op (.int 1 (.frame 0)),
    .op (.asInt 1), .op (.rawBinary Comparison.lt (.lit 5) (.register 2)),
    .op (.rawIndex 1 (.register 2)), .op (.rawBinary Comparison.eq (.register 5) (.lit 7)),
    .op (.rawBinary Comparison.ne (.register 2) (.register 3)),
    .op (.rawBinary Connective.and (.register 6) (.register 7)),
    .op (.rawBinary Connective.and (.register 4) (.register 8)), .op (.asCond 9)]

def handMadeCondition : Expr :=
  let address : Expr := .argument ⟨0, "arg_0", .byteArray ⟨.w32, false⟩, 0⟩
  let number : Expr := .argument ⟨2, "arg_1", .integer ⟨.w8, false⟩, 0⟩
  .binary Connective.and (.binary Comparison.lt (.lit 5) number)
    (.binary Connective.and (.binary Comparison.eq (.byteIndex address number) (.lit 7))
      (.binary Comparison.ne number address))

theorem assertThat_records_conjuncts_handMade :
    let s := (after {} Session.empty handMade).2
    (after {} Session.empty handMade).1.cond (.register 10) = .ok (.symbolic handMadeCondition) ∧
      ∃ es, (assertThat (.symbolic handMadeCondition)).run.run s = (.ok (), s.adding es) ∧
        es.map FrameEntry.message =
          [.fact "arg_1" ⟨.gt, .lit 5⟩,
            .complexFact ⟨.eq, .byteIndex (.argument ⟨0, "arg_0", .byteArray ⟨.w32, false⟩, 0⟩)
              (.argument ⟨2, "arg_1", .integer ⟨.w8, false⟩, 0⟩), .lit 7⟩,
            .fact "arg_1" ⟨.ne, .argument ⟨0, "arg_0", .byteArray ⟨.w32, false⟩, 0⟩⟩] ∧
        ∀ σ : Assignment, IsTrue (handMadeCondition.eval? σ) ↔ s.NewFactsHold σ (s.adding es) := by
  intro s
  have hreached : Reached (after {} Session.empty handMade).1 s := Reached.empty.after _
  have hcond : (after {} Session.empty handMade).1.cond (.register 10) =
      .ok (.symbolic handMadeCondition) := by
    decide +kernel
  have hissued : handMadeCondition.Over s.Issued := by
    have hregister : some (.cond (.symbolic handMadeCondition)) ∈
        (after {} Session.empty handMade).1.registers := by
      decide +kernel
    exact hreached.sound.registers _ hregister
  rcases assertThat_records_conjuncts s handMadeCondition with
    ⟨done, rest, es, outcome, _, _, hrun, _, _, htrue⟩
  have hok : ((assertThat (.symbolic handMadeCondition)).run.run s).1 = .ok () := by
    decide +kernel
  rw [hrun] at hok
  change outcome = .ok () at hok
  subst hok
  refine ⟨hcond, es, hrun, ?_, htrue rfl _ hreached hissued⟩
  have hlog : (((assertThat (.symbolic handMadeCondition)).run.run s).2.log.drop s.log.length) =
      es.map FrameEntry.message := by
    rw [hrun]
    exact List.drop_left
  rw [← hlog]
  decide +kernel

end Script

end GuardedC
