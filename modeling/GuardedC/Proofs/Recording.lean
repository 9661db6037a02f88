import GuardedC.Proofs.Returns

/-!
# What an assertion records

An assertion that succeeds leaves entries in the session, one for each conjunct and in their order.
Which ones it leaves depends on the condition alone (`Cond.entries?`), and an assertion succeeds
exactly if its condition has entries and their frames are alive (`returns_assertThat`). What becomes
of a frame is then read off the list of entries (`frame?_enterAll`, `factsAt_enterAll`,
`complex_enterAll`).
-/

namespace GuardedC

/-! ## Entries -/

/-- What one comparison leaves in a frame. -/
inductive FrameEntry where
  /-- A fact, kept with its argument. -/
  | fact (argument : Argument) (fact : Fact)
  /-- A complex fact, kept in the frame of the argument that it reads from. -/
  | complex (argument : Argument) (fact : ComplexFact)
deriving Repr, DecidableEq

namespace FrameEntry

def argument : FrameEntry → Argument
  | fact a _ => a
  | complex a _ => a

def message : FrameEntry → Message
  | fact a f => .fact a.name f
  | complex _ f => .complexFact f

/-- The fact about the argument at a position, if this is one. -/
def factAt? (index : Nat) : FrameEntry → Option Fact
  | fact a f => if a.index = index then some f else none
  | complex _ _ => none

def complex? : FrameEntry → Option ComplexFact
  | fact _ _ => none
  | complex _ f => some f

/-- How long the table of facts has to be. -/
def rows : FrameEntry → Nat
  | fact a _ => a.index + 1
  | complex _ _ => 0

theorem rows_le (x : FrameEntry) : x.rows ≤ x.argument.index + 1 := by
  cases x with
  | fact a f => exact Nat.le_refl _
  | complex a f => exact Nat.zero_le _

end FrameEntry

def Frame.enter (f : Frame) : FrameEntry → Frame
  | .fact a fact => f.record a.index fact
  | .complex _ fact => f.recordComplex fact

def Frame.enterAll (f : Frame) (es : List FrameEntry) : Frame := es.foldl Frame.enter f

def Session.enter (s : Session) (x : FrameEntry) : Session :=
  (s.write x.message).updateFrame x.argument.frame (·.enter x)

def Session.enterAll (s : Session) (es : List FrameEntry) : Session := es.foldl Session.enter s

/-- The frames of all entries are alive. -/
def Session.Holding (s : Session) (es : List FrameEntry) : Prop :=
  ∀ x ∈ es, (s.frame? x.argument.frame).isSome

instance (s : Session) (es : List FrameEntry) : Decidable (s.Holding es) :=
  inferInstanceAs (Decidable (∀ x ∈ es, _))

/-! ## The entries of a condition -/

/-- The entry of a comparison: about the left side if that is an argument, else about the right
side; a byte compared with a known integer makes a complex fact. -/
def Comparison.entry? (op : Comparison) (l r : Expr) : Option FrameEntry :=
  match l, r with
  | .argument a, _ => some (.fact a ⟨op, r⟩)
  | _, .argument a => some (.fact a ⟨op.reverse, l⟩)
  | .byteIndex _ _, .lit _ => l.root?.map (.complex · ⟨op, l, r⟩)
  | .lit _, .byteIndex _ _ => r.root?.map (.complex · ⟨op, l, r⟩)
  | _, _ => none

/-- The entries of a symbolic condition, those of the left conjunct first. -/
def Expr.entries? : Expr → Option (List FrameEntry)
  | .binary (.connect .and) l r => do
    let ls ← l.entries?
    let rs ← r.entries?
    return ls ++ rs
  | .binary (.compare op) l r => do
    let x ← op.entry? l r
    return [x]
  | _ => none

/-- The entries of a condition. One that is known to fail has no entries, nor has one that no
assertion can record. -/
def Cond.entries? : Cond → Option (List FrameEntry)
  | .known true => some []
  | .known false => none
  | .symbolic e => e.entries?

/-- The entries of conditions asserted one after the other. -/
def entriesOf? : List Cond → Option (List FrameEntry)
  | [] => some []
  | c :: cs => do
    let xs ← c.entries?
    let ys ← entriesOf? cs
    return xs ++ ys

section

variable {c : Cond} {cs ds : List Cond} {es fs : List FrameEntry}

theorem entriesOf?_cons :
    entriesOf? (c :: cs) = some es ↔
      ∃ xs, c.entries? = some xs ∧ ∃ ys, entriesOf? cs = some ys ∧ xs ++ ys = es := by
  simp only [entriesOf?, Option.bind_eq_bind, Option.bind_eq_some_iff, Option.pure_def, Option.some.injEq]

theorem entriesOf?_append_eq_some :
    entriesOf? (cs ++ ds) = some es ↔
      ∃ xs, entriesOf? cs = some xs ∧ ∃ ys, entriesOf? ds = some ys ∧ xs ++ ys = es := by
  induction cs generalizing es with
  | nil => simp [entriesOf?]
  | cons c cs ih =>
    rw [List.cons_append, entriesOf?_cons]
    simp only [ih, entriesOf?_cons]
    constructor
    · rintro ⟨xs, hxs, _, ⟨ys, hys, zs, hzs, rfl⟩, rfl⟩
      exact ⟨xs ++ ys, ⟨xs, hxs, ys, hys, rfl⟩, zs, hzs, List.append_assoc xs ys zs⟩
    · rintro ⟨_, ⟨xs, hxs, ys, hys, rfl⟩, zs, hzs, rfl⟩
      exact ⟨xs, hxs, ys ++ zs, ⟨ys, hys, zs, hzs, rfl⟩, (List.append_assoc xs ys zs).symm⟩

theorem entriesOf?_append (hc : entriesOf? cs = some es) (hd : entriesOf? ds = some fs) :
    entriesOf? (cs ++ ds) = some (es ++ fs) :=
  entriesOf?_append_eq_some.2 ⟨es, hc, fs, hd, rfl⟩

/-- The entries of each condition are among those of all. -/
theorem mem_entriesOf? (h : entriesOf? cs = some es) (hc : c ∈ cs) :
    ∃ xs, c.entries? = some xs ∧ xs ⊆ es := by
  induction cs generalizing es with
  | nil => cases hc
  | cons d ds ih =>
    rcases entriesOf?_cons.1 h with ⟨xs, hxs, ys, hys, rfl⟩
    rcases List.mem_cons.1 hc with rfl | hc
    · exact ⟨xs, hxs, List.subset_append_left xs ys⟩
    · rcases ih hys hc with ⟨zs, hzs, hsub⟩
      exact ⟨zs, hzs, List.subset_append_of_subset_right xs hsub⟩

/-- Each entry is one of some condition. -/
theorem exists_of_mem_entriesOf? (h : entriesOf? cs = some es) {x : FrameEntry} (hx : x ∈ es) :
    ∃ c ∈ cs, ∃ xs, c.entries? = some xs ∧ x ∈ xs := by
  induction cs generalizing es with
  | nil =>
    cases h
    cases hx
  | cons c cs ih =>
    rcases entriesOf?_cons.1 h with ⟨xs, hxs, ys, hys, rfl⟩
    rcases List.mem_append.1 hx with hx | hx
    · exact ⟨c, .head _, xs, hxs, hx⟩
    · rcases ih hys hx with ⟨d, hd, zs, hzs, hx⟩
      exact ⟨d, .tail _ hd, zs, hzs, hx⟩

end

/-! ## Frames of a session -/

namespace Session

theorem frame?_updateFrame (s : Session) (id j : FrameId) (f : Frame → Frame) :
    (s.updateFrame id f).frame? j = if id = j then (s.frame? j).map f else s.frame? j := by
  unfold frame? updateFrame
  rw [List.getElem?_modify]
  split
  · cases s.frames[j]? with
    | none => rfl
    | some g => cases g <;> rfl
  · cases s.frames[j]? <;> rfl

@[simp] theorem frame?_write (s : Session) (m : Message) (id : FrameId) :
    (s.write m).frame? id = s.frame? id := rfl

theorem frame?_enter (s : Session) (x : FrameEntry) (id : FrameId) :
    (s.enter x).frame? id =
      if x.argument.frame = id then (s.frame? id).map (·.enter x) else s.frame? id := by
  unfold enter
  rw [frame?_updateFrame, frame?_write]

@[simp] theorem length_frames_enterAll (s : Session) (es : List FrameEntry) :
    (s.enterAll es).frames.length = s.frames.length := by
  induction es generalizing s with
  | nil => rfl
  | cons x es ih =>
    show ((s.enter x).enterAll es).frames.length = _
    rw [ih]
    simp [enter, updateFrame, write]

@[simp] theorem enterAll_nil (s : Session) : s.enterAll [] = s := rfl

theorem enterAll_append (s : Session) (es fs : List FrameEntry) :
    s.enterAll (es ++ fs) = (s.enterAll es).enterAll fs := by
  unfold enterAll
  rw [List.foldl_append]

/-- Entries reach the frame that they belong to, and no other. -/
theorem frame?_enterAll (s : Session) (es : List FrameEntry) (id : FrameId) :
    (s.enterAll es).frame? id =
      (s.frame? id).map (·.enterAll (es.filter fun x => x.argument.frame = id)) := by
  induction es generalizing s with
  | nil => simp [Frame.enterAll]
  | cons x es ih =>
    show ((s.enter x).enterAll es).frame? id = _
    rw [ih, frame?_enter]
    by_cases hx : x.argument.frame = id
    · simp only [hx, if_true, Option.map_map, decide_true, List.filter_cons_of_pos]
      rfl
    · simp [hx]

theorem frameOf_enterAll {s : Session} {id : FrameId} {f : Frame} (h : s.frame? id = some f)
    (es : List FrameEntry) :
    (s.enterAll es).frameOf id = f.enterAll (es.filter fun x => x.argument.frame = id) := by
  rw [frameOf, frame?_enterAll, h]
  rfl

/-- Recording neither makes frames nor drops them. -/
theorem isSome_frame?_enterAll (s : Session) (es : List FrameEntry) (id : FrameId) :
    ((s.enterAll es).frame? id).isSome = (s.frame? id).isSome := by
  rw [frame?_enterAll, Option.isSome_map]

theorem holding_enterAll (s : Session) (es fs : List FrameEntry) :
    (s.enterAll es).Holding fs ↔ s.Holding fs := by
  simp only [Holding, isSome_frame?_enterAll]

theorem holding_append {s : Session} {es fs : List FrameEntry} :
    s.Holding (es ++ fs) ↔ s.Holding es ∧ (s.enterAll es).Holding fs := by
  rw [holding_enterAll]
  simp only [Holding, List.mem_append, or_imp, forall_and]

end Session

/-! ## What the session is told -/

section

variable {s s' : Session} {u : Unit}

/-- Both ways of recording look whether the frame is alive, then write to the log and change the
frame. -/
theorem returns_keep {arg : Argument} {m : Message} {g : Frame → Frame} :
    Returns (do
        if ((← get).frame? arg.frame).isNone then throw (.detached arg.name)
        say m
        modify (·.updateFrame arg.frame g) : Tracing Unit) s u s' ↔
      (s.frame? arg.frame).isSome ∧ s' = (s.write m).updateFrame arg.frame g := by
  rw [returns_bind]
  simp only [returns_get, and_assoc, exists_and_left, exists_eq_left]
  cases s.frame? arg.frame with
  | none => simp
  | some f => simp

theorem returns_record {arg : Argument} {fact : Fact} :
    Returns (record arg fact) s u s' ↔
      (s.frame? arg.frame).isSome ∧ s' = s.enter (.fact arg fact) :=
  returns_keep

theorem returns_recordComplex {arg : Argument} {fact : ComplexFact} :
    Returns (recordComplex arg fact) s u s' ↔
      (s.frame? arg.frame).isSome ∧ s' = s.enter (.complex arg fact) :=
  returns_keep

/-- A complex fact goes to the frame of the argument that its byte is read from. -/
theorem returns_root {read : Expr} {fact : ComplexFact} {e : TraceError} :
    Returns (match read.root? with
        | some arg => recordComplex arg fact
        | none => throw e) s u s' ↔
      ∃ x, read.root?.map (FrameEntry.complex · fact) = some x ∧
        (s.frame? x.argument.frame).isSome ∧ s' = s.enter x := by
  cases read.root? with
  | none => simp
  | some arg => simp [returns_recordComplex, FrameEntry.argument]

theorem returns_assertComparison {op : Comparison} {l r : Expr} :
    Returns (assertComparison op l r) s u s' ↔
      ∃ x, op.entry? l r = some x ∧ (s.frame? x.argument.frame).isSome ∧ s' = s.enter x := by
  unfold assertComparison
  split
  · simp [returns_record, Comparison.entry?, FrameEntry.argument]
  · -- an argument on the right is recorded only if there is none on the left
    rename_i arg hleft
    rw [returns_record]
    have hentry : op.entry? l (.argument arg) = some (.fact arg ⟨op.reverse, l⟩) := by
      cases l with
      | argument a => exact absurd rfl (hleft a)
      | lit _ => rfl
      | binary _ _ _ => rfl
      | byteIndex _ _ => rfl
      | byteSlice _ _ _ => rfl
    simp [hentry, FrameEntry.argument]
  · exact returns_root
  · exact returns_root
  · rename_i h₁ h₂ h₃ h₄
    simp only [returns_throw, false_iff]
    rintro ⟨x, hx, -⟩
    unfold Comparison.entry? at hx
    split at hx
    · exact h₁ _ rfl
    · exact h₂ _ rfl
    · exact h₃ _ _ _ rfl rfl
    · exact h₄ _ _ _ rfl rfl
    · cases hx

/-- A literal is no conjunct, so a conjunction is asserted if one side after the other is. -/
theorem returns_assertExpr_and {l r : Expr} :
    Returns (assertExpr (.binary (.connect .and) l r)) s u s' ↔
      ∃ s₁, Returns (assertExpr l) s () s₁ ∧ Returns (assertExpr r) s₁ () s' := by
  have hliteral : ∀ {e : Expr} {s s' : Session}, Returns (assertExpr e) s () s' → ¬ e.isLiteral := by
    intro e s s' h
    cases e with
    | lit v => exact absurd h returns_throw
    | argument _ => simp [Expr.isLiteral, Expr.literal?]
    | binary _ _ _ => simp [Expr.isLiteral, Expr.literal?]
    | byteIndex _ _ => simp [Expr.isLiteral, Expr.literal?]
    | byteSlice _ _ _ => simp [Expr.isLiteral, Expr.literal?]
  rw [assertExpr]
  constructor
  · intro h
    by_cases hl : l.isLiteral
    · simp [hl] at h
    · by_cases hr : r.isLiteral
      · simp [hl, hr] at h
      · simp only [hl, hr, Bool.false_eq_true, if_false, returns_bind] at h
        obtain ⟨⟨⟩, s₁, hleft, hright⟩ := h
        exact ⟨s₁, hleft, hright⟩
  · rintro ⟨s₁, hl, hr⟩
    simp only [hliteral hl, hliteral hr, Bool.false_eq_true, if_false, returns_bind]
    exact ⟨(), s₁, hl, hr⟩

theorem returns_assertExpr {e : Expr} :
    Returns (assertExpr e) s u s' ↔
      ∃ es, e.entries? = some es ∧ s.Holding es ∧ s' = s.enterAll es := by
  fun_induction Expr.entries? e generalizing s s' with
  | case1 l r ihl ihr =>
    rw [returns_assertExpr_and]
    constructor
    · rintro ⟨s₁, hl, hr⟩
      obtain ⟨ls, hls, hlive, rfl⟩ := ihl.1 hl
      obtain ⟨rs, hrs, hrive, rfl⟩ := ihr.1 hr
      refine ⟨ls ++ rs, by simp [hls, hrs], Session.holding_append.2 ⟨hlive, hrive⟩, ?_⟩
      rw [Session.enterAll_append]
    · rintro ⟨es, hes, hlive, rfl⟩
      simp only [Option.bind_eq_bind, Option.bind_eq_some_iff, Option.pure_def, Option.some.injEq] at hes
      obtain ⟨ls, hls, rs, hrs, rfl⟩ := hes
      obtain ⟨hll, hlr⟩ := Session.holding_append.1 hlive
      refine ⟨s.enterAll ls, ihl.2 ⟨ls, hls, hll, rfl⟩, ihr.2 ⟨rs, hrs, hlr, ?_⟩⟩
      rw [Session.enterAll_append]
  | case2 op l r =>
    -- a comparison leaves one entry, or none that could be recorded
    rw [assertExpr, returns_assertComparison]
    cases op.entry? l r with
    | none => simp
    | some x => simp [Session.Holding, Session.enterAll]
  | case3 e hand hcompare =>
    rw [assertExpr]
    · simp
    · exact hand
    · exact hcompare

theorem returns_assertThat {c : Cond} :
    Returns (assertThat c) s u s' ↔
      ∃ es, c.entries? = some es ∧ s.Holding es ∧ s' = s.enterAll es := by
  unfold assertThat Cond.entries?
  split
  · simp [Session.Holding]
  · simp
  · exact returns_assertExpr

theorem returns_assertAll {cs : List Cond} :
    Returns (assertAll cs) s u s' ↔
      ∃ es, entriesOf? cs = some es ∧ s.Holding es ∧ s' = s.enterAll es := by
  induction cs generalizing s with
  | nil => simp [assertAll, entriesOf?, Session.Holding]
  | cons c cs ih =>
    rw [assertAll, returns_bind]
    constructor
    · rintro ⟨_, s₁, hc, hcs⟩
      obtain ⟨xs, hxs, hlive, rfl⟩ := returns_assertThat.1 hc
      obtain ⟨ys, hys, hrest, rfl⟩ := ih.1 hcs
      refine ⟨xs ++ ys, by simp [entriesOf?, hxs, hys], Session.holding_append.2 ⟨hlive, hrest⟩, ?_⟩
      rw [Session.enterAll_append]
    · rintro ⟨es, hes, hlive, rfl⟩
      rcases entriesOf?_cons.1 hes with ⟨xs, hxs, ys, hys, rfl⟩
      obtain ⟨hx, hy⟩ := Session.holding_append.1 hlive
      refine ⟨(), s.enterAll xs, returns_assertThat.2 ⟨xs, hxs, hx, rfl⟩, ih.2 ⟨ys, hys, hy, ?_⟩⟩
      rw [Session.enterAll_append]

theorem returns_assert {α : Type} {x : Provided α} {a : α} :
    Returns x.assert s a s' ↔
      a = x.value ∧ ∃ es, entriesOf? x.conditions = some es ∧ s.Holding es ∧ s' = s.enterAll es := by
  unfold Provided.assert
  simp only [returns_bind, returns_pure, returns_assertAll]
  constructor
  · rintro ⟨_, s₁, h, rfl, rfl⟩
    exact ⟨rfl, h⟩
  · rintro ⟨rfl, h⟩
    exact ⟨(), s', h, rfl, rfl⟩

end

/-! ## What the frame keeps -/

namespace Frame

@[simp] theorem arguments_enter (f : Frame) (x : FrameEntry) : (f.enter x).arguments = f.arguments := by
  cases x <;> rfl

@[simp] theorem params_enter (f : Frame) (x : FrameEntry) : (f.enter x).params = f.params := by
  cases x <;> rfl

theorem complex_enter (f : Frame) (x : FrameEntry) :
    (f.enter x).complex = f.complex ++ x.complex?.toList := by
  cases x <;> simp [enter, record, recordComplex, FrameEntry.complex?]

theorem length_facts_record (f : Frame) (index : Nat) (fact : Fact) :
    (f.record index fact).facts.length = max f.facts.length (index + 1) := by
  simp only [record, List.length_modify, List.length_append, List.length_replicate]
  omega

theorem factsAt_record (f : Frame) (index i : Nat) (fact : Fact) :
    (f.record index fact).factsAt i = f.factsAt i ++ if index = i then [fact] else [] := by
  -- a list that is added to the table holds what a missing one is taken to hold
  have hpadded : (f.facts ++ List.replicate (index + 1 - f.facts.length) [])[i]?.getD [] = f.factsAt i := by
    by_cases hi : i < f.facts.length
    · rw [List.getElem?_append_left hi, factsAt]
    · rw [List.getElem?_append_right (Nat.le_of_not_lt hi), factsAt,
        List.getElem?_eq_none (Nat.le_of_not_lt hi)]
      simp only [List.getElem?_replicate]
      split <;> rfl
  rw [← hpadded, factsAt, record, List.getElem?_modify]
  by_cases hindex : index = i
  · subst hindex
    have hreached : index < (f.facts ++ List.replicate (index + 1 - f.facts.length) []).length := by
      rw [List.length_append, List.length_replicate]
      omega
    simp [List.getElem?_eq_getElem hreached]
  · simp [hindex]

/-- A fact is added at the position of its argument, after those that are there. -/
theorem factsAt_enter (f : Frame) (x : FrameEntry) (i : Nat) :
    (f.enter x).factsAt i = f.factsAt i ++ (x.factAt? i).toList := by
  cases x with
  | fact a fact =>
    show (f.record a.index fact).factsAt i = _
    rw [factsAt_record, FrameEntry.factAt?]
    split <;> rfl
  | complex a fact => simp [enter, recordComplex, factsAt, FrameEntry.factAt?]

theorem length_facts_enter (f : Frame) (x : FrameEntry) :
    (f.enter x).facts.length = max f.facts.length x.rows := by
  cases x with
  | fact a fact => exact f.length_facts_record a.index fact
  | complex a fact => exact (Nat.max_zero _).symm

@[simp] theorem arguments_enterAll (f : Frame) (es : List FrameEntry) :
    (f.enterAll es).arguments = f.arguments := by
  induction es generalizing f with
  | nil => rfl
  | cons x es ih => exact (ih (f.enter x)).trans (f.arguments_enter x)

@[simp] theorem params_enterAll (f : Frame) (es : List FrameEntry) : (f.enterAll es).params = f.params := by
  induction es generalizing f with
  | nil => rfl
  | cons x es ih => exact (ih (f.enter x)).trans (f.params_enter x)

/-- There is one list of facts for each argument. -/
def Tabled (f : Frame) : Prop := f.facts.length = f.arguments.length

/-- Facts about the arguments of the frame go to lists that are there. -/
theorem Tabled.enter {f : Frame} (hf : f.Tabled) {x : FrameEntry}
    (hx : x.argument.index < f.arguments.length) :
    (f.enter x).Tabled := by
  have hrows : x.rows ≤ f.facts.length := Nat.le_trans x.rows_le (hf ▸ hx)
  rw [Tabled, length_facts_enter, Nat.max_eq_left hrows, arguments_enter]
  exact hf

theorem Tabled.enterAll {f : Frame} (hf : f.Tabled) {es : List FrameEntry}
    (hes : ∀ x ∈ es, x.argument.index < f.arguments.length) : (f.enterAll es).Tabled := by
  induction es generalizing f with
  | nil => exact hf
  | cons x es ih =>
    rcases List.forall_mem_cons.1 hes with ⟨hx, hes⟩
    refine ih (hf.enter hx) ?_
    rw [arguments_enter]
    exact hes

theorem complex_enterAll (f : Frame) (es : List FrameEntry) :
    (f.enterAll es).complex = f.complex ++ es.filterMap FrameEntry.complex? := by
  induction es generalizing f with
  | nil => simp [enterAll]
  | cons x es ih =>
    refine (ih (f.enter x)).trans ?_
    rw [complex_enter, List.append_assoc]
    cases hx : x.complex? <;> simp [hx]

theorem factsAt_enterAll (f : Frame) (es : List FrameEntry) (i : Nat) :
    (f.enterAll es).factsAt i = f.factsAt i ++ es.filterMap (FrameEntry.factAt? i) := by
  induction es generalizing f with
  | nil => simp [enterAll]
  | cons x es ih =>
    refine (ih (f.enter x)).trans ?_
    rw [factsAt_enter f x, List.append_assoc]
    cases hx : x.factAt? i <;> simp [hx]

theorem factsAt_ofSlots (slots : List Slot) (i : Nat) : (ofSlots slots).factsAt i = [] := by
  simp only [ofSlots, factsAt, List.getElem?_map]
  cases (slots.flatMap Slot.arguments)[i]? <;> rfl

/-- A new frame has the facts that were entered. -/
theorem factsAt_ofSlots_enterAll (slots : List Slot) (es : List FrameEntry) (i : Nat) :
    ((ofSlots slots).enterAll es).factsAt i = es.filterMap (FrameEntry.factAt? i) := by
  rw [factsAt_enterAll, factsAt_ofSlots, List.nil_append]

end Frame

end GuardedC
