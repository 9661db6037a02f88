import GuardedC.Proofs.Compiled

/-!
# Guards are exact

The guard of a function that was compiled from checked steps is true exactly where every condition
that was asserted on the way holds. The argument has three parts:

* everything that checked steps compute is `Expr.Proper`: it refers to the arguments of its own
  frame, and a byte array never stands where an integer is meant;
* so all that is recorded for the asserted conditions goes to the frame of the trace, as facts about
  integer arguments or as complex facts (`entries_of_trace`);
* a function is compiled only without complex facts, and then its guard speaks of all the others.
-/

namespace GuardedC

/-! ## Arguments of expressions -/

/-- The arguments that stand for an integer, not for the bytes they point to. -/
def Expr.scalars : Expr → List Argument
  | lit _ => []
  | argument a => [a]
  | binary _ l r => l.scalars ++ r.scalars
  | byteIndex _ key => key.scalars
  | byteSlice _ start length => start.scalars ++ length.scalars

/-- The expression refers to some arguments only, and takes integers for integers only. -/
structure Expr.Proper (args : List Argument) (e : Expr) : Prop where
  leaves : ∀ a ∈ e.leaves, a ∈ args
  scalars : ∀ a ∈ e.scalars, ∃ type, a.ty = .integer type

structure Bytes.Proper (args : List Argument) (b : Bytes) : Prop where
  consistent : b.Consistent
  array : ArrayIn args b.source b.sourceLength
  start : b.start.Proper args
  length : b.length.Proper args

section

variable {args : List Argument}

theorem Expr.proper_binary {op : Operator} {l r : Expr} :
    (Expr.binary op l r).Proper args ↔ l.Proper args ∧ r.Proper args := by
  constructor
  · intro h
    exact ⟨⟨fun a ha => h.leaves a (List.mem_append_left _ ha),
      fun a ha => h.scalars a (List.mem_append_left _ ha)⟩,
      ⟨fun a ha => h.leaves a (List.mem_append_right _ ha),
      fun a ha => h.scalars a (List.mem_append_right _ ha)⟩⟩
  · rintro ⟨hl, hr⟩
    refine ⟨?_, ?_⟩
    · intro a ha
      exact (List.mem_append.1 ha).elim (hl.leaves a) (hr.leaves a)
    · intro a ha
      exact (List.mem_append.1 ha).elim (hl.scalars a) (hr.scalars a)

theorem Expr.proper_argument {a : Argument} {type : IntegerType} (ha : a ∈ args)
    (htype : a.ty = .integer type) : (Expr.argument a).Proper args := by
  refine ⟨?_, ?_⟩
  · intro b hb
    rw [List.mem_singleton.1 hb]
    exact ha
  · intro b hb
    rw [List.mem_singleton.1 hb]
    exact ⟨type, htype⟩

theorem Expr.proper_lit (v : Int) : (Expr.lit v).Proper args :=
  ⟨by simp [Expr.leaves], by simp [Expr.scalars]⟩

theorem ArrayIn.proper_size {data size : Argument} (h : ArrayIn args data size) :
    (Expr.argument size).Proper args := by
  obtain ⟨type, _, _, htype⟩ := h.typed
  exact Expr.proper_argument h.size_mem htype

/-- What checked operations make of proper values is proper. -/
theorem closed_proper : Closed (fun _ => True) (Expr.Proper args) (Bytes.Proper args) where
  lit := Expr.proper_lit
  binary hl hr := Expr.proper_binary.2 ⟨hl, hr⟩
  arrayLength hb := by
    rw [hb.consistent.arrayLength]
    exact hb.array.proper_size
  bounds hb := ⟨hb.start, hb.length⟩
  byteAt hb hkey _ := by
    rw [hb.consistent.value_byteAt]
    refine ⟨?_, hkey.scalars⟩
    intro a ha
    rcases List.mem_append.1 ha with ha | ha
    · rw [List.mem_singleton.1 ha]
      exact hb.array.data_mem
    · exact hkey.leaves a ha
  slice hb hstart hlength _ := ⟨hb.consistent.slice _ _, hb.array, hstart, hlength⟩

theorem Param.In.proper {p : Param} (h : p.In args) :
    p.toValue.All (Expr.Proper args) (Bytes.Proper args) := by
  cases p with
  | int e =>
    obtain ⟨a, ha, ⟨type, htype⟩, rfl⟩ := h
    exact Expr.proper_argument ha htype
  | bytes b =>
    obtain ⟨data, size, harray, rfl⟩ := h
    exact ⟨Bytes.consistent_array data size, harray, Expr.proper_lit 0, harray.proper_size⟩

/-! ## What is recorded of proper conditions -/

/-- A fact about an integer argument, or a complex fact. -/
def FrameEntry.Proper (args : List Argument) : FrameEntry → Prop
  | .fact a _ => a ∈ args ∧ ∃ type, a.ty = .integer type
  | .complex a _ => a ∈ args

theorem FrameEntry.Proper.argument_mem {x : FrameEntry} (h : x.Proper args) : x.argument ∈ args := by
  cases x with
  | fact a f => exact h.1
  | complex a f => exact h

theorem Comparison.proper_entry {op : Comparison} {l r : Expr} {x : FrameEntry} (hl : l.Proper args)
    (hr : r.Proper args) (h : op.entry? l r = some x) : x.Proper args := by
  unfold Comparison.entry? at h
  split at h
  · cases h
    exact ⟨hl.leaves _ (.head _), hl.scalars _ (.head _)⟩
  · cases h
    exact ⟨hr.leaves _ (.head _), hr.scalars _ (.head _)⟩
  · obtain ⟨a, ha, rfl⟩ := Option.map_eq_some_iff.1 h
    exact hl.leaves a (Expr.mem_leaves_of_root? ha)
  · obtain ⟨a, ha, rfl⟩ := Option.map_eq_some_iff.1 h
    exact hr.leaves a (Expr.mem_leaves_of_root? ha)
  · cases h

theorem Expr.proper_entries {e : Expr} {es : List FrameEntry} (he : e.Proper args)
    (h : e.entries? = some es) :
    ∀ x ∈ es, x.Proper args := by
  fun_induction Expr.entries? e generalizing es with
  | case1 l r ihl ihr =>
    simp only [Option.bind_eq_bind, Option.bind_eq_some_iff, Option.pure_def, Option.some.injEq] at h
    obtain ⟨ls, hls, rs, hrs, rfl⟩ := h
    obtain ⟨hl, hr⟩ := Expr.proper_binary.1 he
    intro x hx
    exact (List.mem_append.1 hx).elim (ihl hl hls x) (ihr hr hrs x)
  | case2 op l r =>
    simp only [Option.bind_eq_bind, Option.bind_eq_some_iff, Option.pure_def, Option.some.injEq] at h
    obtain ⟨x, hx, rfl⟩ := h
    obtain ⟨hl, hr⟩ := Expr.proper_binary.1 he
    intro y hy
    rw [List.mem_singleton.1 hy]
    exact Comparison.proper_entry hl hr hx
  | case3 e _ _ => cases h

theorem proper_entriesOf {cs : List Cond} {es : List FrameEntry} (hcs : ∀ c ∈ cs, c.All (Expr.Proper args))
    (h : entriesOf? cs = some es) : ∀ x ∈ es, x.Proper args := by
  intro x hx
  rcases exists_of_mem_entriesOf? h hx with ⟨c, hc, xs, hxs, hx⟩
  have hproper := hcs c hc
  cases c with
  | known b =>
    cases b with
    | false => cases hxs
    | true =>
      cases hxs
      cases hx
  | symbolic e => exact Expr.proper_entries hproper hxs x hx

end

/-! ## The frame of a checked trace -/

/-- Where all entries are for a frame that was just made, the frame has them after the facts about
lengths. -/
theorem Session.Opened.frameOf_enterAll {tys : List Ty} {slots : List Slot} {s start : Session}
    {id : FrameId} {es : List FrameEntry} (h : Session.Opened tys slots s start id)
    (hown : ∀ x ∈ es, x.argument.frame = id) :
    (start.enterAll es).frameOf id = (Frame.ofSlots slots).enterAll (lengthEntries slots ++ es) := by
  rw [Session.frameOf_enterAll h.frame, List.filter_eq_self.2 fun x hx => decide_eq_true (hown x hx)]
  simp [Frame.enterAll]

namespace Script

variable {name : String} {params : List Ty} {steps : List Step} {s s' : Session} {t : Trace}

/-- The frame of a checked trace holds what the asserted conditions record, and nothing else. -/
theorem entries_of_trace (hchecked : ∀ step ∈ steps, step.Checked)
    (h : Returns (takeTrace name params steps) s t s') :
    ∃ es, entriesOf? t.asserted = some es ∧ (∀ x ∈ es, x.Proper t.frame.arguments) ∧
      t.frame.complex = es.filterMap FrameEntry.complex? ∧
        ∀ a ∈ t.frame.arguments, t.frame.factsAt a.index = es.filterMap (FrameEntry.factAt? a.index) := by
  obtain ⟨_, hproper⟩ := all_of_trace h closed_proper (fun step hstep => (hchecked step hstep).keeps)
    (fun p hp => hp.proper) fun _ _ => trivial
  have hsig := signature_of_trace h
  obtain ⟨start, slots, hopened, hrun, hframe, hasserted⟩ := returns_trace h
  obtain ⟨es, hes, rfl⟩ := run_checked hchecked hrun
  have hentries : entriesOf? t.asserted = some (lengthEntries slots ++ es) := by
    rw [hasserted]
    exact entriesOf?_append hopened.layout.entriesOf?_lengthConditions hes
  have hall := proper_entriesOf hproper hentries
  -- no entry goes to another frame
  have hown : ∀ x ∈ es, x.argument.frame = t.id := fun x hx =>
    hsig.frame _ (hall x (List.mem_append_right _ hx)).argument_mem
  have hfinal : t.frame = (Frame.ofSlots slots).enterAll (lengthEntries slots ++ es) :=
    hframe.trans (hopened.frameOf_enterAll hown)
  refine ⟨lengthEntries slots ++ es, hentries, hall, ?_, ?_⟩
  · rw [hfinal, Frame.complex_enterAll]
    rfl
  · intro a _
    rw [hfinal]
    exact Frame.factsAt_ofSlots_enterAll slots _ a.index

/-- Where a function is compiled, the facts about integer arguments are all that was asserted. -/
theorem satisfied_iff_asserted (hchecked : ∀ step ∈ steps, step.Checked)
    (h : Returns (takeTrace name params steps) s t s') {returns : Ty} {value : Value} {unit : CFunction}
    (hcompiled : Compiled t returns value unit) (σ : Assignment) :
    t.frame.Satisfied σ ↔ ∀ c ∈ t.asserted, c.Holds σ := by
  obtain ⟨es, hes, hproper, hcomplex, hfacts⟩ := entries_of_trace hchecked h
  rw [holds_iff_entriesOf hes]
  constructor
  · intro hsatisfied x hx
    cases x with
    | fact a f =>
      obtain ⟨ha, type, htype⟩ := hproper _ hx
      have hmem : f ∈ t.frame.factsAt a.index := by
        rw [hfacts a ha]
        exact List.mem_filterMap.2 ⟨_, hx, if_pos rfl⟩
      exact (hsatisfied a ha type htype f hmem).holds
    | complex a f =>
      -- a complex fact would have kept the function from being compiled
      rw [hcompiled.complex, eq_comm, List.filterMap_eq_nil_iff] at hcomplex
      cases hcomplex _ hx
  · intro hholds a ha type htype fact hfact
    obtain ⟨w, hw⟩ := hcompiled.literal ha htype fact hfact
    -- the fact came from an entry about an argument at this position, which is `a`
    rw [hfacts a ha] at hfact
    obtain ⟨x, hx, hfactAt⟩ := List.mem_filterMap.1 hfact
    cases x with
    | fact b f =>
      simp only [FrameEntry.factAt?, Option.ite_none_right_eq_some, Option.some.injEq] at hfactAt
      obtain ⟨hindex, rfl⟩ := hfactAt
      obtain rfl := (signature_of_trace h).eq_of_index (hproper _ hx).1 ha hindex
      exact (hholds _ hx).admits hw
    | complex b f => cases hfactAt

/-- The guard of a compiled function, read as a C expression over the integers, is true exactly if
every condition that was asserted while tracing holds. -/
theorem guard_true_iff_asserted {options : Options} {returns : Ty} {result : Option Nat} {unit : CFunction}
    (hchecked : ∀ step ∈ steps, step.Checked)
    (h : Returns (compile options name params returns steps result) s unit s') :
    ∃ t s₁, Returns (takeTrace name params steps) s t s₁ ∧
      ∃ guard, CExpr.parse unit.guard = some guard ∧
        ∀ σ : Assignment, σ.Represents t.frame.arguments →
          ∃ v, guard.eval? (σ.names t.frame.arguments) = some v ∧
            (v ≠ 0 ↔ ∀ c ∈ t.asserted, c.Holds σ) := by
  obtain ⟨t, s₁, value, htrace, _, hcompiled⟩ := compiled_of_returns h
  obtain ⟨guard, hparse, hguard⟩ := hcompiled.guard
  refine ⟨t, s₁, htrace, guard, hparse, ?_⟩
  intro σ hσ
  exact (hguard σ hσ).congr (satisfied_iff_asserted hchecked htrace hcompiled σ)

/-- Two values of a number are excluded, and a word is read from an array. -/
def holesAndWord : List Step :=
  [.op (.int 0 .given), .op (.compare .ne (.register 0) (.lit 10)), .op (.assert (.register 1)),
    .op (.compare .ne (.register 0) (.lit 20)), .op (.assert (.register 3)),
    .op (.bytes 1 .given), .op (.read (.word16 .little) 5 (.lit 2))]

theorem guard_true_iff_asserted_holesAndWord :
    (∀ step ∈ holesAndWord, step.Checked) ∧
      ∃ unit s', Returns (compile {} "f" [.integer ⟨.w32, false⟩, .byteArray ⟨.w32, false⟩] .void
          holesAndWord none) Session.empty unit s' ∧
        unit.guard = "(((arg_0 < 10 || 11 <= arg_0 && arg_0 < 20) || arg_0 >= 21) && arg_1_len >= 4)" ∧
        ∃ t s₁, Returns (takeTrace "f" [.integer ⟨.w32, false⟩, .byteArray ⟨.w32, false⟩] holesAndWord)
            Session.empty t s₁ ∧
          ∃ guard, CExpr.parse unit.guard = some guard ∧
            ∀ σ : Assignment, σ.Represents t.frame.arguments →
              ∃ v, guard.eval? (σ.names t.frame.arguments) = some v ∧
                (v ≠ 0 ↔ ∀ c ∈ t.asserted, c.Holds σ) := by
  have hchecked : ∀ step ∈ holesAndWord, step.Checked := by decide
  obtain ⟨unit, s', h, hguard⟩ := exists_returns (s := Session.empty) (f := CFunction.guard)
    (b := "(((arg_0 < 10 || 11 <= arg_0 && arg_0 < 20) || arg_0 >= 21) && arg_1_len >= 4)")
    (x := compile {} "f" [.integer ⟨.w32, false⟩, .byteArray ⟨.w32, false⟩] .void holesAndWord none)
    (by decide +kernel)
  exact ⟨hchecked, unit, s', h, hguard, guard_true_iff_asserted hchecked h⟩

end Script

end GuardedC
