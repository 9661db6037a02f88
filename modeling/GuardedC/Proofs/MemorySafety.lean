import GuardedC.Proofs.GuardExactness

/-!
# Memory safety

Where the guard of a compiled function is true, every byte that the traced code reads lies in its
array, and so does every window onto an array.

Reads and slices assert what they need for this (`exists_of_byteAt`, `exists_of_slice`): a position
in a window is checked against the window, and once more against the array behind it. The guard is
true only where all of these conditions hold, so bounds that were asserted are bounds that hold.
-/

namespace GuardedC

/-! ## What reads and slices assert -/

section

variable {σ : Assignment}

theorem holds_keyInside {key size : Expr} (h : ∀ c ∈ Bytes.keyInside key size, c.Holds σ) :
    ∃ k n, key.eval? σ = some k ∧ size.eval? σ = some n ∧ 0 ≤ k ∧ k < n := by
  simp only [Bytes.keyInside, List.mem_cons, List.not_mem_nil, or_false, forall_eq_or_imp, forall_eq,
    Cond.holds_compare, Expr.eval?_lit, Option.some.injEq] at h
  obtain ⟨⟨k, _, hk, rfl, hlow⟩, ⟨k', n, hk', hn, hhigh⟩⟩ := h
  rw [hk, Option.some.injEq] at hk'
  subst hk'
  exact ⟨k, n, hk, hn, hlow, hhigh⟩

theorem holds_partInside {start stop size : Expr}
    (h : ∀ c ∈ Bytes.partInside start stop size, c.Holds σ) :
    ∃ first last n, start.eval? σ = some first ∧ stop.eval? σ = some last ∧ size.eval? σ = some n ∧
      0 ≤ first ∧ first ≤ last ∧ last ≤ n := by
  simp only [Bytes.partInside, List.mem_cons, List.not_mem_nil, or_false, forall_eq_or_imp, forall_eq,
    Cond.holds_compare, Expr.eval?_lit, Option.some.injEq] at h
  obtain ⟨⟨first, _, hfirst, rfl, hlow⟩, ⟨last, first', hlast, hfirst', horder⟩,
    ⟨last', n, hlast', hn, hhigh⟩⟩ := h
  rw [hfirst, Option.some.injEq] at hfirst'
  rw [hlast, Option.some.injEq] at hlast'
  subst hfirst' hlast'
  exact ⟨first, last, n, hfirst, hlast, hn, hlow, horder, hhigh⟩

/-- Of the two checks of a byte, the first is against the view. Only a window has a second one,
against the array; an array is its own view. -/
theorem Bytes.Consistent.keyInside_subset {b : Bytes} (hb : b.Consistent) (key : Expr) :
    keyInside (b.position key) b.arrayLength ⊆ (b.byteAt key).conditions := by
  cases hw : b.isWindow with
  | false =>
    rw [hb.conditions_byteAt_of_array hw, position_of_array hw]
    exact fun c hc => hc
  | true =>
    rw [conditions_byteAt_of_window hw]
    exact List.subset_append_right _ _

/-- A read that is provided for lies in the array, whether its view is the array or a window onto
it. -/
theorem exists_of_byteAt {b : Bytes} (hb : b.Consistent) {key : Expr}
    (h : ∀ c ∈ (b.byteAt key).conditions, c.Holds σ) :
    ∃ k, (b.position key).eval? σ = some k ∧ 0 ≤ k ∧ k < σ.value b.sourceLength := by
  have hinside : ∀ c ∈ Bytes.keyInside (b.position key) b.arrayLength, c.Holds σ :=
    fun c hc => h c (hb.keyInside_subset key hc)
  obtain ⟨k, n, hk, hn, hlow, hhigh⟩ := holds_keyInside hinside
  rw [hb.arrayLength, Expr.eval?_argument, Option.some.injEq] at hn
  exact ⟨k, hk, hlow, hn ▸ hhigh⟩

/-- Of the checks of a slice the last ones are against the array, if the view is a window; else
there are no others. -/
theorem Bytes.Consistent.partInside_subset {b : Bytes} (hb : b.Consistent) (start stop : Expr) :
    partInside (b.position start) (b.position stop) b.arrayLength ⊆ (b.slice start stop).conditions := by
  cases hw : b.isWindow with
  | false =>
    rw [hb.conditions_slice_of_array hw, position_of_array hw, position_of_array hw]
    exact fun c hc => hc
  | true =>
    rw [conditions_slice_of_window hw]
    exact List.subset_append_right _ _

theorem exists_of_slice {b : Bytes} (hb : b.Consistent) {start stop : Expr}
    (h : ∀ c ∈ (b.slice start stop).conditions, c.Holds σ) :
    ∃ first last, (b.position start).eval? σ = some first ∧ (b.position stop).eval? σ = some last ∧
      0 ≤ first ∧ first ≤ last ∧ last ≤ σ.value b.sourceLength := by
  have hinside : ∀ c ∈ Bytes.partInside (b.position start) (b.position stop) b.arrayLength,
      c.Holds σ := fun c hc => h c (hb.partInside_subset start stop hc)
  obtain ⟨first, last, n, hfirst, hlast, hn, hlow, horder, hhigh⟩ := holds_partInside hinside
  rw [hb.arrayLength, Expr.eval?_argument, Option.some.injEq] at hn
  exact ⟨first, last, hfirst, hlast, hlow, horder, hn ▸ hhigh⟩

end

/-! ## Reads and windows of a trace -/

/-- All bytes that an expression reads, each as a source and a position. -/
def Expr.reads : Expr → List (Expr × Expr)
  | lit _ | argument _ => []
  | binary _ l r => l.reads ++ r.reads
  | byteIndex source key => (source, key) :: (source.reads ++ key.reads)
  | byteSlice base start length => base.reads ++ start.reads ++ length.reads

def Cond.reads : Cond → List (Expr × Expr)
  | known _ => []
  | symbolic e => e.reads

def Value.reads : Value → List (Expr × Expr)
  | nothing => []
  | int e => e.reads
  | bytes b => b.start.reads ++ b.length.reads
  | cond c => c.reads

/-- A byte is read through the pointer of an array, at a position below the array's length. -/
def ReadInside (σ : Assignment) (args : List Argument) (source key : Expr) : Prop :=
  ∃ data size k, source = .argument data ∧ ArrayIn args data size ∧
    key.eval? σ = some k ∧ 0 ≤ k ∧ k < σ.value size

/-- A view lies in its array. -/
structure Bytes.Inside (σ : Assignment) (args : List Argument) (b : Bytes) : Prop where
  consistent : b.Consistent
  array : ArrayIn args b.source b.sourceLength
  bounds : ∃ start length, b.start.eval? σ = some start ∧ b.length.eval? σ = some length ∧
    0 ≤ start ∧ 0 ≤ length ∧ start + length ≤ σ.value b.sourceLength

section

variable {σ : Assignment} {args : List Argument}

def Expr.Safe (σ : Assignment) (args : List Argument) (e : Expr) : Prop :=
  ∀ read ∈ e.reads, ReadInside σ args read.1 read.2

structure Bytes.Safe (σ : Assignment) (args : List Argument) (b : Bytes) : Prop where
  inside : b.Inside σ args
  start : b.start.Safe σ args
  length : b.length.Safe σ args

theorem closed_safe : Closed (Cond.Holds σ) (Expr.Safe σ args) (Bytes.Safe σ args) where
  lit _ := by simp [Expr.Safe, Expr.reads]
  binary hl hr read hread := (List.mem_append.1 hread).elim (hl read) (hr read)
  arrayLength {b} hb := by simp [hb.inside.consistent.arrayLength, Expr.Safe, Expr.reads]
  bounds hb := ⟨hb.start, hb.length⟩
  byteAt {b key} hb hkey hH := by
    obtain ⟨k, hk, hlow, hhigh⟩ := exists_of_byteAt hb.inside.consistent hH
    rw [hb.inside.consistent.value_byteAt]
    intro read hread
    rcases List.mem_cons.1 hread with rfl | hread
    · exact ⟨b.source, b.sourceLength, k, rfl, hb.inside.array, hk, hlow, hhigh⟩
    · exact hkey read hread
  slice {b start stop} hb hstart hlength hH := by
    obtain ⟨first, last, hfirst, hlast, hlow, horder, hhigh⟩ := exists_of_slice hb.inside.consistent hH
    have hinside : (b.slice start stop).value.Inside σ args := by
      refine ⟨hb.inside.consistent.slice _ _, hb.inside.array, first, last - first, hfirst,
        Expr.eval?_arith_sub hlast hfirst, hlow, ?_, ?_⟩
      · omega
      · show first + (last - first) ≤ σ.value b.sourceLength
        omega
    exact ⟨hinside, hstart, hlength⟩

/-- A whole array is inside itself, since lengths are not negative. -/
theorem Param.In.safe {p : Param} (hσ : σ.Represents args) (h : p.In args) :
    p.toValue.All (Expr.Safe σ args) (Bytes.Safe σ args) := by
  cases p with
  | int e =>
    obtain ⟨a, _, _, rfl⟩ := h
    exact fun read hread => nomatch hread
  | bytes b =>
    obtain ⟨data, size, harray, rfl⟩ := h
    obtain ⟨type, hunsigned, _, htype⟩ := harray.typed
    have hlength : 0 ≤ σ.value size := by
      have hlow := (IntSet.mem_range.1 (hσ _ harray.size_mem type htype)).1
      simpa [IntegerType.low, hunsigned] using hlow
    have hinside : (Bytes.array data size).Inside σ args := by
      refine ⟨Bytes.consistent_array data size, harray, 0, σ.value size, Expr.eval?_lit 0,
        Expr.eval?_argument size, Int.le_refl 0, hlength, ?_⟩
      rw [Int.zero_add]
      exact Int.le_refl _
    refine ⟨hinside, ?_, ?_⟩
    · exact fun read hread => nomatch hread
    · exact fun read hread => nomatch hread

theorem Value.All.reads {v : Value} (h : v.All (Expr.Safe σ args) (Bytes.Safe σ args)) :
    ∀ read ∈ v.reads, ReadInside σ args read.1 read.2 := by
  cases v with
  | nothing => exact fun read hread => nomatch hread
  | int e => exact h
  | bytes b => exact fun read hread => (List.mem_append.1 hread).elim (h.start read) (h.length read)
  | cond c =>
    cases c with
    | known b => exact fun read hread => nomatch hread
    | symbolic e => exact h

theorem Cond.All.reads {c : Cond} (h : c.All (Expr.Safe σ args)) :
    ∀ read ∈ c.reads, ReadInside σ args read.1 read.2 := by
  cases c with
  | known b => exact fun read hread => nomatch hread
  | symbolic e => exact h

end

namespace Script

/-- Where the guard of a compiled function is true, everything that its trace reads and every view
that it takes lies inside an array of the function. -/
theorem reads_and_views_inside {options : Options} {name : String} {params : List Ty} {returns : Ty}
    {steps : List Step} {result : Option Nat} {s s' : Session} {unit : CFunction}
    (hchecked : ∀ step ∈ steps, step.Checked)
    (h : Returns (compile options name params returns steps result) s unit s') :
    ∃ t s₁, Returns (takeTrace name params steps) s t s₁ ∧
      ∃ guard, CExpr.parse unit.guard = some guard ∧
        ∀ σ : Assignment, σ.Represents t.frame.arguments →
          IsTrue (guard.eval? (σ.names t.frame.arguments)) →
            (∀ v, some v ∈ t.env.registers →
              ∀ read ∈ v.reads, ReadInside σ t.frame.arguments read.1 read.2) ∧
            (∀ c ∈ t.asserted, ∀ read ∈ c.reads, ReadInside σ t.frame.arguments read.1 read.2) ∧
            ∀ b, some (.bytes b) ∈ t.env.registers → b.Inside σ t.frame.arguments := by
  obtain ⟨t, s₁, value, htrace, _, hcompiled⟩ := compiled_of_returns h
  obtain ⟨guard, hparse, hguard⟩ := hcompiled.guard
  refine ⟨t, s₁, htrace, guard, hparse, ?_⟩
  intro σ hσ htrue
  have hsatisfied : t.frame.Satisfied σ := (hguard σ hσ).isTrue_iff.1 htrue
  have hholds : ∀ c ∈ t.asserted, c.Holds σ :=
    (satisfied_iff_asserted hchecked htrace hcompiled σ).1 hsatisfied
  obtain ⟨hregisters, hasserted⟩ := all_of_trace htrace closed_safe
    (fun step hstep => (hchecked step hstep).keeps) (fun p hp => hp.safe hσ) hholds
  refine ⟨?_, ?_, ?_⟩
  · intro v hv
    exact (hregisters v hv).reads
  · intro c hc
    exact (hasserted c hc).reads
  · intro b hb
    exact (hregisters _ hb).inside

/-- A word is read from a window onto a window. -/
def wordInWindows : List Step :=
  [.op (.bytes 0 .given), .op (.slice 0 (.lit 2) (.lit 10) 1), .op (.slice 1 (.lit 1) (.lit 5) 1),
    .op (.read (.word16 .big) 2 (.lit 2))]

theorem reads_and_views_inside_wordInWindows :
    (∀ step ∈ wordInWindows, step.Checked) ∧
      ∃ unit s', Returns (compile {} "f" [.byteArray ⟨.w32, false⟩] (.integer ⟨.w16, false⟩)
          wordInWindows (some 3)) Session.empty unit s' ∧
        unit.guard = "arg_0_len >= 10" ∧
        ∃ t s₁, Returns (takeTrace "f" [.byteArray ⟨.w32, false⟩] wordInWindows) Session.empty t s₁ ∧
          ∃ guard, CExpr.parse unit.guard = some guard ∧
            ∀ σ : Assignment, σ.Represents t.frame.arguments →
              IsTrue (guard.eval? (σ.names t.frame.arguments)) →
                (∀ v, some v ∈ t.env.registers →
                  ∀ read ∈ v.reads, ReadInside σ t.frame.arguments read.1 read.2) ∧
                (∀ c ∈ t.asserted, ∀ read ∈ c.reads, ReadInside σ t.frame.arguments read.1 read.2) ∧
                ∀ b, some (.bytes b) ∈ t.env.registers → b.Inside σ t.frame.arguments := by
  have hchecked : ∀ step ∈ wordInWindows, step.Checked := by decide
  obtain ⟨unit, s', h, hguard⟩ := exists_returns (s := Session.empty) (f := CFunction.guard)
    (b := "arg_0_len >= 10")
    (x := compile {} "f" [.byteArray ⟨.w32, false⟩] (.integer ⟨.w16, false⟩) wordInWindows (some 3))
    (by decide +kernel)
  exact ⟨hchecked, unit, s', h, hguard, reads_and_views_inside hchecked h⟩

end Script

end GuardedC
