import GuardedC.Proofs.RangeFailures
import GuardedC.Proofs.Words

/-!
# Guards of scripts that only read

A script that slices its byte arrays and reads them, all at known positions, needs each array to
have a certain length, and its guard says just that. `Script.survey?` tells from the steps alone up
to which positions they need the arrays, `extent` is the greatest of these, and
`length_guard_closed_form` says what the guard looks like.

* `Asks`: what reads and slices of a placed view assert is about the length of its array, and each
  end of an access is asserted. Checks against a window are decided while tracing and leave nothing.
* `covers_run`: so the facts that a whole script leaves are the ends that its survey tells.
* `Frame.rangesOf_layout`, `Frame.rangesOf_layout_error`: a length with such facts is left the
  values from its extent on, if there are any in its type.
-/

namespace GuardedC

/-! ## Places -/

/-- A position of a byte array, which is given by its parameter. -/
structure Place where
  param : Nat
  offset : Int
deriving Repr, DecidableEq

/-- The positions after each of `size` bytes that are read from a position of a view on. -/
def Place.ends (start : Place) (k : Int) (size : Nat) : List Place :=
  (List.range size).map fun i : Nat => ⟨start.param, start.offset + k + i + 1⟩

/-- How far a byte array is needed: up to the greatest of the ends in it. -/
def extent (ends : List Place) (i : Nat) : Int :=
  ((ends.filter fun p => p.param = i).map Place.offset).foldr max 0

theorem mem_ends {start p : Place} {k : Int} {size : Nat} :
    p ∈ start.ends k size ↔ ∃ i < size, p = ⟨start.param, start.offset + k + i + 1⟩ := by
  simp only [Place.ends, List.mem_map, List.mem_range, eq_comm]

theorem extent_le_iff {ends : List Place} {i : Nat} {v : Int} :
    extent ends i ≤ v ↔ 0 ≤ v ∧ ∀ p ∈ ends, p.param = i → p.offset ≤ v := by
  unfold extent
  induction ends with
  | nil => simp
  | cons p ends ih =>
    by_cases hp : p.param = i
    · simp only [hp, decide_true, List.filter_cons_of_pos, List.map_cons, List.foldr_cons, max_le_iff, ih,
        List.forall_mem_cons, true_implies]
      exact and_left_comm
    · simp [hp, ih]

theorem extent_nonneg (ends : List Place) (i : Nat) : 0 ≤ extent ends i :=
  (extent_le_iff.1 (Int.le_refl _)).1

/-! ## What accesses assert -/

/-- The entry says that a byte array reaches up to a position: it is a fact about the length, with a
known operand. -/
def FrameEntry.Needs (ps : Params) (p : Place) (x : FrameEntry) : Prop :=
  ∃ b fact, ps[p.param]? = some (.bytes b) ∧ x = .fact b.sourceLength fact ∧ (∃ w, fact.operand = .lit w) ∧
    ∀ v, fact.Admits v ↔ p.offset ≤ v

/-- What the conditions record is that arrays reach up to the ends, and each end is recorded. -/
structure Asks (ps : Params) (cs : List Cond) (ends : List Place) : Prop where
  entries : ∀ c ∈ cs, ∀ xs, c.entries? = some xs → ∀ x ∈ xs, ∃ p ∈ ends, x.Needs ps p
  ends : ∀ p ∈ ends, ∃ c ∈ cs, ∃ x, c.entries? = some [x] ∧ x.Needs ps p

/-- The same for what has been recorded. -/
structure Covers (ps : Params) (ends : List Place) (es : List FrameEntry) : Prop where
  entries : ∀ x ∈ es, ∃ p ∈ ends, x.Needs ps p
  ends : ∀ p ∈ ends, ∃ x ∈ es, x.Needs ps p

/-- A condition that is decided while tracing. -/
def Cond.Silent (c : Cond) : Prop := ∀ xs, c.entries? = some xs → xs = []

section

variable {ps : Params} {ends : List Place} {cs : List Cond} {es : List FrameEntry} {p : Place}

theorem Asks.covers (h : Asks ps cs ends) (hes : entriesOf? cs = some es) : Covers ps ends es := by
  constructor
  · intro x hx
    rcases exists_of_mem_entriesOf? hes hx with ⟨c, hc, xs, hxs, hx⟩
    exact h.entries c hc xs hxs x hx
  · intro p hp
    rcases h.ends p hp with ⟨c, hc, x, hentries, hneeds⟩
    rcases mem_entriesOf? hes hc with ⟨xs, hxs, hsub⟩
    rw [hentries, Option.some.injEq] at hxs
    subst hxs
    exact ⟨x, hsub (.head _), hneeds⟩

theorem Covers.append {others : List Place} {fs : List FrameEntry} (h₁ : Covers ps ends es)
    (h₂ : Covers ps others fs) : Covers ps (ends ++ others) (es ++ fs) := by
  constructor
  · intro x hx
    rcases List.mem_append.1 hx with hx | hx
    · rcases h₁.entries x hx with ⟨p, hp, hneeds⟩
      exact ⟨p, List.mem_append_left _ hp, hneeds⟩
    · rcases h₂.entries x hx with ⟨p, hp, hneeds⟩
      exact ⟨p, List.mem_append_right _ hp, hneeds⟩
  · intro p hp
    rcases List.mem_append.1 hp with hp | hp
    · rcases h₁.ends p hp with ⟨x, hx, hneeds⟩
      exact ⟨x, List.mem_append_left _ hx, hneeds⟩
    · rcases h₂.ends p hp with ⟨x, hx, hneeds⟩
      exact ⟨x, List.mem_append_right _ hx, hneeds⟩

theorem covers_nil : Covers ps [] [] := ⟨by simp, by simp⟩

/-- Conditions and ends may stand in any order. -/
theorem Asks.union {cs₁ cs₂ : List Cond} {ends₁ ends₂ : List Place} (h₁ : Asks ps cs₁ ends₁)
    (h₂ : Asks ps cs₂ ends₂) (hcs : ∀ c, c ∈ cs ↔ c ∈ cs₁ ∨ c ∈ cs₂)
    (hends : ∀ p, p ∈ ends ↔ p ∈ ends₁ ∨ p ∈ ends₂) : Asks ps cs ends := by
  constructor
  · intro c hc xs hxs x hx
    rcases (hcs c).1 hc with hc | hc
    · rcases h₁.entries c hc xs hxs x hx with ⟨p, hp, hneeds⟩
      exact ⟨p, (hends p).2 (.inl hp), hneeds⟩
    · rcases h₂.entries c hc xs hxs x hx with ⟨p, hp, hneeds⟩
      exact ⟨p, (hends p).2 (.inr hp), hneeds⟩
  · intro p hp
    rcases (hends p).1 hp with hp | hp
    · rcases h₁.ends p hp with ⟨c, hc, x, hentries, hneeds⟩
      exact ⟨c, (hcs c).2 (.inl hc), x, hentries, hneeds⟩
    · rcases h₂.ends p hp with ⟨c, hc, x, hentries, hneeds⟩
      exact ⟨c, (hcs c).2 (.inr hc), x, hentries, hneeds⟩

/-- One check is recorded, and all others are decided at once. -/
theorem asks_of_check {check : Cond} {x : FrameEntry} (hmem : check ∈ cs)
    (hentries : check.entries? = some [x])
    (hneeds : x.Needs ps p) (hothers : ∀ c ∈ cs, c = check ∨ c.Silent) : Asks ps cs [p] := by
  constructor
  · intro c hc xs hxs y hy
    rcases hothers c hc with rfl | hsilent
    · rw [hentries, Option.some.injEq] at hxs
      subst hxs
      cases List.mem_singleton.1 hy
      exact ⟨p, .head _, hneeds⟩
    · rw [hsilent xs hxs] at hy
      cases hy
  · intro q hq
    cases List.mem_singleton.1 hq
    exact ⟨check, hmem, x, hentries, hneeds⟩

theorem silent_lit (test : Comparison) (x y : Int) : ((Expr.lit x).compare test (.lit y)).Silent := by
  intro xs hxs
  change (Cond.known (decide (test.Holds x y))).entries? = some xs at hxs
  cases hdecide : decide (test.Holds x y) with
  | true =>
    rw [hdecide] at hxs
    cases hxs
    rfl
  | false =>
    rw [hdecide] at hxs
    cases hxs

end

/-! ## Views at known places -/

/-- The view is one of the array that is a parameter, and begins at a known position of it. -/
structure Placed (ps : Params) (p : Place) (b : Bytes) : Prop where
  consistent : b.Consistent
  array : ∃ a, ps[p.param]? = some (.bytes a) ∧ a.sourceLength = b.sourceLength
  start : b.start = .lit p.offset
  window : b.isWindow = true → ∃ stop, b.length = .arith .sub stop b.start

namespace Placed

variable {ps : Params} {p : Place} {b : Bytes}

theorem of_param (hwhole : ∀ b, Param.bytes b ∈ ps → ∃ data size, b = .array data size) {index : Nat}
    (hb : ps[index]? = some (.bytes b)) : Placed ps ⟨index, 0⟩ b := by
  rcases hwhole b (List.mem_of_getElem? hb) with ⟨data, size, rfl⟩
  exact ⟨Bytes.consistent_array data size, ⟨_, hb, rfl⟩, rfl, by simp⟩

theorem needs (h : Placed ps p b) {test : Comparison} {k n : Int} (htest : ∀ v, test.Holds v k ↔ n ≤ v) :
    (FrameEntry.fact b.sourceLength ⟨test, .lit k⟩).Needs ps ⟨p.param, n⟩ := by
  rcases h.array with ⟨a, ha, hlength⟩
  refine ⟨a, ⟨test, .lit k⟩, ha, by rw [hlength], ⟨k, rfl⟩, ?_⟩
  intro v
  simp [Fact.Admits, htest]

/-- A check against a window is decided while tracing; if the view is the array, it is one against
the array. -/
theorem silent_of_window (h : Placed ps p b) (hwindow : b.isWindow = true) (test : Comparison) (x : Int) :
    ((Expr.lit x).compare test b.length).Silent := by
  rcases h.window hwindow with ⟨stop, hlength⟩
  intro xs hxs
  rw [hlength] at hxs
  rcases Expr.isLit_of_recordable_right ⟨xs, hxs⟩ with ⟨_, _, size, _, _, _, hsize⟩
  rw [hsize] at hxs
  exact silent_lit test x size xs hxs

/-- A byte at a known position needs the array up to the position after it. -/
theorem asks_byteAt (h : Placed ps p b) {k : Int}
    (hrec : ∀ c ∈ (b.byteAt (.lit k)).conditions, c.Recordable) :
    Asks ps (b.byteAt (.lit k)).conditions [⟨p.param, p.offset + k + 1⟩] := by
  have hposition := h.consistent.position_of_recordable h.start hrec
  have hmem := h.consistent.keyInside_subset (.lit k) (.tail _ (.head _))
  have hneeds : (FrameEntry.fact b.sourceLength ⟨.gt, .lit (p.offset + k)⟩).Needs ps
      ⟨p.param, p.offset + k + 1⟩ :=
    h.needs fun v => Iff.rfl
  refine asks_of_check hmem ?_ hneeds ?_
  · rw [hposition, h.consistent.arrayLength]
    rfl
  · intro c hc
    cases hwindow : b.isWindow with
    | false =>
      rw [h.consistent.conditions_byteAt_of_array hwindow] at hc
      simp only [Bytes.keyInside, List.mem_cons, List.not_mem_nil, or_false] at hc
      -- the view is the array, and its length is checked only once
      rcases hc with rfl | rfl
      · exact .inr (silent_lit _ _ _)
      · rw [Bytes.position_of_array hwindow]
        exact .inl rfl
    | true =>
      rw [Bytes.conditions_byteAt_of_window hwindow] at hc
      simp only [Bytes.keyInside, List.cons_append, List.nil_append, List.mem_cons,
        List.not_mem_nil, or_false] at hc
      -- the first two are checks of the window, the others of the array
      rcases hc with rfl | rfl | rfl | rfl
      · exact .inr (silent_lit _ _ _)
      · exact .inr (h.silent_of_window hwindow _ _)
      · rw [hposition]
        exact .inr (silent_lit _ _ _)
      · exact .inl rfl

/-- A slice with known bounds needs the array up to its stop, and begins at a known place. -/
theorem asks_slice (h : Placed ps p b) {first last : Int}
    (hrec : ∀ c ∈ (b.slice (.lit first) (.lit last)).conditions, c.Recordable) :
    Asks ps (b.slice (.lit first) (.lit last)).conditions [⟨p.param, p.offset + last⟩] ∧
      Placed ps ⟨p.param, p.offset + first⟩ (b.slice (.lit first) (.lit last)).value := by
  have hsub := h.consistent.partInside_subset (.lit first) (.lit last)
  have hfirst : b.position (.lit first) = .lit (p.offset + first) :=
    h.consistent.position_of_compare h.start (hrec _ (hsub (.head _)))
  have hlast : b.position (.lit last) = .lit (p.offset + last) := by
    have hcheck := hrec _ (hsub (.tail _ (.head _)))
    rw [hfirst] at hcheck
    exact h.consistent.position_of_compare h.start hcheck
  constructor
  · have hneeds : (FrameEntry.fact b.sourceLength ⟨.ge, .lit (p.offset + last)⟩).Needs ps
        ⟨p.param, p.offset + last⟩ :=
      h.needs fun v => Iff.rfl
    refine asks_of_check (hsub (.tail _ (.tail _ (.head _)))) ?_ hneeds ?_
    · rw [hlast, h.consistent.arrayLength]
      rfl
    · intro c hc
      cases hwindow : b.isWindow with
      | false =>
        rw [h.consistent.conditions_slice_of_array hwindow] at hc
        simp only [Bytes.partInside, List.mem_cons, List.not_mem_nil, or_false] at hc
        rcases hc with rfl | rfl | rfl
        · exact .inr (silent_lit _ _ _)
        · exact .inr (silent_lit _ _ _)
        · rw [Bytes.position_of_array hwindow]
          exact .inl rfl
      | true =>
        rw [Bytes.conditions_slice_of_window hwindow] at hc
        simp only [Bytes.partInside, List.cons_append, List.nil_append, List.mem_cons,
          List.not_mem_nil, or_false] at hc
        -- three checks of the window, and three of the array
        rcases hc with rfl | rfl | rfl | rfl | rfl | rfl
        · exact .inr (silent_lit _ _ _)
        · exact .inr (silent_lit _ _ _)
        · exact .inr (h.silent_of_window hwindow _ _)
        · rw [hfirst]
          exact .inr (silent_lit _ _ _)
        · rw [hfirst, hlast]
          exact .inr (silent_lit _ _ _)
        · exact .inl rfl
  · exact ⟨h.consistent.slice _ _, h.array, hfirst, fun _ => ⟨_, rfl⟩⟩

/-- The bytes of a word are those of its halves. -/
theorem asks_readHalves (p : Place) {order : ByteOrder} {size : Nat} {read : Expr → Provided Expr}
    (hread : YieldsWords b order size read)
    (hasks : ∀ {k}, (∀ c ∈ (read (.lit k)).conditions, c.Recordable) →
      Asks ps (read (.lit k)).conditions (p.ends k size))
    {k : Int} (hrec : ∀ c ∈ (Bytes.readHalves order size read (.lit k)).conditions, c.Recordable) :
    Asks ps (Bytes.readHalves order size read (.lit k)).conditions (p.ends k (size + size)) := by
  have hfirst := hasks fun c hc => hrec c (mem_conditions_readHalves.2 (.inl hc))
  have hsecond : ∀ c ∈ (read (.arith .add (.lit k) (.lit size))).conditions, c.Recordable :=
    fun c hc => hrec c (mem_conditions_readHalves.2 (.inr hc))
  have hafter := hread.after hsecond
  rw [hafter] at hsecond
  refine hfirst.union (hasks hsecond) ?_ ?_
  · intro c
    rw [mem_conditions_readHalves, hafter]
  · intro q
    simp only [mem_ends]
    constructor
    · rintro ⟨i, hi, rfl⟩
      by_cases hhalf : i < size
      · exact .inl ⟨i, hhalf, rfl⟩
      · refine .inr ⟨i - size, by omega, ?_⟩
        rw [Place.mk.injEq]
        exact ⟨rfl, by omega⟩
    · rintro (⟨i, hi, rfl⟩ | ⟨i, hi, rfl⟩)
      · exact ⟨i, by omega, rfl⟩
      · refine ⟨size + i, by omega, ?_⟩
        rw [Place.mk.injEq]
        exact ⟨rfl, by omega⟩

end Placed

/-! ## Surveys -/

namespace Script

/-- What is known of a register before anything is run: where its view begins, or its integer. -/
inductive Known where
  | view (start : Place)
  | int (value : Int)
deriving Repr, DecidableEq

/-- What is known of each register. -/
abbrev Chart := List (Option Known)

namespace Chart

def view? (chart : Chart) (n : Nat) : Option Place :=
  match chart[n]?.join with
  | some (.view start) => some start
  | _ => none

def int? (chart : Chart) : IntArg → Option Int
  | .lit v => some v
  | .register n =>
    match chart[n]?.join with
    | some (.int v) => some v
    | _ => none

end Chart

/-- The number of bytes that are read. -/
def Read.size : Read → Nat
  | byte => 1
  | word16 _ => 2
  | word32 _ => 4
  | word64 _ => 8

/-- What is known of the result of an operation, and the ends of what it accesses. There is a survey
for parameters and known integers, and for slices and reads at known positions. -/
def Op.survey? (chart : Chart) : Op → Option (Option Known × List Place)
  | int _ .given => some (none, [])
  | bytes index .given => some (some (.view ⟨index, 0⟩), [])
  | param index .given => some (some (.view ⟨index, 0⟩), [])
  | lit v => some (some (.int v), [])
  | slice view start stop _ => do
    let p ← chart.view? view
    let first ← chart.int? start
    let last ← chart.int? stop
    return (some (.view ⟨p.param, p.offset + first⟩), [⟨p.param, p.offset + last⟩])
  | read what view offset => do
    let p ← chart.view? view
    let k ← chart.int? offset
    return (none, p.ends k what.size)
  | _ => none

/-- The ends of all accesses of a script, if it does nothing else. -/
def survey? (chart : Chart) : List Step → Option (List Place)
  | [] => some []
  | .op o :: steps => do
    let found ← o.survey? chart
    let rest ← survey? (chart ++ [found.1]) steps
    return found.2 ++ rest
  | _ :: _ => none

/-! ## Surveys are right -/

/-- What is known of a register is right, if the register holds something of this kind. -/
def Known.Describes (ps : Params) : Known → Value → Prop
  | view start, .bytes b => Placed ps start b
  | int v, .int e => e = .lit v
  | _, _ => True

/-- The parameters are those that a frame was made for, and all that is known of registers is
right. -/
structure Charted (ps : Params) (chart : Chart) (env : Env) : Prop where
  given : env.given = some ps
  whole : ∀ b, Param.bytes b ∈ ps → ∃ data size, b = .array data size
  length : env.registers.length = chart.length
  registers : ∀ (n : Nat) (known : Known) (v : Value), chart[n]? = some (some known) →
    env.registers[n]? = some (some v) → known.Describes ps v

section

variable {ps : Params} {chart : Chart} {env env' : Env} {s s' : Session} {p : Place} {b : Bytes}

namespace Charted

theorem push (h : Charted ps chart env) {found : Option Known} {v : Value}
    (hfound : ∀ known, found = some known → known.Describes ps v) :
    Charted ps (chart ++ [found]) (env.push (.ok (.value v))) := by
  refine ⟨h.given, h.whole, by simp [Env.push, h.length], ?_⟩
  intro n known w hknown hw
  change (env.registers ++ [some v])[n]? = some (some w) at hw
  by_cases hn : n < chart.length
  · rw [List.getElem?_append_left hn] at hknown
    rw [List.getElem?_append_left (h.length ▸ hn)] at hw
    exact h.registers n known w hknown hw
  · -- the last register is the only other one
    rw [List.getElem?_append_right (Nat.le_of_not_lt hn)] at hknown
    rw [List.getElem?_append_right (h.length ▸ Nat.le_of_not_lt hn), h.length] at hw
    cases hlast : n - chart.length with
    | zero =>
      rw [hlast] at hknown hw
      cases hw
      exact hfound known (Option.some.inj hknown)
    | succ m =>
      rw [hlast] at hknown
      cases hknown

theorem known (h : Charted ps chart env) {n : Nat} {known : Known} {v : Value}
    (hknown : chart[n]?.join = some known) (hv : env.value n = .ok v) : known.Describes ps v :=
  h.registers n known v (Option.join_eq_some_iff.1 hknown)
    (Option.join_eq_some_iff.1 (Env.value_eq_ok.1 hv))

theorem view (h : Charted ps chart env) {n : Nat} (hp : chart.view? n = some p) (hb : env.bytes n = .ok b) :
    Placed ps p b := by
  unfold Chart.view? at hp
  split at hp
  · rename_i start hstart
    cases hp
    simp only [Env.bytes, except_bind_ok] at hb
    rcases hb with ⟨v, hv, hb⟩
    cases v with
    | bytes b' =>
      cases hb
      exact h.known hstart hv
    | _ => cases hb
  · cases hp

theorem int (h : Charted ps chart env) {arg : IntArg} {k : Int} {e : Expr} (hk : chart.int? arg = some k)
    (he : env.int arg = .ok e) : e = .lit k := by
  cases arg with
  | lit v =>
    cases hk
    cases he
    rfl
  | register n =>
    simp only [Chart.int?] at hk
    split at hk
    · rename_i k' hknown
      cases hk
      simp only [Env.int, except_bind_ok] at he
      rcases he with ⟨v, hv, he⟩
      cases v with
      | int e' =>
        cases he
        exact h.known hknown hv
      | _ => cases he
    · cases hk

end Charted

/-- What a word asks for, byte by byte. -/
theorem Read.asks {what : Read} (h : Placed ps p b) {k : Int}
    (hrec : ∀ c ∈ (what.eval b (.lit k)).conditions, c.Recordable) :
    Asks ps (what.eval b (.lit k)).conditions (p.ends k what.size) := by
  have hbyte : ∀ {k : Int}, (∀ c ∈ (b.byteAt (.lit k)).conditions, c.Recordable) →
      Asks ps (b.byteAt (.lit k)).conditions (p.ends k 1) := by
    intro k hk
    have hends : p.ends k 1 = [⟨p.param, p.offset + k + 1⟩] := by
      simp [Place.ends, List.range_succ]
    rw [hends]
    exact h.asks_byteAt hk
  have hword16 : ∀ (order : ByteOrder) {k : Int},
      (∀ c ∈ (b.read16 order (.lit k)).conditions, c.Recordable) →
      Asks ps (b.read16 order (.lit k)).conditions (p.ends k 2) :=
    fun order _ hk => Placed.asks_readHalves p (yieldsWords_byteAt h.consistent order) hbyte hk
  have hword32 : ∀ (order : ByteOrder) {k : Int},
      (∀ c ∈ (b.read32 order (.lit k)).conditions, c.Recordable) →
      Asks ps (b.read32 order (.lit k)).conditions (p.ends k 4) :=
    fun order _ hk => Placed.asks_readHalves p (yieldsWords_read16 h.consistent order) (hword16 order) hk
  cases what with
  | byte => exact hbyte hrec
  | word16 order => exact hword16 order hrec
  | word32 order => exact hword32 order hrec
  | word64 order =>
    exact Placed.asks_readHalves p (yieldsWords_read32 h.consistent order) (hword32 order) hrec

/-- One operation does what its survey tells. -/
theorem Charted.op (h : Charted ps chart env) {o : Op} {found : Option Known × List Place}
    (hsurvey : o.survey? chart = some found) {answer : Answer}
    (hreturns : Returns ((Step.op o).run env) s answer s') :
    Charted ps (chart ++ [found.1]) (env.push (.ok answer)) ∧
      ∃ es, s' = s.enterAll es ∧ Covers ps found.2 es := by
  rcases returns_op.1 hreturns with ⟨result, hresult, rfl, es, hes, _, rfl⟩
  have hrec : ∀ c ∈ result.conditions, c.Recordable := recordable_of_entriesOf? hes
  have hparams : ∀ qs, env.params s .given = .ok qs → qs = ps := by
    intro qs hqs
    simp only [Env.params, h.given, Except.ok.injEq] at hqs
    exact hqs.symm
  have hquiet : ∀ {a : Answer}, result = pure a → ∃ es', s.enterAll es = s.enterAll es' ∧
      Covers ps [] es' := by
    rintro a rfl
    cases hes
    exact ⟨[], rfl, covers_nil⟩
  cases o with
  | int index source =>
    cases source with
    | frame number => cases hsurvey
    | given =>
      cases hsurvey
      simp only [Op.eval, except_bind_ok, except_pure_ok, except_mapError_ok] at hresult
      rcases hresult with ⟨qs, _, e, _, rfl⟩
      refine ⟨h.push ?_, hquiet rfl⟩
      rintro known ⟨⟩
  | bytes index source =>
    cases source with
    | frame number => cases hsurvey
    | given =>
      cases hsurvey
      simp only [Op.eval, except_bind_ok, except_pure_ok, except_mapError_ok] at hresult
      rcases hresult with ⟨qs, hqs, b, hb, rfl⟩
      cases hparams qs hqs
      refine ⟨h.push ?_, hquiet rfl⟩
      rintro known ⟨⟩
      exact .of_param h.whole (getElem?_of_bytes hb)
  | param index source =>
    cases source with
    | frame number => cases hsurvey
    | given =>
      cases hsurvey
      simp only [Op.eval, except_bind_ok, except_pure_ok, except_mapError_ok] at hresult
      rcases hresult with ⟨qs, hqs, q, hq, rfl⟩
      cases hparams qs hqs
      refine ⟨h.push ?_, hquiet rfl⟩
      rintro known ⟨⟩
      cases q with
      | int e => trivial
      | bytes b => exact .of_param h.whole (getElem?_of_param hq)
  | lit v =>
    cases hsurvey
    cases hresult
    refine ⟨h.push ?_, hquiet rfl⟩
    rintro known ⟨⟩
    rfl
  | slice view start stop step =>
    simp only [Op.survey?, Option.bind_eq_bind, Option.bind_eq_some_iff, Option.pure_def,
      Option.some.injEq] at hsurvey
    rcases hsurvey with ⟨p, hp, first, hfirst, last, hlast, rfl⟩
    simp only [Op.eval, except_bind_ok, except_pure_ok, except_mapError_ok] at hresult
    rcases hresult with ⟨b, hb, x, hx, y, hy, part, hpart, rfl⟩
    cases h.int hfirst hx
    cases h.int hlast hy
    unfold Bytes.sliceStep at hpart
    split at hpart
    · cases hpart
      rw [Provided.conditions_map] at hes hrec
      rcases (h.view hp hb).asks_slice hrec with ⟨hasks, hplaced⟩
      refine ⟨h.push ?_, es, rfl, hasks.covers hes⟩
      rintro known ⟨⟩
      exact hplaced
    · cases hpart
  | read what view offset =>
    simp only [Op.survey?, Option.bind_eq_bind, Option.bind_eq_some_iff, Option.pure_def,
      Option.some.injEq] at hsurvey
    rcases hsurvey with ⟨p, hp, k, hk, rfl⟩
    simp only [Op.eval, except_bind_ok, except_pure_ok] at hresult
    rcases hresult with ⟨b, hb, x, hx, rfl⟩
    cases h.int hk hx
    rw [Provided.conditions_map] at hes hrec
    refine ⟨h.push ?_, es, rfl, (Read.asks (h.view hp hb) hrec).covers hes⟩
    rintro known ⟨⟩
  | _ => cases hsurvey

/-- A run leaves what the survey tells, and nothing else. -/
theorem covers_run (h : Charted ps chart env) {steps : List Step} {ends : List Place}
    (hsurvey : survey? chart steps = some ends) (hrun : Returns (run env steps) s env' s') :
    ∃ es, s' = s.enterAll es ∧ Covers ps ends es := by
  induction steps generalizing chart env s ends with
  | nil =>
    cases hsurvey
    rcases returns_run_nil.1 hrun with ⟨_, rfl⟩
    exact ⟨[], rfl, covers_nil⟩
  | cons step steps ih =>
    cases step with
    | op o =>
      simp only [survey?, Option.bind_eq_bind, Option.bind_eq_some_iff, Option.pure_def,
        Option.some.injEq] at hsurvey
      rcases hsurvey with ⟨found, hfound, rest, hrest, rfl⟩
      rcases returns_run_cons.1 hrun with ⟨answer, s₁, hstep, hlater⟩
      rcases h.op hfound hstep with ⟨hnext, es, rfl, hcovers⟩
      rcases ih hnext hrest hlater with ⟨fs, rfl, hcoversRest⟩
      exact ⟨es ++ fs, (s.enterAll_append es fs).symm, hcovers.append hcoversRest⟩
    | _ => cases hsurvey

end

end Script

/-! ## Texts of guards -/

/-- The condition on the length of a byte array of which some bytes are needed. -/
def lengthClause? (extent : Nat → Int) : Ty × Nat → Option String
  | (.byteArray _, i) =>
    if 0 < extent i then some (lengthName i ++ " >= " ++ (CExpr.ofInt (extent i)).text) else none
  | _ => none

/-- The guard that asks for the lengths that are needed, and for nothing else. -/
def lengthGuard (extent : Nat → Int) (params : List Ty) : String :=
  (Operator.chain? Connective.and (params.zipIdx.filterMap (lengthClause? extent))).getD "1"

theorem lengthClause?_of_pos {extent : Nat → Int} {type : IntegerType} {i : Nat} (h : 0 < extent i) :
    lengthClause? extent (.byteArray type, i) =
      some (CExpr.binary Comparison.ge (.name (lengthName i)) (.ofInt (extent i))).text := by
  have hsymbol : " >= " = " " ++ Operator.symbol Comparison.ge ++ " " := by decide
  simp only [lengthClause?, if_pos h, CExpr.text, hsymbol, String.append_assoc]

theorem CExpr.text_foldl (op : Operator) (es : List CExpr) (e : CExpr) :
    (es.foldl (parenthesized op) e).text = (es.map text).foldl op.parenthesize e.text := by
  induction es generalizing e with
  | nil => rfl
  | cons x es ih =>
    rw [List.foldl_cons, ih, text_parenthesized]
    rfl

/-- The text of a guard is joined from the texts of its clauses. -/
theorem ArgumentRange.text_guard (rows : List ArgumentRange) :
    (ArgumentRange.guard rows).text =
      (Operator.chain? Connective.and ((rows.filterMap (·.clause?)).map CExpr.text)).getD "1" := by
  unfold ArgumentRange.guard
  cases rows.filterMap (·.clause?) with
  | nil => decide
  | cons e es => exact CExpr.text_foldl Connective.and es e

/-! ## Ranges of lengths -/

theorem IntSet.pieces_range {low high : Int} (h : low < high) :
    (IntSet.range low high).pieces = [⟨low, high⟩] := by
  rw [IntSet.range, dif_pos h]

/-- What is left of a length is everything from a bound on, and only that bound is written. -/
theorem ArgumentRange.clause?_atLeast (a : Argument) {type : IntegerType}
    (hunsigned : type.signed = false) {n : Int} (hlow : 0 ≤ n) (hhigh : n < type.high) :
    (⟨a, type.values, .range n type.high⟩ : ArgumentRange).clause? =
      if 0 < n then some (.binary Comparison.ge (.name a.name) (.ofInt n)) else none := by
  have hzero : type.low = 0 := by simp [IntegerType.low, hunsigned]
  have hvalues : type.values.pieces = [⟨0, type.high⟩] := by
    rw [IntegerType.values, hzero]
    exact IntSet.pieces_range (by omega)
  have hpossible : type.values.low? = some 0 ∧ type.values.high? = some type.high := by
    simp [IntSet.low?, IntSet.high?, hvalues]
  rw [clause?_eq hpossible.1 hpossible.2]
  by_cases hn : 0 < n
  · have hne : IntSet.range n type.high ≠ type.values := by
      intro hsame
      have hmem : (0 : Int) ∈ type.values := IntSet.mem_range.2 ⟨by omega, by omega⟩
      rw [← hsame] at hmem
      have hbound := (IntSet.mem_range.1 hmem).1
      omega
    have hlowBound : ¬ n = 0 := by omega
    rw [if_neg hne, if_pos hn, IntSet.pieces_range hhigh]
    simp [CExpr.chain?, Interval.condition, hlowBound]
  · have hsame : n = 0 := by omega
    subst hsame
    rw [if_neg hn, if_pos (by rw [IntegerType.values, hzero])]

namespace Frame

/-- The facts about an argument compare with known integers, and say together that it is at least
`n`. -/
structure AtLeast (f : Frame) (a : Argument) (n : Int) : Prop where
  literal : ∀ fact ∈ f.factsAt a.index, ∃ w, fact.operand = .lit w
  admits : ∀ v, f.Admits a v ↔ n ≤ v

section

variable {f : Frame} {a : Argument} {type : IntegerType} {n : Int}

theorem range?_of_free (htype : a.ty = .integer type) (hfree : f.factsAt a.index = []) :
    f.range? a = .ok (some ⟨a, type.values, type.values⟩) := by
  rw [range?_of_integer htype, hfree]
  rfl

theorem AtLeast.range?_eq_ok (h : f.AtLeast a n) (htype : a.ty = .integer type)
    (hunsigned : type.signed = false) (hlow : 0 ≤ n) (hhigh : n < type.high) :
    f.range? a = .ok (some ⟨a, type.values, .range n type.high⟩) := by
  have hzero : type.low = 0 := by simp [IntegerType.low, hunsigned]
  have hcollapsible : f.Collapsible a := by
    rw [collapsible_iff htype]
    exact ⟨h.literal, n, IntSet.mem_range.2 ⟨by omega, hhigh⟩, (h.admits n).2 (Int.le_refl n)⟩
  rcases exists_range?_iff.2 hcollapsible with ⟨row, hrow⟩
  rcases exact_of_range? hrow with ⟨_, hno⟩ | ⟨⟨arg, possible, range⟩, rfl, rfl, hexact⟩
  · exact absurd htype (hno type)
  · rcases hexact.typed with ⟨type', htype', hpossible⟩
    rw [htype, Ty.integer.injEq] at htype'
    subst htype'
    have hvalues : possible = type.values := hpossible
    have hrange : range = .range n type.high := by
      apply IntSet.ext
      intro v
      have hmem : v ∈ range ↔ v ∈ possible ∧ f.Admits arg v := hexact.refines.mem v
      rw [hmem, h.admits, hvalues, IntegerType.values, IntSet.mem_range, IntSet.mem_range]
      omega
    rw [hrow, hvalues, hrange]

theorem AtLeast.range?_eq_error (h : f.AtLeast a n) (htype : a.ty = .integer type) (hhigh : type.high ≤ n) :
    f.range? a = .error (.unsatisfiable a.name) := by
  rw [Frame.range?_eq_error]
  constructor
  · intro hcollapsible
    rcases (hcollapsible type htype).2 with ⟨v, hv, hadmits⟩
    have hbound := (h.admits v).1 hadmits
    have hvalue := (IntSet.mem_range.1 hv).2
    omega
  · refine ⟨type, htype, .inr ⟨?_, rfl⟩⟩
    rintro ⟨fact, before, after, hsplit, _, hunknown, _⟩
    have hmem : fact ∈ f.factsAt a.index := by
      rw [hsplit]
      exact List.mem_append_right _ (.head _)
    rcases h.literal fact hmem with ⟨w, hw⟩
    exact hunknown w hw

end

/-- What the facts of a frame say of its parameters, which are numbered from a position on: nothing
of the integers, and of each byte array that it has as many bytes as needed. -/
structure Bounded (f : Frame) (extent : Nat → Int) (position : Nat) (ps : Params) : Prop where
  free : ∀ a, Param.int (.argument a) ∈ ps → f.factsAt a.index = []
  atLeast : ∀ (b : Bytes) (i : Nat), (Param.bytes b, i) ∈ ps.zipIdx position →
    f.AtLeast b.sourceLength (extent i)

section

variable {f : Frame} {id : FrameId} {extent : Nat → Int} {position index : Nat} {tys : List Ty}
  {slots : List Slot}

theorem Bounded.tail {q : Param} {ps : Params} (h : f.Bounded extent position (q :: ps)) :
    f.Bounded extent (position + 1) ps := by
  constructor
  · intro a ha
    exact h.free a (.tail _ ha)
  · intro b i hb
    exact h.atLeast b i (.tail _ hb)

/-- Where all lengths can be large enough, the ranges give one clause for each byte array that is
needed. -/
theorem rangesOf_layout (hlayout : Layout id position index tys slots) (hextent : ∀ i, 0 ≤ extent i)
    (h : f.Bounded extent position (slots.map Slot.param))
    (hfits : ∀ type i, (Ty.byteArray type, i) ∈ tys.zipIdx position → extent i < type.high) :
    ∃ rows, f.rangesOf (slots.flatMap Slot.arguments) = .ok rows ∧
      (rows.filterMap (·.clause?)).map CExpr.text =
        (tys.zipIdx position).filterMap (lengthClause? extent) := by
  induction hlayout with
  | nil => exact ⟨[], rfl, rfl⟩
  | @integer position index type arg tys slots harg _ ih =>
    rcases ih h.tail fun type i hx => hfits type i (.tail _ hx) with ⟨rows, hrows, htexts⟩
    have hrow : f.range? arg = .ok (some ⟨arg, type.values, type.values⟩) :=
      range?_of_free (by rw [harg]) (h.free arg (.head _))
    refine ⟨⟨arg, type.values, type.values⟩ :: rows, ?_, ?_⟩
    · show f.rangesOf (arg :: slots.flatMap Slot.arguments) = _
      simp only [rangesOf, hrow, hrows]
      rfl
    · -- a range of all values is no condition
      have hclause : (⟨arg, type.values, type.values⟩ : ArgumentRange).clause? = none := if_pos rfl
      rw [List.zipIdx_cons, List.filterMap_cons_none hclause, htexts]
      rfl
  | @byteArray position index type data size tys slots hunsigned hdata hsize _ ih =>
    rcases ih h.tail fun type i hx => hfits type i (.tail _ hx) with ⟨rows, hrows, htexts⟩
    have hbound : extent position < type.high := hfits type position (.head _)
    have hpointer : f.range? data = .ok none := range?_of_not_integer (by simp [hdata])
    have hatLeast : f.AtLeast size (extent position) := h.atLeast _ position (.head _)
    have hlength : f.range? size = .ok (some ⟨size, type.values, .range (extent position) type.high⟩) :=
      hatLeast.range?_eq_ok (by rw [hsize]) hunsigned (hextent position) hbound
    refine ⟨⟨size, type.values, .range (extent position) type.high⟩ :: rows, ?_, ?_⟩
    · show f.rangesOf (data :: size :: slots.flatMap Slot.arguments) = _
      simp only [rangesOf, hpointer, hlength, hrows]
      rfl
    · have hclause := ArgumentRange.clause?_atLeast size hunsigned (hextent position) hbound
      have hname : size.name = lengthName position := by rw [hsize]
      rw [hname] at hclause
      rw [List.zipIdx_cons]
      by_cases hneeded : 0 < extent position
      · rw [if_pos hneeded] at hclause
        rw [List.filterMap_cons_some hclause,
          List.filterMap_cons_some (lengthClause?_of_pos hneeded), List.map_cons, htexts]
      · rw [if_neg hneeded] at hclause
        have hnone : lengthClause? extent (.byteArray type, position) = none := if_neg hneeded
        rw [List.filterMap_cons_none hclause, List.filterMap_cons_none hnone, htexts]

/-- The first length that cannot be large enough is reported. -/
theorem rangesOf_layout_error (hlayout : Layout id position index tys slots) (hextent : ∀ i, 0 ≤ extent i)
    (h : f.Bounded extent position (slots.map Slot.param)) {before after : List (Ty × Nat)}
    {type : IntegerType}
    {i : Nat} (hsplit : tys.zipIdx position = before ++ (.byteArray type, i) :: after)
    (hfits : ∀ other j, (Ty.byteArray other, j) ∈ before → extent j < other.high)
    (hexceeds : type.high ≤ extent i) :
    f.rangesOf (slots.flatMap Slot.arguments) = .error (.unsatisfiable (lengthName i)) := by
  induction hlayout generalizing before with
  | nil => simp at hsplit
  | @integer position index first arg tys slots harg _ ih =>
    rw [List.zipIdx_cons] at hsplit
    cases before with
    | nil => cases hsplit
    | cons x before =>
      have hrow : f.range? arg = .ok (some ⟨arg, first.values, first.values⟩) :=
        range?_of_free (by rw [harg]) (h.free arg (.head _))
      have hrest := ih h.tail (List.cons.inj hsplit).2 fun other j hx => hfits other j (.tail _ hx)
      show f.rangesOf (arg :: slots.flatMap Slot.arguments) = _
      simp only [rangesOf, hrow, hrest]
      rfl
  | @byteArray position index first data size tys slots hunsigned hdata hsize _ ih =>
    rw [List.zipIdx_cons] at hsplit
    have hpointer : f.range? data = .ok none := range?_of_not_integer (by simp [hdata])
    have hatLeast : f.AtLeast size (extent position) := h.atLeast _ position (.head _)
    show f.rangesOf (data :: size :: slots.flatMap Slot.arguments) = _
    cases before with
    | nil =>
      cases hsplit
      have hlength : f.range? size = .error (.unsatisfiable size.name) :=
        hatLeast.range?_eq_error (by rw [hsize]) hexceeds
      have hname : size.name = lengthName i := by rw [hsize]
      simp only [rangesOf, hpointer, hlength, hname]
      rfl
    | cons x before =>
      rcases List.cons.inj hsplit with ⟨rfl, hlater⟩
      have hlength : f.range? size = .ok (some ⟨size, first.values, .range (extent position) first.high⟩) :=
        hatLeast.range?_eq_ok (by rw [hsize]) hunsigned (hextent position) (hfits first position (.head _))
      have hrest := ih h.tail hlater fun other j hx => hfits other j (.tail _ hx)
      simp only [rangesOf, hpointer, hlength, hrest]
      rfl

end

end Frame

/-! ## The facts of a frame -/

/-- The parameter bears the name that goes with its position. -/
def Param.Named (n : Nat) : Param → Prop
  | .int e => ∃ a, e = .argument a ∧ a.name = argumentName n
  | .bytes b => b.sourceLength.name = lengthName n

section

variable {id : FrameId} {tys : List Ty} {slots : List Slot}

theorem Layout.named {position index : Nat} (h : Layout id position index tys slots) :
    ∀ x ∈ (slots.map Slot.param).zipIdx position, x.1.Named x.2 := by
  induction h with
  | nil => simp
  | integer harg _ ih =>
    intro x hx
    rcases List.mem_cons.1 hx with rfl | hx
    · exact ⟨_, rfl, by rw [harg]⟩
    · exact ih x hx
  | @byteArray _ _ _ data size _ _ _ _ hsize _ ih =>
    intro x hx
    rcases List.mem_cons.1 hx with rfl | hx
    · show size.name = _
      rw [hsize]
    · exact ih x hx

/-- The length of a byte array is named after the position of the parameter. -/
theorem Layout.named_of_getElem? (h : Layout id 0 0 tys slots) {k : Nat} {q : Param}
    (hq : (slots.map Slot.param)[k]? = some q) : q.Named k :=
  h.named (q, k) (List.mk_mem_zipIdx_iff_getElem?.2 hq)

/-- A fact that comes from such an entry is about the length of the array, and bounds it from
below. -/
theorem FrameEntry.Needs.fact (hlayout : Layout id 0 0 tys slots) {x : FrameEntry} {p : Place}
    {a : Argument}
    {fact : Fact} (h : x.Needs (slots.map Slot.param) p) (ha : a ∈ slots.flatMap Slot.arguments)
    (hfact : x.factAt? a.index = some fact) :
    a.name = lengthName p.param ∧ (∃ w, fact.operand = .lit w) ∧ ∀ v, fact.Admits v ↔ p.offset ≤ v := by
  rcases h with ⟨b, fact', hb, rfl, hliteral, hadmits⟩
  simp only [FrameEntry.factAt?, Option.ite_none_right_eq_some, Option.some.injEq] at hfact
  rcases hfact with ⟨hindex, rfl⟩
  have hlength := (hlayout.params_in _ (List.mem_of_getElem? hb)).sourceLength_mem
  cases hlayout.signature.eq_of_index hlength ha hindex
  exact ⟨hlayout.named_of_getElem? hb, hliteral, hadmits⟩

theorem Layout.whole (hlayout : Layout id 0 0 tys slots) :
    ∀ b, Param.bytes b ∈ slots.map Slot.param → ∃ data size, b = .array data size := by
  intro b hb
  rcases hlayout.params_in _ hb with ⟨data, size, _, rfl⟩
  exact ⟨data, size, rfl⟩

/-- A frame starts with the facts that no length is negative. -/
theorem Layout.needs_of_mem_lengthEntries (hlayout : Layout id 0 0 tys slots) :
    ∀ x ∈ lengthEntries slots, ∃ i, x.Needs (slots.map Slot.param) ⟨i, 0⟩ := by
  intro x hx
  rcases List.mem_filterMap.1 hx with ⟨q, hq, hentry⟩
  cases q with
  | int e => cases hentry
  | bytes b =>
    cases hentry
    rcases List.mem_iff_getElem?.1 hq with ⟨i, hi⟩
    exact ⟨i, (Placed.of_param hlayout.whole hi).needs fun v => Iff.rfl⟩

/-- With the entries of a script that only reads, each length is at least the extent of its
array. -/
theorem Frame.bounded_enterAll (hlayout : Layout id 0 0 tys slots) {ends : List Place}
    {es : List FrameEntry} (hcovers : Covers (slots.map Slot.param) ends es) :
    ((Frame.ofSlots slots).enterAll (lengthEntries slots ++ es)).Bounded (extent ends) 0
      (slots.map Slot.param) := by
  have hfacts : ∀ a ∈ slots.flatMap Slot.arguments, ∀ fact,
      fact ∈ ((Frame.ofSlots slots).enterAll (lengthEntries slots ++ es)).factsAt a.index ↔
        ∃ x ∈ lengthEntries slots ++ es, x.factAt? a.index = some fact := by
    intro a ha fact
    rw [Frame.factsAt_ofSlots_enterAll, List.mem_filterMap]
  have hsource : ∀ a ∈ slots.flatMap Slot.arguments,
      ∀ fact ∈ ((Frame.ofSlots slots).enterAll (lengthEntries slots ++ es)).factsAt a.index,
        ∃ p : Place, a.name = lengthName p.param ∧ (p.offset = 0 ∨ p ∈ ends) ∧
          (∃ w, fact.operand = .lit w) ∧
          ∀ v, fact.Admits v ↔ p.offset ≤ v := by
    intro a ha fact hfact
    rcases (hfacts a ha fact).1 hfact with ⟨x, hx, hfactAt⟩
    rcases List.mem_append.1 hx with hx | hx
    · rcases hlayout.needs_of_mem_lengthEntries x hx with ⟨i, hneeds⟩
      rcases hneeds.fact hlayout ha hfactAt with ⟨hname, hrest⟩
      exact ⟨⟨i, 0⟩, hname, .inl rfl, hrest⟩
    · rcases hcovers.entries x hx with ⟨p, hp, hneeds⟩
      rcases hneeds.fact hlayout ha hfactAt with ⟨hname, hrest⟩
      exact ⟨p, hname, .inr hp, hrest⟩
  constructor
  · intro a ha
    rw [List.eq_nil_iff_forall_not_mem]
    intro fact hfact
    rcases hlayout.params_in _ ha with ⟨_, hmem, _, ⟨⟩⟩
    rcases hsource a hmem fact hfact with ⟨p, hname, _⟩
    -- an integer is not named like a length
    rcases List.mem_iff_getElem?.1 ha with ⟨k, hk⟩
    rcases hlayout.named_of_getElem? hk with ⟨_, ⟨⟩, hnamed⟩
    exact argumentName_ne_lengthName _ _ (hnamed.symm.trans hname)
  · intro b k hk
    have hb : (slots.map Slot.param)[k]? = some (.bytes b) := List.mk_mem_zipIdx_iff_getElem?.1 hk
    have hmem : b.sourceLength ∈ slots.flatMap Slot.arguments :=
      (hlayout.params_in _ (List.mem_of_getElem? hb)).sourceLength_mem
    constructor
    · intro fact hfact
      rcases hsource _ hmem fact hfact with ⟨_, _, _, hliteral, _⟩
      exact hliteral
    · intro v
      rw [extent_le_iff]
      constructor
      · intro hadmits
        constructor
        · have hstart : FrameEntry.fact b.sourceLength ⟨.ge, .lit 0⟩ ∈ lengthEntries slots :=
            List.mem_filterMap.2 ⟨_, List.mem_of_getElem? hb, rfl⟩
          rcases hadmits ⟨.ge, .lit 0⟩
            ((hfacts _ hmem _).2 ⟨_, List.mem_append_left _ hstart, if_pos rfl⟩) with ⟨_, ⟨⟩, hzero⟩
          exact hzero
        · intro p hp hparam
          rcases hcovers.ends p hp with ⟨x, hx, b', fact, hb', rfl, _, hbound⟩
          rw [hparam, hb] at hb'
          cases hb'
          exact (hbound v).1
            (hadmits fact ((hfacts _ hmem _).2 ⟨_, List.mem_append_right _ hx, if_pos rfl⟩))
      · rintro ⟨hzero, hends⟩ fact hfact
        rcases hsource _ hmem fact hfact with ⟨p, hname, horigin, _, hbound⟩
        have hparam : p.param = k := lengthName_injective (hname.symm.trans (hlayout.named_of_getElem? hb))
        rw [hbound]
        rcases horigin with hoffset | hp
        · rw [hoffset]
          exact hzero
        · exact hends p hp hparam

end

namespace Script

section

variable {name : String} {params : List Ty} {steps : List Step} {s s₁ : Session} {t : Trace}
  {ends : List Place}

/-- The frame of a script that only reads: it has the arguments of its parameters, and bounds for
their lengths. -/
theorem bounded_of_trace (htrace : Returns (takeTrace name params steps) s t s₁)
    (hsurvey : survey? [] steps = some ends) :
    ∃ slots, Layout t.id 0 0 params slots ∧ t.frame.arguments = slots.flatMap Slot.arguments ∧
      t.frame.Bounded (extent ends) 0 (slots.map Slot.param) := by
  rcases returns_trace htrace with ⟨start, slots, hopened, hrun, hframe, _⟩
  have hlayout := hopened.layout
  have hcharted : Charted (slots.map Slot.param) [] { given := some (slots.map Slot.param) } := by
    refine ⟨rfl, hlayout.whole, rfl, ?_⟩
    intro n known v hknown
    cases hknown
  rcases covers_run hcharted hsurvey hrun with ⟨es, rfl, hcovers⟩
  -- all entries are about lengths of this frame
  have hown : ∀ x ∈ es, x.argument.frame = t.id := by
    intro x hx
    rcases hcovers.entries x hx with ⟨p, _, b, fact, hb, rfl, _⟩
    exact hlayout.signature.frame _ (hlayout.params_in _ (List.mem_of_getElem? hb)).sourceLength_mem
  have hfinal := hframe.trans (hopened.frameOf_enterAll hown)
  refine ⟨slots, hlayout, ?_, ?_⟩
  · rw [hfinal, Frame.arguments_enterAll]
    rfl
  · rw [hfinal]
    exact Frame.bounded_enterAll hlayout hcovers

/-- The numbered elements before a position. -/
theorem exists_zipIdx_split {tys : List Ty} {i : Nat} {ty : Ty} (h : tys[i]? = some ty) :
    ∃ before after, tys.zipIdx = before ++ (ty, i) :: after ∧ ∀ x ∈ before, x.2 < i ∧
      tys[x.2]? = some x.1 := by
  have hnumbered : tys.zipIdx[i]? = some (ty, i) := by
    rw [List.getElem?_zipIdx, h]
    simp
  rcases List.getElem?_eq_some_iff.1 hnumbered with ⟨hi, hget⟩
  refine ⟨tys.zipIdx.take i, tys.zipIdx.drop (i + 1), ?_, ?_⟩
  · rw [← hget, ← List.drop_eq_getElem_cons hi, List.take_append_drop]
  · intro x hx
    rcases List.mem_take_iff_getElem.1 hx with ⟨j, hj, rfl⟩
    rw [List.getElem_zipIdx]
    simp only [Nat.zero_add]
    exact ⟨by omega, List.getElem?_eq_getElem _⟩

/-- A script that only slices its byte arrays and reads them, at known positions, needs each of them
up to its extent. If every length can be that large, the guard asks just for these lengths, in the
order of the parameters, and leaves out the arrays of which nothing is needed. Otherwise the ranges
fail at the first length that cannot. -/
theorem length_guard_closed_form (htrace : Returns (takeTrace name params steps) s t s₁)
    (hsurvey : survey? [] steps = some ends) :
    ((∀ i type, params[i]? = some (.byteArray type) → extent ends i ≤ type.high - 1) →
      (∃ rows, (t.frame.collapse.run.run s₁).1 = .ok rows ∧
        (ArgumentRange.guard rows).text = lengthGuard (extent ends) params) ∧
      ∀ options returns result unit s',
        Returns (compile options name params returns steps result) s unit s' →
        unit.guard = lengthGuard (extent ends) params) ∧
    ∀ i type, params[i]? = some (.byteArray type) → type.high - 1 < extent ends i →
      (∀ j < i, ∀ other, params[j]? = some (.byteArray other) → extent ends j ≤ other.high - 1) →
        (t.frame.collapse.run.run s₁).1 = .error (.unsatisfiable (lengthName i)) := by
  rcases bounded_of_trace htrace hsurvey with ⟨slots, hlayout, harguments, hbounded⟩
  have hranges : t.frame.ranges = t.frame.rangesOf (slots.flatMap Slot.arguments) := by
    rw [Frame.ranges, harguments]
  constructor
  · intro hfits
    have hall : ∀ type i, (Ty.byteArray type, i) ∈ params.zipIdx → extent ends i < type.high := by
      intro type i hx
      have hfit := hfits i type (List.mk_mem_zipIdx_iff_getElem?.1 hx)
      omega
    rcases Frame.rangesOf_layout hlayout (extent_nonneg ends) hbounded hall with ⟨rows, hrows, htexts⟩
    rw [← hranges] at hrows
    have hguard : (ArgumentRange.guard rows).text = lengthGuard (extent ends) params := by
      rw [ArgumentRange.text_guard, htexts]
      rfl
    refine ⟨⟨rows, hrows, hguard⟩, ?_⟩
    intro options returns result unit s' hcompile
    rcases returns_compile.1 hcompile with ⟨t', s₂, value, htrace', _, hwrite⟩
    rcases htrace.unique htrace' with ⟨rfl, rfl⟩
    rcases returns_toCFunction hwrite with ⟨rows', hrows', _, _, hunit, _⟩
    rw [hrows, Except.ok.injEq] at hrows'
    rw [hunit, ← hrows', hguard]
  · intro i type htype hexceeds hbefore
    rcases exists_zipIdx_split htype with ⟨before, after, hsplit, hearlier⟩
    rw [Frame.run_collapse, hranges]
    apply Frame.rangesOf_layout_error hlayout (extent_nonneg ends) hbounded hsplit
    · intro other j hother
      rcases hearlier _ hother with ⟨hj, hparam⟩
      have hfit := hbefore j hj other hparam
      omega
    · omega

end

/-- A window onto a window of the first array, with a word in it, and a word of the second array. -/
def twoArrays (offset : Int) : List Step :=
  [.op (.bytes 0 .given), .op (.slice 0 (.lit 2) (.lit 12) 1), .op (.slice 1 (.lit 1) (.lit 9) 1),
    .op (.read (.word32 .big) 2 (.lit 2)), .op (.bytes 2 .given), .op (.lit offset),
    .op (.read (.word16 .little) 4 (.register 5))]

/-- An integer and an array that is not read stand between the two. -/
def twoArraysParams : List Ty :=
  [.byteArray ⟨.w64, false⟩, .integer ⟨.w8, true⟩, .byteArray ⟨.w8, false⟩, .byteArray ⟨.w32, false⟩]

/-- The stops of both windows, and the ends of the bytes of both words. -/
def twoArraysEnds (offset : Int) : List Place :=
  [⟨0, 12⟩, ⟨0, 11⟩, ⟨0, 6⟩, ⟨0, 7⟩, ⟨0, 8⟩, ⟨0, 9⟩, ⟨2, offset + 1⟩, ⟨2, offset + 2⟩]

/-- The last word of the second array that a length of one byte allows, and the one after it. -/
theorem length_guard_closed_form_twoArrays :
    (∃ t s₁ rows, Returns (takeTrace "f" twoArraysParams (twoArrays 253)) Session.empty t s₁ ∧
      survey? [] (twoArrays 253) = some (twoArraysEnds 253) ∧ (t.frame.collapse.run.run s₁).1 = .ok rows ∧
      (ArgumentRange.guard rows).text = "(arg_0_len >= 12 && arg_2_len >= 255)") ∧
    ∃ t s₁, Returns (takeTrace "f" twoArraysParams (twoArrays 254)) Session.empty t s₁ ∧
      survey? [] (twoArrays 254) = some (twoArraysEnds 254) ∧
      (t.frame.collapse.run.run s₁).1 = .error (.unsatisfiable "arg_2_len") := by
  constructor
  · rcases exists_returns (s := Session.empty) (f := fun _ => ()) (b := ())
      (x := takeTrace "f" twoArraysParams (twoArrays 253)) (by decide +kernel) with ⟨t, s₁, htrace, _⟩
    have hsurvey : survey? [] (twoArrays 253) = some (twoArraysEnds 253) := by decide
    have hfits : ∀ i type, twoArraysParams[i]? = some (.byteArray type) →
        extent (twoArraysEnds 253) i ≤ type.high - 1 := by
      intro i type htype
      rcases i with _ | _ | _ | _ | i <;> cases htype <;> decide
    rcases (length_guard_closed_form htrace hsurvey).1 hfits with ⟨⟨rows, hrows, hguard⟩, _⟩
    refine ⟨t, s₁, rows, htrace, hsurvey, hrows, ?_⟩
    rw [hguard]
    decide +kernel
  · rcases exists_returns (s := Session.empty) (f := fun _ => ()) (b := ())
      (x := takeTrace "f" twoArraysParams (twoArrays 254)) (by decide +kernel) with ⟨t, s₁, htrace, _⟩
    have hsurvey : survey? [] (twoArrays 254) = some (twoArraysEnds 254) := by decide
    refine ⟨t, s₁, htrace, hsurvey, (length_guard_closed_form htrace hsurvey).2 2 _ rfl (by decide) ?_⟩
    intro j hj other hother
    rcases j with _ | _ | j
    · cases hother
      decide
    · cases hother
    · omega

end Script

end GuardedC
