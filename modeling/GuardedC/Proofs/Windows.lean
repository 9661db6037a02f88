import GuardedC.Proofs.MemorySafety
import GuardedC.Proofs.Reachable

/-!
# Windows are slices of lists

A view of a byte array stands for a list of bytes: those of the array from the view's start on, as
many as its length says (`Bytes.content?`). Windows are kept in coordinates of the array, but a
slice of a view is a slice of the list that the view stands for (`Bytes.Consistent.content?_slice`),
and a byte of the view is one of this list (`Bytes.Consistent.content?_byteAt`), wherever the conditions hold that
are asserted.

`windows_denote_slices` says so of views that were taken by any number of slices, in any states, in
terms of the facts that were recorded.
-/

namespace GuardedC

section

variable {σ : Assignment} {b : Bytes}

/-! ## Positions -/

/-- The known offset zero makes no difference. -/
theorem Expr.eval?_shift {e offset : Expr} {k n : Int} (he : e.eval? σ = some k)
    (hoffset : offset.eval? σ = some n) : (e.shift offset).eval? σ = some (n + k) := by
  unfold Expr.shift
  split
  · rename_i hzero
    rw [hzero, Expr.eval?_lit, Option.some.injEq] at hoffset
    rw [he, ← hoffset, Int.zero_add]
  · rw [Expr.eval?_arith_add he hoffset, Int.add_comm]

theorem Bytes.Consistent.eval?_position (hb : b.Consistent) {e : Expr} {start k : Int}
    (hstart : b.start.eval? σ = some start) (he : e.eval? σ = some k) :
    (b.position e).eval? σ = some (start + k) := by
  cases hw : b.isWindow with
  | false =>
    have hzero : start = 0 := by
      rw [hb.start_of_array hw, Expr.eval?_lit, Option.some.injEq] at hstart
      exact hstart.symm
    rw [position_of_array hw, hzero, Int.zero_add]
    exact he
  | true =>
    rw [position_of_window hw]
    exact Expr.eval?_shift he hstart

/-- A byte is read where the view's start and the position in the view lead to. -/
theorem Bytes.Consistent.eval?_byteAt (hb : b.Consistent) {key : Expr} {start k : Int}
    (hstart : b.start.eval? σ = some start) (hkey : key.eval? σ = some k) :
    (b.byteAt key).value.eval? σ = σ.byte? b.source (start + k) := by
  have hposition : (b.position key).evalWith Arith.exact? σ = some (start + k) :=
    hb.eval?_position hstart hkey
  rw [hb.value_byteAt]
  simp only [Expr.eval?, Expr.evalWith, Expr.locateWith, hposition]
  show σ.byte? b.source (0 + (start + k)) = _
  rw [Int.zero_add]

/-! ## Contents -/

/-- The bytes that a view stands for, if it lies in its array. -/
def Bytes.content? (σ : Assignment) (b : Bytes) : Option (List UInt8) := do
  let start ← b.start.eval? σ
  let length ← b.length.eval? σ
  if 0 ≤ start ∧ 0 ≤ length ∧ start + length ≤ (σ.bytes b.source).length then
    return ((σ.bytes b.source).drop start.toNat).take length.toNat
  else none

theorem Bytes.content?_eq_some {bytes : List UInt8} :
    b.content? σ = some bytes ↔
      ∃ start length : Nat, b.start.eval? σ = some (start : Int) ∧ b.length.eval? σ = some (length : Int) ∧
        start + length ≤ (σ.bytes b.source).length ∧
          bytes = ((σ.bytes b.source).drop start).take length := by
  unfold Bytes.content?
  simp only [Option.bind_eq_bind, Option.bind_eq_some_iff, Option.pure_def]
  constructor
  · rintro ⟨start, hstart, length, hlength, h⟩
    split at h
    · rename_i hinside
      cases h
      have hstart' : start = (start.toNat : Int) := by omega
      have hlength' : length = (length.toNat : Int) := by omega
      exact ⟨start.toNat, length.toNat, hstart' ▸ hstart, hlength' ▸ hlength, by omega, rfl⟩
    · cases h
  · rintro ⟨start, length, hstart, hlength, hinside, rfl⟩
    refine ⟨start, hstart, length, hlength, ?_⟩
    rw [if_pos (by omega), Int.toNat_natCast, Int.toNat_natCast]

/-- An array stands for all its bytes. -/
theorem Bytes.content?_array {data size : Argument}
    (hlength : ((σ.bytes data).length : Int) = σ.value size) :
    (array data size).content? σ = some (σ.bytes data) := by
  rw [Bytes.content?_eq_some]
  refine ⟨0, (σ.bytes data).length, Expr.eval?_lit 0, ?_, ?_, ?_⟩
  · rw [hlength]
    exact Expr.eval?_argument size
  · rw [source_array, Nat.zero_add]
  · simp

theorem Bytes.eval?_length {bytes : List UInt8} (h : b.content? σ = some bytes) :
    b.length.eval? σ = some (bytes.length : Int) := by
  rcases Bytes.content?_eq_some.1 h with ⟨start, length, _, hlength, hinside, rfl⟩
  have hcount : (((σ.bytes b.source).drop start).take length).length = length := by
    rw [List.length_take, List.length_drop]
    omega
  rw [hlength, hcount]

/-- A slice of a view cuts what the view stands for. The bounds of the new window are those of the
old one moved by what was cut, so that the list of the array and the list of the view are cut to the
same bytes. -/
theorem Bytes.Consistent.content?_slice (hb : b.Consistent) {bytes : List UInt8}
    (h : b.content? σ = some bytes) {first last : Expr}
    (hconditions : ∀ c ∈ (b.slice first last).conditions, c.Holds σ) :
    ∃ i j : Nat, first.eval? σ = some (i : Int) ∧ last.eval? σ = some (j : Int) ∧ i ≤ j ∧ j ≤ bytes.length ∧
      (b.slice first last).value.content? σ = some ((bytes.drop i).take (j - i)) ∧
        (b.slice first last).value.length.eval? σ = some ((j : Int) - i) := by
  have hlength := Bytes.eval?_length h
  rcases Bytes.content?_eq_some.1 h with ⟨start, length, hstart, hlength', hinside, rfl⟩
  rw [hlength, Option.some.injEq, Nat.cast_inj] at hlength'
  have hview : ∀ c ∈ Bytes.partInside first last b.length, c.Holds σ :=
    fun c hc => hconditions c (List.mem_append_left _ hc)
  rcases holds_partInside hview with ⟨x, y, n, hx, hy, hn, hlow, horder, hhigh⟩
  rw [hlength, Option.some.injEq] at hn
  rcases Int.eq_ofNat_of_zero_le hlow with ⟨i, rfl⟩
  rcases Int.eq_ofNat_of_zero_le (Int.le_trans hlow horder) with ⟨j, rfl⟩
  have hfirst := hb.eval?_position hstart hx
  have hlast := hb.eval?_position hstart hy
  have hsize : (Expr.arith .sub (b.position last) (b.position first)).eval? σ = some ((j : Int) - i) := by
    rw [Expr.eval?_arith_sub hlast hfirst, Option.some.injEq]
    omega
  refine ⟨i, j, hx, hy, by omega, by omega, ?_, hsize⟩
  rw [Bytes.content?_eq_some]
  refine ⟨start + i, j - i, ?_, ?_, ?_, ?_⟩
  · exact_mod_cast hfirst
  · rw [Nat.cast_sub (by omega)]
    exact hsize
  · show start + i + (j - i) ≤ (σ.bytes b.source).length
    omega
  · show _ = ((σ.bytes b.source).drop (start + i)).take (j - i)
    rw [List.drop_take, List.drop_drop, List.take_take, Nat.min_eq_left (by omega)]

/-- A byte of a view is one of those that the view stands for. -/
theorem Bytes.Consistent.content?_byteAt (hb : b.Consistent) {bytes : List UInt8}
    (h : b.content? σ = some bytes) {key : Expr}
    (hconditions : ∀ c ∈ (b.byteAt key).conditions, c.Holds σ) :
    ∃ (k : Nat) (byte : UInt8), key.eval? σ = some (k : Int) ∧ bytes[k]? = some byte ∧
      (b.byteAt key).value.eval? σ = some (byte.toNat : Int) := by
  have hlength := Bytes.eval?_length h
  rcases Bytes.content?_eq_some.1 h with ⟨start, length, hstart, _, hinside, rfl⟩
  have hview : ∀ c ∈ Bytes.keyInside key b.length, c.Holds σ :=
    fun c hc => hconditions c (List.mem_append_left _ hc)
  rcases holds_keyInside hview with ⟨x, n, hx, hn, hlow, hhigh⟩
  rw [hlength, Option.some.injEq] at hn
  rcases Int.eq_ofNat_of_zero_le hlow with ⟨k, rfl⟩
  have hk : k < (((σ.bytes b.source).drop start).take length).length := by omega
  refine ⟨k, _, hx, List.getElem?_eq_getElem hk, ?_⟩
  rw [hb.eval?_byteAt hstart hx, Assignment.byte?, if_pos (by omega)]
  have hposition : ((start : Int) + k).toNat = start + k := by omega
  have hbyte : (σ.bytes b.source)[start + k]? = some (((σ.bytes b.source).drop start).take length)[k] := by
    rw [← List.getElem?_eq_getElem hk, List.getElem?_take_of_lt (by simp at hk; omega), List.getElem?_drop]
  rw [hposition, hbyte]
  rfl

end

/-! ## Chains of slices -/

namespace Script

/-- In this state the operation yields the value, and the facts hold that it records. -/
structure Carried (σ : Assignment) (env : Env) (s : Session) (o : Op) (v : Value) : Prop where
  reached : Reached env s
  returns : ∃ s', Returns ((Step.op o).run env) s (.value v) s' ∧ s.NewFactsHold σ s'

/-- Views that are taken of an array by one slice after the other, in any states. -/
inductive Sliced (σ : Assignment) (array : Bytes) : Bytes → Prop where
  | array : Sliced σ array array
  | slice {env : Env} {s : Session} {view : Nat} {start stop : IntArg} {step : Int} {b part : Bytes}
      (hb : Sliced σ array b) (hview : env.bytes view = .ok b)
      (hcall : Carried σ env s (.slice view start stop step) (.bytes part)) : Sliced σ array part

section

variable {σ : Assignment} {env : Env} {s : Session} {o : Op} {v : Value}

/-- The facts that an operation records hold exactly where its conditions do. -/
theorem carried_iff (hreached : Reached env s) :
    Carried σ env s o v ↔
      ∃ result es, o.eval env s = .ok result ∧ result.value = .value v ∧
        entriesOf? result.conditions = some es ∧ s.Holding es ∧ ∀ c ∈ result.conditions, c.Holds σ := by
  have hsound := hreached.sound
  have hissued : ∀ {result : Provided Answer}, o.eval env s = .ok result →
      ∀ c ∈ result.conditions, c.All (Expr.Over s.Issued) := by
    intro result hresult
    have hkeeps := Op.keeps closed_formed (.inr closedRaw_formed) hsound.all hresult
    exact (hkeeps fun _ _ => trivial).1
  constructor
  · intro h
    rcases h.returns with ⟨s', hreturns, hnew⟩
    rcases returns_op.1 hreturns with ⟨result, hresult, hvalue, es, hes, hholding, rfl⟩
    have hholds := (newFactsHold_iff_holds hsound.laid (hissued hresult) hes hholding).1 hnew
    exact ⟨result, es, hresult, hvalue.symm, hes, hholding, hholds⟩
  · rintro ⟨result, es, hresult, hvalue, hes, hholding, hholds⟩
    have hnew := (newFactsHold_iff_holds hsound.laid (hissued hresult) hes hholding).2 hholds
    exact ⟨hreached, s.enterAll es,
      returns_op.2 ⟨result, hresult, hvalue.symm, es, hes, hholding, rfl⟩, hnew⟩

theorem Carried.slice {view : Nat} {start stop : IntArg} {step : Int} {b part : Bytes}
    (h : Carried σ env s (.slice view start stop step) (.bytes part)) (hview : env.bytes view = .ok b) :
    ∃ first last, env.int start = .ok first ∧ env.int stop = .ok last ∧ part = (b.slice first last).value ∧
      ∀ c ∈ (b.slice first last).conditions, c.Holds σ := by
  rcases (carried_iff h.reached).1 h with ⟨result, es, hresult, hvalue, _, _, hholds⟩
  simp only [Op.eval, except_bind_ok, except_pure_ok, except_mapError_ok] at hresult
  rcases hresult with ⟨b', hb', first, hfirst, last, hlast, part', hpart, rfl⟩
  rw [hview] at hb'
  cases hb'
  unfold Bytes.sliceStep at hpart
  split at hpart
  · cases hpart
    cases hvalue
    rw [Provided.conditions_map] at hholds
    exact ⟨first, last, hfirst, hlast, rfl, hholds⟩
  · cases hpart

theorem Carried.byte {view : Nat} {offset : IntArg} {b : Bytes} {e : Expr}
    (h : Carried σ env s (.read .byte view offset) (.int e)) (hview : env.bytes view = .ok b) :
    ∃ key, env.int offset = .ok key ∧ e = (b.byteAt key).value ∧
      ∀ c ∈ (b.byteAt key).conditions, c.Holds σ := by
  rcases (carried_iff h.reached).1 h with ⟨result, es, hresult, hvalue, _, _, hholds⟩
  simp only [Op.eval, except_bind_ok, except_pure_ok] at hresult
  rcases hresult with ⟨b', hb', key, hkey, rfl⟩
  rw [hview] at hb'
  cases hb'
  cases hvalue
  rw [Provided.conditions_map] at hholds
  exact ⟨key, hkey, rfl, hholds⟩

theorem Sliced.content {data size : Argument} {b : Bytes}
    (hlength : ((σ.bytes data).length : Int) = σ.value size) (h : Sliced σ (.array data size) b) :
    b.Consistent ∧ b.source = data ∧ ∃ bytes, b.content? σ = some bytes := by
  induction h with
  | array => exact ⟨Bytes.consistent_array data size, rfl, _, Bytes.content?_array hlength⟩
  | slice _ hview hcall ih =>
    rcases ih with ⟨hb, hsource, bytes, hbytes⟩
    rcases hcall.slice hview with ⟨first, last, _, _, rfl, hconditions⟩
    rcases hb.content?_slice hbytes hconditions with ⟨i, j, _, _, _, _, hpart, _⟩
    exact ⟨hb.slice _ _, hsource, _, hpart⟩

end

/-- Two cuts, each at an argument. -/
def cutTwice : List Step :=
  [.openFrame [.named "binary", .named "u32", .named "u32"], .op (.bytes 0 (.frame 0)),
    .op (.int 1 (.frame 0)), .op (.int 2 (.frame 0)), .op (.slice 1 (.lit 0) (.register 2) 1)]

/-- Five bytes, to be cut to the first four, and these to the bytes from 1 up to 3. -/
def fiveBytes : Assignment where
  value a := [0, 5, 4, 3][a.index]?.getD 0
  bytes _ := [10, 20, 30, 40, 50]

def wholeArray : Bytes :=
  .array ⟨0, "arg_0", .byteArray ⟨.w32, false⟩, 0⟩ ⟨1, "arg_0_len", .integer ⟨.w32, false⟩, 0⟩

def outerSlice : Provided Bytes :=
  wholeArray.slice (.lit 0) (.argument ⟨2, "arg_1", .integer ⟨.w32, false⟩, 0⟩)

def innerSlice : Provided Bytes :=
  outerSlice.value.slice (.lit 1) (.argument ⟨3, "arg_2", .integer ⟨.w32, false⟩, 0⟩)

end Script

end GuardedC
