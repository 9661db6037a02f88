import GuardedC.Proofs.Windows
import Mathlib.Algebra.BigOperators.Ring.Finset

/-!
# Words

A word is read byte by byte, and put together from halves by shifts and disjunctions.
`ByteOrder.word` is the integer that bytes make up in a byte order, as a sum of place values, and
`word_reads` says that reading a word of a view yields just that, with all of its bytes inside the
view.

On the way it turns out when a word can be read at all: only at a known offset, from an array or
from a window that starts at a known position (`isLit_of_halves`, `Bytes.Formed.known_start`).
The expression is then one over known positions of the array (`IsWord`), and everything asserted is
about the length of the array.
-/

namespace GuardedC

/-! ## The integer of some bytes -/

namespace ByteOrder

/-- The place of byte `i` among `size` bytes, counted from the one of least value. -/
def place (order : ByteOrder) (size i : Nat) : Nat :=
  match order with
  | little => i
  | big => size - 1 - i

/-- The integer that `size` bytes make up. -/
def word (order : ByteOrder) (size : Nat) (byte : Nat → UInt8) : Nat :=
  ∑ i ∈ Finset.range size, (byte i).toNat * 256 ^ order.place size i

theorem word_one (order : ByteOrder) (byte : Nat → UInt8) : order.word 1 byte = (byte 0).toNat := by
  cases order <;> simp [word, place]

/-- With the least byte first, the second part of a word has the higher value. -/
theorem word_little_add (m n : Nat) (byte : Nat → UInt8) :
    little.word (m + n) byte = little.word m byte + 256 ^ m * little.word n fun i => byte (m + i) := by
  unfold word
  rw [Finset.sum_range_add, Finset.mul_sum]
  congr 1
  refine Finset.sum_congr rfl ?_
  intro i _
  simp only [place, pow_add]
  exact Nat.mul_left_comm _ _ _

/-- With the greatest byte first, the first part of a word has the higher value. -/
theorem word_big_add (m n : Nat) (byte : Nat → UInt8) :
    big.word (m + n) byte = 256 ^ n * big.word m byte + big.word n fun i => byte (m + i) := by
  unfold word
  rw [Finset.sum_range_add, Finset.mul_sum]
  congr 1
  · refine Finset.sum_congr rfl ?_
    intro i hi
    have hplace : m + n - 1 - i = n + (m - 1 - i) := by
      have hlt := Finset.mem_range.1 hi
      omega
    simp only [place, hplace, pow_add]
    exact Nat.mul_left_comm _ _ _
  · refine Finset.sum_congr rfl ?_
    intro i _
    have hplace : m + n - 1 - (m + i) = n - 1 - i := by omega
    simp only [place, hplace]

/-- Of two halves of a word, the one of lower value. -/
def low {α : Type} (order : ByteOrder) (first second : α) : α :=
  match order with
  | little => first
  | big => second

/-- Of two halves of a word, the one of higher value. -/
def high {α : Type} (order : ByteOrder) (first second : α) : α :=
  match order with
  | little => second
  | big => first

/-- A word in terms of its halves. -/
theorem word_halves (order : ByteOrder) (size : Nat) (byte : Nat → UInt8) :
    order.word (size + size) byte =
      order.low (order.word size byte) (order.word size fun i => byte (size + i)) +
        256 ^ size * order.high (order.word size byte) (order.word size fun i => byte (size + i)) := by
  cases order with
  | little => exact word_little_add size size byte
  | big =>
    rw [word_big_add, Nat.add_comm]
    rfl

theorem word_lt (order : ByteOrder) (size : Nat) (byte : Nat → UInt8) :
    order.word size byte < 256 ^ size := by
  induction size with
  | zero => simp [word]
  | succ n ih =>
    have hlast := (byte n).toNat_lt
    have hone := order.word_one fun i => byte (n + i)
    cases order with
    | little =>
      rw [word_little_add, hone]
      calc little.word n byte + 256 ^ n * (byte (n + 0)).toNat
          < 256 ^ n + 256 ^ n * (byte n).toNat := Nat.add_lt_add_right ih _
        _ = 256 ^ n * ((byte n).toNat + 1) := by rw [Nat.mul_succ, Nat.add_comm]
        _ ≤ 256 ^ n * 256 := Nat.mul_le_mul_left _ (by omega)
    | big =>
      rw [word_big_add, hone, pow_succ]
      simp only [Nat.add_zero]
      omega

end ByteOrder

/-! ## Words as expressions -/

/-- Two halves of `size` bytes each, put together. -/
def Expr.join (size : Nat) (low high : Expr) : Expr :=
  .binary Arith.bitOr low (.binary Arith.shl high (.lit (8 * size)))

/-- The expression reads `size` bytes of an array, from a known position on, as a word. -/
inductive IsWord (source : Argument) (order : ByteOrder) : Nat → Int → Expr → Prop where
  | byte {position : Int} : IsWord source order 1 position (.byteIndex (.argument source) (.lit position))
  | halves {size : Nat} {position : Int} {first second : Expr}
      (hfirst : IsWord source order size position first)
      (hsecond : IsWord source order size (position + size) second) :
      IsWord source order (size + size) position
        (.join size (order.low first second) (order.high first second))

/-- What holds at all positions of a word holds at those of its second half. -/
theorem second_half {P : Int → Nat → Prop} {position : Int} {size : Nat}
    (h : ∀ i < size + size, P (position + (i : Nat)) i) :
    ∀ i < size, P (position + size + (i : Nat)) (size + i) := by
  intro i hi
  have hposition := h (size + i) (by omega)
  rw [Nat.cast_add, ← Int.add_assoc] at hposition
  exact hposition

section

variable {σ : Assignment} {source : Argument} {order : ByteOrder} {size : Nat} {position : Int} {e : Expr}

theorem IsWord.literal? (h : IsWord source order size position e) : e.literal? = none := by
  cases h <;> rfl

/-- Halves do not overlap, so a disjunction of them is a sum. -/
theorem or_shift_eq_add {m n : Nat} (hm : m < 256 ^ size) :
    Int.lor (m : Int) ((n : Int) <<< (8 * size)) = ((m + 256 ^ size * n : Nat) : Int) := by
  have hpow : (2 : Nat) ^ (8 * size) = 256 ^ size := pow_mul 2 8 size
  have hor : m ||| n <<< (8 * size) = m + 256 ^ size * n := by
    rw [Nat.or_comm, ← Nat.shiftLeft_add_eq_or_of_lt (by rw [hpow]; exact hm), Nat.shiftLeft_eq, hpow,
      Nat.mul_comm, Nat.add_comm]
  rw [← Int.natCast_shiftLeft, ← hor]
  rfl

theorem Expr.eval?_join {low high : Expr} {m n : Nat} (hlow : low.eval? σ = some (m : Int))
    (hhigh : high.eval? σ = some (n : Int)) (hm : m < 256 ^ size) :
    (Expr.join size low high).eval? σ = some ((m + 256 ^ size * n : Nat) : Int) := by
  have hshift : (Expr.binary Arith.shl high (.lit (8 * size))).eval? σ =
      some ((n : Int) <<< (8 * size)) := by
    have hcount : ((8 : Int) * size).toNat = 8 * size := by omega
    rw [Expr.eval?_binary, hhigh, Expr.eval?_lit]
    show (if 0 ≤ (8 : Int) * size then some ((n : Int) <<< ((8 : Int) * size).toNat) else none) = _
    rw [if_pos (by omega), hcount]
  rw [Expr.join, Expr.eval?_binary, hlow, hshift, ← or_shift_eq_add hm]
  rfl

/-- A word has the value of its bytes. -/
theorem IsWord.eval? (h : IsWord source order size position e) {byte : Nat → UInt8}
    (hbytes : ∀ i < size, σ.byte? source (position + i) = some ((byte i).toNat : Int)) :
    e.eval? σ = some (order.word size byte : Int) := by
  induction h generalizing byte with
  | @byte position =>
    have hbyte := hbytes 0 (by omega)
    rw [Nat.cast_zero, Int.add_zero] at hbyte
    simp only [Expr.eval?, Expr.evalWith, Expr.locateWith]
    show σ.byte? source (0 + position) = _
    rw [Int.zero_add, hbyte, order.word_one]
  | @halves size position first second _ _ ihfirst ihsecond =>
    have hfirst : first.eval? σ = some (order.word size byte : Int) :=
      ihfirst fun i hi => hbytes i (by omega)
    have hsecond : second.eval? σ = some (order.word size (fun i => byte (size + i)) : Int) :=
      ihsecond (second_half (P := fun p i => σ.byte? source p = some ((byte i).toNat : Int)) hbytes)
    rw [order.word_halves]
    cases order with
    | little => exact Expr.eval?_join hfirst hsecond (ByteOrder.word_lt _ _ _)
    | big => exact Expr.eval?_join hsecond hfirst (ByteOrder.word_lt _ _ _)

end

/-! ## What can be asserted -/

/-- The condition can be asserted, in a session where the frames are alive. -/
def Cond.Recordable (c : Cond) : Prop := ∃ es, c.entries? = some es

theorem recordable_of_entriesOf? {cs : List Cond} {es : List FrameEntry} (h : entriesOf? cs = some es) :
    ∀ c ∈ cs, c.Recordable := by
  intro c hc
  rcases mem_entriesOf? h hc with ⟨xs, hxs, _⟩
  exact ⟨xs, hxs⟩

section

variable {op : Arith} {l r : Expr} {test : Comparison} {v : Int}

/-- An operation is carried out on known integers, or left as it is. -/
theorem Expr.arith_cases (op : Arith) (l r : Expr) :
    (∃ a b w, l = .lit a ∧ r = .lit b ∧ op.eval? a b = some w ∧ Expr.arith op l r = .lit w) ∨
      Expr.arith op l r = .binary op l r := by
  unfold Expr.arith
  split
  · rename_i a b ha hb
    cases hvalue : op.eval? a b with
    | none => exact .inr rfl
    | some w => exact .inl ⟨a, b, w, Expr.eq_lit_of_literal? ha, Expr.eq_lit_of_literal? hb, hvalue, rfl⟩
  · exact .inr rfl

/-- An operation compared with a known integer can be asserted only if it was carried out. -/
theorem Expr.isLit_of_recordable_left (h : ((Expr.arith op l r).compare test (.lit v)).Recordable) :
    ∃ a b w, l = .lit a ∧ r = .lit b ∧ op.eval? a b = some w ∧ Expr.arith op l r = .lit w := by
  rcases Expr.arith_cases op l r with hlit | hbinary
  · exact hlit
  · rw [hbinary] at h
    rcases h with ⟨es, hes⟩
    cases hes

theorem Expr.isLit_of_recordable_right (h : ((Expr.lit v).compare test (Expr.arith op l r)).Recordable) :
    ∃ a b w, l = .lit a ∧ r = .lit b ∧ op.eval? a b = some w ∧ Expr.arith op l r = .lit w := by
  rcases Expr.arith_cases op l r with hlit | hbinary
  · exact hlit
  · rw [hbinary] at h
    rcases h with ⟨es, hes⟩
    cases hes

end

/-! ## Reading halves -/

/-- `read` reads words of `size` bytes of a view, at known offsets. -/
structure YieldsWords (b : Bytes) (order : ByteOrder) (size : Nat)
    (read : Expr → Provided Expr) : Prop where
  /-- An offset that was computed has to be known. -/
  known : ∀ {op l r}, (∀ c ∈ (read (.arith op l r)).conditions, c.Recordable) →
    ∃ x y w, l = .lit x ∧ r = .lit y ∧ op.eval? x y = some w ∧ Expr.arith op l r = .lit w
  word : ∀ {start offset}, b.start = .lit start → (∀ c ∈ (read (.lit offset)).conditions, c.Recordable) →
    IsWord b.source order size (start + offset) (read (.lit offset)).value
  /-- Each byte is checked. -/
  covers : ∀ {offset}, (∀ c ∈ (read (.lit offset)).conditions, c.Recordable) → ∀ i < size,
    (b.byteAt (.lit (offset + i))).conditions ⊆ (read (.lit offset)).conditions

section

variable {b : Bytes} {order : ByteOrder} {size : Nat} {read : Expr → Provided Expr} {offset : Expr}

/-- A position of a view that begins at a known one is known too, if it can be compared with a known
integer. -/
theorem Bytes.Consistent.position_of_compare (hb : b.Consistent) {start k v : Int} {test : Comparison}
    (hstart : b.start = .lit start) (h : ((b.position (.lit k)).compare test (.lit v)).Recordable) :
    b.position (.lit k) = .lit (start + k) := by
  cases hw : b.isWindow with
  | false =>
    have hzero : start = 0 := Expr.lit.inj (hstart.symm.trans (hb.start_of_array hw))
    rw [position_of_array hw, hzero, Int.zero_add]
  | true =>
    rw [position_of_window hw, hstart] at h ⊢
    unfold Expr.shift at h ⊢
    split
    · rename_i hzero
      cases hzero
      rw [Int.zero_add]
    · rename_i hzero
      rw [if_neg hzero] at h
      rcases Expr.isLit_of_recordable_left h with ⟨x, y, z, hx, hy, hz, hsum⟩
      cases hx
      cases hy
      rw [hsum, (Wide.checked_eq_some.1 hz).2, Int.add_comm]

theorem Bytes.Consistent.position_of_recordable (hb : b.Consistent) {start k : Int}
    (hstart : b.start = .lit start) (h : ∀ c ∈ (b.byteAt (.lit k)).conditions, c.Recordable) :
    b.position (.lit k) = .lit (start + k) :=
  hb.position_of_compare hstart (h _ (hb.keyInside_subset (.lit k) (.head _)))

theorem yieldsWords_byteAt (hb : b.Consistent) (order : ByteOrder) : YieldsWords b order 1 b.byteAt where
  known h := Expr.isLit_of_recordable_left (h _ (.head _))
  word {start offset} hstart h := by
    rw [hb.value_byteAt, hb.position_of_recordable hstart h]
    exact .byte
  covers {offset} _ i hi := by
    have hzero : i = 0 := by omega
    subst hzero
    rw [Nat.cast_zero, Int.add_zero]
    exact fun c hc => hc

/-- A word of two halves asserts what its halves do. -/
theorem mem_conditions_readHalves {c : Cond} :
    c ∈ (Bytes.readHalves order size read offset).conditions ↔
      c ∈ (read offset).conditions ∨ c ∈ (read (.arith .add offset (.lit size))).conditions := by
  cases order with
  | little => simp [Bytes.readHalves]
  | big =>
    simp only [Bytes.readHalves, Provided.conditions_bind, Provided.conditions_pure, List.append_nil,
      List.mem_append]
    exact Or.comm

theorem isLit_of_halves (hread : YieldsWords b order size read)
    (h : ∀ c ∈ (Bytes.readHalves order size read offset).conditions, c.Recordable) :
    ∃ k, offset = .lit k := by
  rcases hread.known fun c hc => h c (mem_conditions_readHalves.2 (.inr hc)) with ⟨k, _, _, hk, _⟩
  exact ⟨k, hk⟩

/-- The second half begins at a known offset too. -/
theorem YieldsWords.after (hread : YieldsWords b order size read) {k : Int}
    (h : ∀ c ∈ (read (.arith .add (.lit k) (.lit size))).conditions, c.Recordable) :
    Expr.arith .add (.lit k) (.lit size) = .lit (k + size) := by
  rcases hread.known h with ⟨x, y, w, hx, hy, hw, hsum⟩
  cases hx
  cases hy
  rw [hsum, (Wide.checked_eq_some.1 hw).2]

theorem yieldsWords_readHalves (hread : YieldsWords b order size read) :
    YieldsWords b order (size + size) (Bytes.readHalves order size read) where
  known h := hread.known fun c hc => h c (mem_conditions_readHalves.2 (.inl hc))
  word {start k} hstart h := by
    have hfirst : ∀ c ∈ (read (.lit k)).conditions, c.Recordable :=
      fun c hc => h c (mem_conditions_readHalves.2 (.inl hc))
    have hsecond : ∀ c ∈ (read (.arith .add (.lit k) (.lit size))).conditions, c.Recordable :=
      fun c hc => h c (mem_conditions_readHalves.2 (.inr hc))
    have hafter := hread.after hsecond
    rw [hafter] at hsecond
    have hwordFirst := hread.word hstart hfirst
    have hwordSecond := hread.word hstart hsecond
    rw [← Int.add_assoc] at hwordSecond
    -- a byte is not known while tracing, so the halves are joined by operations
    have hjoin : ∀ low high : Expr, low.literal? = none → high.literal? = none →
        Expr.arith .bitOr low (.arith .shl high (.lit (8 * size))) = .join size low high := by
      intro low high hlow hhigh
      simp only [Expr.arith, hlow, hhigh, Expr.join]
    have hword := IsWord.halves hwordFirst hwordSecond
    rw [← hafter] at hword hwordSecond
    cases order with
    | little =>
      have hvalue := hjoin _ _ hwordFirst.literal? hwordSecond.literal?
      exact (congrArg (IsWord b.source _ _ _) hvalue).mpr hword
    | big =>
      have hvalue := hjoin _ _ hwordSecond.literal? hwordFirst.literal?
      exact (congrArg (IsWord b.source _ _ _) hvalue).mpr hword
  covers {k} h i hi c hc := by
    rw [mem_conditions_readHalves]
    by_cases hhalf : i < size
    · refine .inl (hread.covers ?_ i hhalf hc)
      exact fun c hc => h c (mem_conditions_readHalves.2 (.inl hc))
    · have hsecond : ∀ c ∈ (read (.arith .add (.lit k) (.lit size))).conditions, c.Recordable :=
        fun c hc => h c (mem_conditions_readHalves.2 (.inr hc))
      have hafter := hread.after hsecond
      rw [hafter] at hsecond ⊢
      have hindex : k + (i : Int) = k + size + ((i - size : Nat) : Int) := by omega
      rw [hindex] at hc
      exact .inr (hread.covers hsecond (i - size) (by omega) hc)

end

namespace Script

/-- The size of a word, in bytes, and the order of these. -/
def Read.word? : Read → Option (Nat × ByteOrder)
  | byte => none
  | word16 order => some (2, order)
  | word32 order => some (4, order)
  | word64 order => some (8, order)

section

variable {b : Bytes} {order : ByteOrder} {size : Nat} {what : Read}

theorem yieldsWords_read16 (hb : b.Consistent) (order : ByteOrder) :
    YieldsWords b order 2 (b.read16 order) :=
  yieldsWords_readHalves (yieldsWords_byteAt hb order)

theorem yieldsWords_read32 (hb : b.Consistent) (order : ByteOrder) :
    YieldsWords b order 4 (b.read32 order) :=
  yieldsWords_readHalves (yieldsWords_read16 hb order)

theorem yieldsWords_read (hb : b.Consistent) (h : what.word? = some (size, order)) :
    YieldsWords b order size (what.eval b) := by
  cases what with
  | byte => cases h
  | word16 _ =>
    cases h
    exact yieldsWords_read16 hb order
  | word32 _ =>
    cases h
    exact yieldsWords_read32 hb order
  | word64 _ =>
    cases h
    exact yieldsWords_readHalves (yieldsWords_read32 hb order)

/-- A word is read at a known offset, or not at all. -/
theorem isLit_of_read (hb : b.Consistent) (hword : what.word? = some (size, order)) {offset : Expr}
    (h : ∀ c ∈ (what.eval b offset).conditions, c.Recordable) : ∃ k, offset = .lit k := by
  cases what with
  | byte => cases hword
  | word16 order => exact isLit_of_halves (yieldsWords_byteAt hb order) h
  | word32 order => exact isLit_of_halves (yieldsWords_read16 hb order) h
  | word64 order => exact isLit_of_halves (yieldsWords_read32 hb order) h

end

end Script

/-! ## Words of views -/

/-- The byte at a position of a view, if this is inside the view. -/
def Bytes.byte? (σ : Assignment) (b : Bytes) (k : Int) : Option Int := do
  let start ← b.start.eval? σ
  let length ← b.length.eval? σ
  if 0 ≤ k ∧ k < length then σ.byte? b.source (start + k) else none

section

variable {σ : Assignment} {s : Session} {b : Bytes}

/-- A window of which a byte can be read at a known position has known bounds. -/
theorem Bytes.Formed.known_window (hb : b.Formed s) {k : Int}
    (h : ∀ c ∈ (b.byteAt (.lit k)).conditions, c.Recordable) (hw : b.isWindow = true) :
    (∃ start, b.start = .lit start) ∧ ∃ length, b.length = .lit length := by
  have hcheck : ((Expr.lit k).compare .lt b.length).Recordable := h _ (.tail _ (.head _))
  rcases hb.window hw with ⟨stop, hlength⟩
  rw [hlength] at hcheck ⊢
  rcases Expr.isLit_of_recordable_right hcheck with ⟨_, start, length, _, hstart, _, hsize⟩
  exact ⟨⟨start, hstart⟩, length, hsize⟩

theorem Bytes.Formed.known_start (hb : b.Formed s) {k : Int}
    (h : ∀ c ∈ (b.byteAt (.lit k)).conditions, c.Recordable) : ∃ start, b.start = .lit start := by
  cases hw : b.isWindow with
  | false => exact ⟨0, hb.consistent.start_of_array hw⟩
  | true => exact (hb.known_window h hw).1

/-- All arguments that a view with known bounds leads to belong to the frame of the array. -/
theorem Bytes.Formed.over_of_known (hb : b.Formed s)
    (h : b.isWindow = true → (∃ start, b.start = .lit start) ∧ ∃ length, b.length = .lit length) :
    b.Over fun a => s.Issued a ∧ a.frame = b.source.frame := by
  refine hb.consistent.over ⟨hb.issued_source, rfl⟩ ⟨hb.issued_sourceLength, hb.frame_eq⟩ ?_
  intro hw
  rcases h hw with ⟨⟨start, hstart⟩, length, hlength⟩
  rw [hstart, hlength]
  exact ⟨Expr.over_lit _, Expr.over_lit _⟩

theorem Bytes.Formed.over_frame (hb : b.Formed s) {k : Int}
    (h : ∀ c ∈ (b.byteAt (.lit k)).conditions, c.Recordable) :
    b.Over fun a => s.Issued a ∧ a.frame = b.source.frame :=
  hb.over_of_known fun hw => hb.known_window h hw

/-- A byte that is provided for is one of the view. -/
theorem Bytes.Consistent.exists_byte (hb : b.Consistent) {start k : Int} (hstart : b.start = .lit start)
    (hlength : σ.value b.sourceLength ≤ (σ.bytes b.source).length)
    (h : ∀ c ∈ (b.byteAt (.lit k)).conditions, c.Holds σ) :
    ∃ byte : UInt8, b.byte? σ k = some (byte.toNat : Int) ∧
      σ.byte? b.source (start + k) = some (byte.toNat : Int) ∧ start + k < σ.value b.sourceLength := by
  have hstart' : b.start.eval? σ = some start := by
    rw [hstart]
    exact Expr.eval?_lit start
  have hview : ∀ c ∈ Bytes.keyInside (.lit k) b.length, c.Holds σ :=
    fun c hc => h c (List.mem_append_left _ hc)
  rcases holds_keyInside hview with ⟨x, n, hx, hn, hlow, hhigh⟩
  rw [Expr.eval?_lit, Option.some.injEq] at hx
  subst hx
  rcases exists_of_byteAt hb h with ⟨y, hy, hylow, hyhigh⟩
  rw [hb.eval?_position hstart' (Expr.eval?_lit k), Option.some.injEq] at hy
  subst hy
  have hinside : (start + k).toNat < (σ.bytes b.source).length := by omega
  have hbyte : σ.byte? b.source (start + k) =
      some (((σ.bytes b.source)[(start + k).toNat]).toNat : Int) := by
    rw [Assignment.byte?, if_pos hylow, List.getElem?_eq_getElem hinside]
    rfl
  refine ⟨_, ?_, hbyte, hyhigh⟩
  unfold Bytes.byte?
  rw [hstart', hn]
  show (if 0 ≤ k ∧ k < n then σ.byte? b.source (start + k) else none) = _
  rw [if_pos ⟨hlow, hhigh⟩]
  exact hbyte

end

namespace Script

section

variable {env : Env} {s s' : Session} {view : Nat} {b : Bytes} {what : Read} {size : Nat}
  {order : ByteOrder} {offset : IntArg} {e : Expr}

/-- What there is to know of a word that was read. -/
theorem isWord_of_read (hreached : Reached env s) (hview : env.bytes view = .ok b)
    (hword : what.word? = some (size, order))
    (h : Returns ((Step.op (.read what view offset)).run env) s (.value (.int e)) s') :
    ∃ f start k, s'.frame? b.source.frame = some f ∧ env.int offset = .ok (.lit k) ∧ b.start = .lit start ∧
      IsWord b.source order size (start + k) e ∧
        ∀ σ : Assignment, f.FactsHold σ → σ.value b.sourceLength ≤ (σ.bytes b.source).length →
          ∃ byte : Nat → UInt8, ∀ i < size, b.byte? σ (k + i) = some ((byte i).toNat : Int) ∧
            σ.byte? b.source (start + k + i) = some ((byte i).toNat : Int) ∧
              start + k + i < σ.value b.sourceLength := by
  have hsound := hreached.sound
  rcases returns_op.1 h with ⟨result, hresult, hvalue, es, hes, hholding, rfl⟩
  simp only [Op.eval, except_bind_ok, except_pure_ok] at hresult
  rcases hresult with ⟨b', hb', key, hkey, rfl⟩
  rw [hview] at hb'
  cases hb'
  cases hvalue
  have hentries : entriesOf? (what.eval b key).conditions = some es := by
    rwa [Provided.conditions_map] at hes
  have hrecordable : ∀ c ∈ (what.eval b key).conditions, c.Recordable := recordable_of_entriesOf? hentries
  have hformed := hsound.formed hview
  rcases isLit_of_read hformed.consistent hword hrecordable with ⟨k, rfl⟩
  have hyields : YieldsWords b order size (what.eval b) := yieldsWords_read hformed.consistent hword
  have hcovers := hyields.covers hrecordable
  have hfirst : (b.byteAt (.lit k)).conditions ⊆ (what.eval b (.lit k)).conditions := by
    have hsize : 0 < size := by
      cases what <;> cases hword <;> decide
    have hzero := hcovers 0 hsize
    rw [Nat.cast_zero, Int.add_zero] at hzero
    exact hzero
  have hfirstRecordable : ∀ c ∈ (b.byteAt (.lit k)).conditions, c.Recordable :=
    fun c hc => hrecordable c (hfirst hc)
  rcases hformed.known_start hfirstRecordable with ⟨start, hstart⟩
  have hall : ∀ c ∈ (what.eval b (.lit k)).conditions,
      c.All (Expr.Over fun a => s.Issued a ∧ a.frame = b.source.frame) := by
    have hkeeps :=
      closed_over.sorted.keeps_read (hformed.over_frame hfirstRecordable) what (Expr.over_lit k)
    exact (hkeeps fun _ _ => trivial).1
  -- the first byte is checked against the length of the array, so something is recorded in its
  -- frame
  have halive : ∃ f, s.frame? b.source.frame = some f := by
    have hcheck : ((b.position (.lit k)).compare .lt b.arrayLength) ∈ (what.eval b (.lit k)).conditions :=
      hfirst (hformed.consistent.keyInside_subset (.lit k) (.tail _ (.head _)))
    rw [hformed.consistent.position_of_recordable hstart hfirstRecordable,
      hformed.consistent.arrayLength] at hcheck
    rcases mem_entriesOf? hentries hcheck with ⟨xs, hxs, hsub⟩
    cases hxs
    have hx := hsub (.head _)
    have hframe := (recorded_over.of_entries hall hentries _ hx).2
    have hsome := hholding _ hx
    rw [hframe] at hsome
    exact Option.isSome_iff_exists.1 hsome
  rcases halive with ⟨f, hf⟩
  have hf' := s.frame?_enterAll es b.source.frame
  rw [hf] at hf'
  refine ⟨_, start, k, hf', hkey, hstart, hyields.word hstart hrecordable, ?_⟩
  intro σ hfacts hlength
  have hholds := holds_of_factsHold hsound.laid hall hentries hholding hf' hfacts
  have hbytes : ∀ i < size, ∃ byte : UInt8, b.byte? σ (k + i) = some (byte.toNat : Int) ∧
      σ.byte? b.source (start + k + i) = some (byte.toNat : Int) ∧
        start + k + i < σ.value b.sourceLength := by
    intro i hi
    have hbyte := hformed.consistent.exists_byte hstart hlength fun c hc => hholds c (hcovers i hi hc)
    rw [← Int.add_assoc] at hbyte
    exact hbyte
  choose! byte hbyte using hbytes
  exact ⟨byte, hbyte⟩

end

/-- A word that was read of a view is the integer that the bytes of the view make up, from the
offset on and in the byte order of the word, and all these bytes are inside the view, wherever the
facts hold that the frame of the array has by then. The view is the array or a slice of it. -/
theorem word_reads {env : Env} {s s' : Session} {view : Nat} {b : Bytes} {what : Read} {size : Nat}
    {order : ByteOrder} {offset : IntArg} {e : Expr} (hreached : Reached env s)
    (hview : env.bytes view = .ok b) (hword : what.word? = some (size, order))
    (h : Returns ((Step.op (.read what view offset)).run env) s (.value (.int e)) s') :
    b.Consistent ∧ ∃ f k, s'.frame? b.source.frame = some f ∧ env.int offset = .ok (.lit k) ∧
      ∀ σ : Assignment, f.FactsHold σ → σ.value b.sourceLength ≤ (σ.bytes b.source).length →
        ∃ byte : Nat → UInt8, (∀ i < size, b.byte? σ (k + i) = some ((byte i).toNat : Int)) ∧
          e.eval? σ = some (order.word size byte : Int) := by
  rcases isWord_of_read hreached hview hword h with ⟨f, start, k, hf, hoffset, _, hisWord, hbytes⟩
  refine ⟨(hreached.sound.formed hview).consistent, f, k, hf, hoffset, ?_⟩
  intro σ hfacts hlength
  rcases hbytes σ hfacts hlength with ⟨byte, hbyte⟩
  exact ⟨byte, fun i hi => (hbyte i hi).1, hisWord.eval? fun i hi => (hbyte i hi).2.1⟩

/-- A window onto a window of an array. -/
def windowTwice : List Step :=
  [.openFrame [.named "binary"], .op (.bytes 0 (.frame 0)), .op (.slice 1 (.lit 2) (.lit 12) 1),
    .op (.slice 2 (.lit 1) (.lit 9) 1)]

/-- The bytes from 0 to 12, the last of which the length leaves out. -/
def countedBytes : Assignment where
  value a := [0, 12][a.index]?.getD 0
  bytes _ := [0, 1, 2, 3, 4, 5, 6, 7, 8, 9, 10, 11, 12]

def innermostWindow : Bytes :=
  ((wholeArray.slice (.lit 2) (.lit 12)).value.slice (.lit 1) (.lit 9)).value

theorem word_reads_windowTwice :
    let start := after {} Session.empty windowTwice
    let read := Step.op (.read (.word32 .big) 3 (.lit 2))
    let e := (innermostWindow.read32 .big (.lit 2)).value
    Returns (read.run start.1) start.2 (.value (.int e)) (read.attempt start.1 start.2).2 ∧
      e.render = "(((arg_0[8]) | ((arg_0[7]) << 8)) | (((arg_0[6]) | ((arg_0[5]) << 8)) << 16))" ∧
        ∃ f, (read.attempt start.1 start.2).2.frame? 0 = some f ∧ f.FactsHold countedBytes ∧
          ∃ byte : Nat → UInt8,
            (∀ i < 4, innermostWindow.byte? countedBytes (2 + (i : Nat)) = some ((byte i).toNat : Int)) ∧
              e.eval? countedBytes = some (ByteOrder.big.word 4 byte : Int) := by
  intro start read e
  have hreached : Reached start.1 start.2 := Reached.empty.after _
  have hview : start.1.bytes 3 = .ok innermostWindow := by decide +kernel
  have hreturns : Returns (read.run start.1) start.2 (.value (.int e)) (read.attempt start.1 start.2).2 :=
    Prod.ext (by decide +kernel) rfl
  have hfacts : ∀ f ∈ (read.attempt start.1 start.2).2.frame? 0,
    f.FactsHold countedBytes := by decide +kernel
  rcases word_reads hreached hview rfl hreturns with ⟨_, f, k, hf, hoffset, hword⟩
  cases hoffset
  exact ⟨hreturns, by decide +kernel, f, hf, hfacts f hf, hword countedBytes (hfacts f hf) (by decide)⟩

end Script

end GuardedC
