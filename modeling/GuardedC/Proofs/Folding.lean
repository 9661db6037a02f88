import GuardedC.Proofs.Meaning

/-!
# Folding known integers

An operation on two known integers is carried out at once, in 128 bits, if it has a value there.
This module compares that value with the exact one, which `Arith.IsResult` describes by what it must
satisfy.

* Operations on the bits of a word are the operations on integers with bits without end
  (`toInt_eq_bitwise`), since beyond the word an integer that fits has nothing but copies of its
  sign.
* `eval?_eq_checked`: all operations but the shift to the left yield the exact value or none.
* The shift to the left drops the bits that leave the word, and `folds_exactly_iff` says when this
  is seen.
-/

namespace GuardedC

/-! ## Exact results -/

/-- `r` is what the operation yields in the integers. -/
def Arith.IsResult : Arith → Int → Int → Int → Prop
  | add, a, b, r => r = a + b
  | sub, a, b, r => r = a - b
  | mul, a, b, r => r = a * b
  -- towards zero
  | div, a, b, r => b ≠ 0 ∧ r = a.tdiv b
  | shl, a, b, r => 0 ≤ b ∧ r = a * 2 ^ b.toNat
  -- towards minus infinity
  | shr, a, b, r => 0 ≤ b ∧ r * 2 ^ b.toNat ≤ a ∧ a < (r + 1) * 2 ^ b.toNat
  | bitOr, a, b, r => ∀ k, r.testBit k = (a.testBit k || b.testBit k)
  | bitXor, a, b, r => ∀ k, r.testBit k = (a.testBit k ^^ b.testBit k)
  | bitAnd, a, b, r => ∀ k, r.testBit k = (a.testBit k && b.testBit k)

/-- Far enough to the left, the bits of an integer repeat its sign. -/
theorem exists_testBit_eq_sign (v : Int) : ∃ n, ∀ k, n ≤ k → v.testBit k = decide (v < 0) := by
  have hhigh : ∀ m k : Nat, m ≤ k → m.testBit k = false := by
    intro m k hk
    exact Nat.testBit_lt_two_pow (Nat.lt_of_le_of_lt hk Nat.lt_two_pow_self)
  cases v with
  | ofNat m =>
    refine ⟨m, fun k hk => ?_⟩
    simp [Int.testBit, hhigh m k hk]
  | negSucc m =>
    refine ⟨m, fun k hk => ?_⟩
    simp [Int.testBit, hhigh m k hk, Int.negSucc_lt_zero]

/-- An integer is determined by its bits. -/
theorem eq_of_testBit_eq {v w : Int} (h : ∀ k, v.testBit k = w.testBit k) : v = w := by
  have hsign : v < 0 ↔ w < 0 := by
    obtain ⟨m, hm⟩ := exists_testBit_eq_sign v
    obtain ⟨n, hn⟩ := exists_testBit_eq_sign w
    rw [← decide_eq_decide, ← hm (max m n) (le_max_left m n), ← hn (max m n) (le_max_right m n)]
    exact h _
  cases v with
  | ofNat m =>
    cases w with
    | ofNat n => exact congrArg Int.ofNat (Nat.eq_of_testBit_eq h)
    | negSucc n => exact absurd (hsign.2 (Int.negSucc_lt_zero n)) (Int.not_lt.2 (Int.natCast_nonneg m))
  | negSucc m =>
    cases w with
    | ofNat n => exact absurd (hsign.1 (Int.negSucc_lt_zero m)) (Int.not_lt.2 (Int.natCast_nonneg n))
    | negSucc n =>
      refine congrArg Int.negSucc (Nat.eq_of_testBit_eq fun k => ?_)
      exact Bool.not_inj (h k)

theorem Arith.exact?_eq_some {op : Arith} {a b r : Int} : op.exact? a b = some r ↔ op.IsResult a b r := by
  -- an integer with the right bits is a result, and the only one
  have hbits : ∀ {f : Int} {g : Nat → Bool}, (∀ k, f.testBit k = g k) →
      (some f = some r ↔ ∀ k, r.testBit k = g k) := by
    intro f g hf
    rw [Option.some.injEq]
    constructor
    · rintro rfl
      exact hf
    · intro hr
      exact eq_of_testBit_eq fun k => (hf k).trans (hr k).symm
  cases op with
  | add => simp [IsResult, Arith.exact?, eq_comm]
  | sub => simp [IsResult, Arith.exact?, eq_comm]
  | mul => simp [IsResult, Arith.exact?, eq_comm]
  | div => simp [IsResult, Arith.exact?, eq_comm]
  | shl => simp [IsResult, Arith.exact?, eq_comm, Int.shiftLeft_eq]
  | shr =>
    have hpos : (0 : Int) < 2 ^ b.toNat := Int.pow_pos (by decide)
    simp only [IsResult, Arith.exact?, Option.ite_none_right_eq_some, Option.some.injEq,
      Int.shiftRight_eq_div_pow]
    refine and_congr_right fun _ => ?_
    rw [Int.natCast_pow, Int.add_mul, Int.one_mul]
    exact Int.ediv_eq_iff_of_pos hpos
  | bitOr => exact hbits (Int.testBit_lor a b)
  | bitXor => exact hbits (Int.testBit_lxor a b)
  | bitAnd => exact hbits (Int.testBit_land a b)

/-! ## Bits of a word -/

namespace Wide

theorem getLsbD_bits (v : Int) {k : Nat} (hk : k < 128) : (bits v).getLsbD k = v.testBit k := by
  unfold bits
  cases v with
  | ofNat n =>
    show (BitVec.ofInt 128 (n : Int)).getLsbD k = n.testBit k
    rw [BitVec.ofInt_natCast, BitVec.getLsbD_ofNat]
    simp [hk]
  | negSucc n =>
    show _ = !n.testBit k
    rw [BitVec.ofInt_negSucc_eq_not_ofNat, BitVec.getLsbD_not, BitVec.getLsbD_ofNat]
    simp [hk]

/-- The bits of an integer that fits repeat its sign from the highest bit of the word on. -/
theorem fits_iff_testBit {v : Int} : Fits v ↔ ∃ sign, ∀ k, 127 ≤ k → v.testBit k = sign := by
  have hbound : ∀ n : Nat, n < 2 ^ 127 ↔ ∀ k, 127 ≤ k → n.testBit k = false := by
    intro n
    constructor
    · intro hn k hk
      exact Nat.testBit_lt_two_pow (Nat.lt_of_lt_of_le hn (Nat.pow_le_pow_right (by decide) hk))
    · intro h
      exact Nat.lt_pow_two_of_testBit n h
  -- a negative integer is the complement of a natural number, so one bound serves both signs
  have hfits : Fits v ↔ ∀ k, 127 ≤ k → v.testBit k = decide (v < 0) := by
    cases v with
    | ofNat n =>
      have hsign : ¬ (Int.ofNat n < 0) := by simp
      simp only [Int.testBit, hsign, decide_false, ← hbound n, Fits, lowest, highest]
      show _ ≤ (n : Int) ∧ (n : Int) ≤ _ ↔ _
      omega
    | negSucc n =>
      have hsign : Int.negSucc n < 0 := Int.negSucc_lt_zero n
      simp only [Int.testBit, hsign, decide_true, Bool.not_eq_true', ← hbound n, Fits, lowest, highest]
      omega
  rw [hfits]
  constructor
  · intro h
    exact ⟨_, h⟩
  · rintro ⟨sign, h⟩ k hk
    obtain ⟨n, hn⟩ := exists_testBit_eq_sign v
    rw [h k hk, ← h (max n 127) (le_max_right n 127)]
    exact hn _ (le_max_left n 127)

theorem fits_bitwise (f : Bool → Bool → Bool) {a b : Int} (ha : Fits a) (hb : Fits b) :
    Fits (Int.bitwise f a b) := by
  obtain ⟨signA, hsignA⟩ := fits_iff_testBit.1 ha
  obtain ⟨signB, hsignB⟩ := fits_iff_testBit.1 hb
  refine fits_iff_testBit.2 ⟨f signA signB, fun k hk => ?_⟩
  rw [Int.testBit_bitwise, hsignA k hk, hsignB k hk]

theorem toInt_bits {v : Int} (h : Fits v) : (bits v).toInt = v := by
  unfold Fits lowest highest at h
  exact BitVec.toInt_ofInt_eq_self (by decide) (by omega) (by omega)

/-- A pattern whose bits come from those of two integers is that of the integer whose bits come from
theirs. -/
theorem eq_bits_bitwise (f : Bool → Bool → Bool) {x : BitVec 128} {a b : Int}
    (hx : ∀ k, k < 128 → x.getLsbD k = f ((bits a).getLsbD k) ((bits b).getLsbD k)) :
    x = bits (Int.bitwise f a b) := by
  refine BitVec.eq_of_getLsbD_eq fun k hk => ?_
  rw [hx k hk, getLsbD_bits _ hk, getLsbD_bits _ hk, getLsbD_bits _ hk, Int.testBit_bitwise]

theorem toInt_eq_bitwise (f : Bool → Bool → Bool) {x : BitVec 128} {a b : Int} (ha : Fits a) (hb : Fits b)
    (hx : ∀ k, k < 128 → x.getLsbD k = f ((bits a).getLsbD k) ((bits b).getLsbD k)) :
    x.toInt = Int.bitwise f a b := by
  rw [eq_bits_bitwise f hx, toInt_bits (fits_bitwise f ha hb)]

theorem checked_of_fits {v : Int} (h : Fits v) : checked v = some v := if_pos h

end Wide

/-! ## Values of operations -/

namespace Arith

variable {op : Arith} {a b : Int}

theorem fits_shiftRight (ha : Wide.Fits a) (n : Nat) : Wide.Fits (a >>> n) := by
  have hpos : (0 : Int) < 2 ^ n := Int.pow_pos (by decide)
  have hlow : Wide.lowest * 2 ^ n ≤ Wide.lowest * 1 :=
    Int.mul_le_mul_of_nonpos_left (by decide) (by omega)
  have hhigh : (Wide.highest + 1) * 1 ≤ (Wide.highest + 1) * 2 ^ n :=
    Int.mul_le_mul_of_nonneg_left (by omega) (by decide)
  obtain ⟨hleast, hgreatest⟩ := ha
  rw [Int.shiftRight_eq_div_pow, Int.natCast_pow]
  refine ⟨(Int.le_ediv_iff_mul_le hpos).2 (by omega), ?_⟩
  have hbelow : a / 2 ^ n < Wide.highest + 1 := (Int.ediv_lt_iff_lt_mul hpos).2 (by omega)
  exact Int.lt_add_one_iff.1 hbelow

/-- But for the shift to the left, an operation has the exact value where that fits, and else
none. -/
theorem eval?_eq_checked (hop : op ≠ .shl) (hshift : op = .shr → b < 128) (ha : Wide.Fits a)
    (hb : Wide.Fits b) :
    op.eval? a b = op.exact? a b >>= Wide.checked := by
  -- operations on bits are not checked when they are carried out, but they would pass the check
  have hbits : ∀ (f : Bool → Bool → Bool) {x : BitVec 128} {r : Int}, r = Int.bitwise f a b →
      (∀ k, k < 128 → x.getLsbD k = f ((Wide.bits a).getLsbD k) ((Wide.bits b).getLsbD k)) →
        some x.toInt = some r >>= Wide.checked := by
    rintro f x r rfl hx
    rw [Option.bind_eq_bind, Option.bind_some, Wide.checked_of_fits (Wide.fits_bitwise f ha hb),
      Wide.toInt_eq_bitwise f ha hb hx]
  cases op with
  | add => rfl
  | sub => rfl
  | mul => rfl
  | div =>
    by_cases hzero : b = 0
    · simp [eval?, Arith.exact?, hzero]
    · simp [eval?, Arith.exact?, hzero]
  | shl => exact absurd rfl hop
  | shr =>
    by_cases hnonneg : 0 ≤ b
    · simp [eval?, Arith.exact?, hnonneg, hshift rfl, Wide.checked_of_fits (fits_shiftRight ha _)]
    · simp [eval?, Arith.exact?, hnonneg]
  | bitOr => exact hbits or (by rw [Int.bitwise_or]) fun k _ => BitVec.getLsbD_or
  | bitXor => exact hbits xor (by rw [Int.bitwise_xor]) fun k _ => BitVec.getLsbD_xor
  | bitAnd => exact hbits and (by rw [Int.bitwise_and]) fun k _ => BitVec.getLsbD_and

/-- A shift by the width of the word or more is not carried out. -/
theorem eval?_of_wide_shift (hop : op = .shl ∨ op = .shr) (hb : 128 ≤ b) : op.eval? a b = none := by
  have hnot : ¬ (0 ≤ b ∧ b < 128) := by omega
  rcases hop with rfl | rfl
  · exact if_neg hnot
  · exact if_neg hnot

theorem eval?_shl (hlow : 0 ≤ b) (hhigh : b < 128) :
    shl.eval? a b = some ((a * 2 ^ b.toNat).bmod (2 ^ 128)) := by
  rw [eval?, if_pos ⟨hlow, hhigh⟩, Int.shiftLeft_eq]
  rfl

end Arith

/-! ## Folding -/

namespace Expr

variable {op : Arith} {a b v : Int}

theorem arith_eq_lit : arith op (lit a) (lit b) = lit v ↔ op.eval? a b = some v := by
  show ((op.eval? a b).map lit).getD (binary op (lit a) (lit b)) = lit v ↔ _
  cases op.eval? a b <;> simp

theorem arith_eq_binary : arith op (lit a) (lit b) = binary op (lit a) (lit b) ↔ op.eval? a b = none := by
  show ((op.eval? a b).map lit).getD (binary op (lit a) (lit b)) = _ ↔ _
  cases op.eval? a b <;> simp

end Expr

/-- A folded operation is the exact result, and one whose result does not fit is left as it was
written. -/
structure Arith.FoldsExactly (op : Arith) (a b : Int) : Prop where
  result : ∀ v, Expr.arith op (.lit a) (.lit b) = .lit v → op.IsResult a b v
  unfit : ∀ r, op.IsResult a b r → ¬ Wide.Fits r →
    Expr.arith op (.lit a) (.lit b) = .binary op (.lit a) (.lit b)

namespace Arith

variable {op : Arith} {a b r : Int}

/-- A result that fits is found, unless a shift goes too far. -/
theorem eval?_of_fits (ha : Wide.Fits a) (hb : Wide.Fits b) (hresult : op.IsResult a b r) (hr : Wide.Fits r)
    (hshift : op = .shl ∨ op = .shr → b < 128) : op.eval? a b = some r := by
  by_cases hop : op = .shl
  · subst hop
    obtain ⟨hlow, rfl⟩ := hresult
    have hword : (a * 2 ^ b.toNat).bmod (2 ^ 128) = a * 2 ^ b.toNat := by
      unfold Wide.Fits Wide.lowest Wide.highest at hr
      exact Int.bmod_eq_of_le (by omega) (by omega)
    rw [eval?_shl hlow (hshift (.inl rfl)), hword]
  · rw [eval?_eq_checked hop (fun h => hshift (.inr h)) ha hb, exact?_eq_some.2 hresult]
    exact Wide.checked_of_fits hr

theorem foldsExactly_of_ne_shl (hop : op ≠ .shl) (ha : Wide.Fits a) (hb : Wide.Fits b) :
    op.FoldsExactly a b := by
  by_cases hfar : op = .shr ∧ 128 ≤ b
  · have hnone : op.eval? a b = none := eval?_of_wide_shift (.inr hfar.1) hfar.2
    refine ⟨fun v hv => ?_, fun r _ _ => Expr.arith_eq_binary.2 hnone⟩
    rw [Expr.arith_eq_lit, hnone] at hv
    cases hv
  · have heval := eval?_eq_checked hop (fun h => by_contra fun hb => hfar ⟨h, by omega⟩) ha hb
    constructor
    · intro v hv
      rw [Expr.arith_eq_lit, heval, Option.bind_eq_bind, Option.bind_eq_some_iff] at hv
      obtain ⟨r, hr, hchecked⟩ := hv
      obtain ⟨_, rfl⟩ := Wide.checked_eq_some.1 hchecked
      exact exact?_eq_some.1 hr
    · intro r hr hunfit
      rw [Expr.arith_eq_binary, heval, exact?_eq_some.2 hr]
      exact if_neg hunfit

/-- A shift to the left is folded exactly if it is not carried out, or if no bit leaves the word. -/
theorem foldsExactly_shl_iff (ha : Wide.Fits a) (hb : Wide.Fits b) :
    shl.FoldsExactly a b ↔ (0 ≤ b → b < 128 → Wide.Fits (a * 2 ^ b.toNat)) := by
  by_cases hcount : 0 ≤ b ∧ b < 128
  · obtain ⟨hlow, hhigh⟩ := hcount
    have hresult : shl.IsResult a b (a * 2 ^ b.toNat) := ⟨hlow, rfl⟩
    constructor
    · intro h _ _
      -- a count below the width is always carried out, so an unfit result would not be left as it
      -- was written
      by_contra hunfit
      have hnone := Expr.arith_eq_binary.1 (h.unfit _ hresult hunfit)
      rw [eval?_shl hlow hhigh] at hnone
      cases hnone
    · intro h
      have hfits := h hlow hhigh
      have hsome := eval?_of_fits ha hb hresult hfits fun _ => hhigh
      refine ⟨fun v hv => ?_, ?_⟩
      · rw [Expr.arith_eq_lit, hsome, Option.some.injEq] at hv
        exact hv ▸ hresult
      · rintro r ⟨_, rfl⟩ hunfit
        exact absurd hfits hunfit
  · have hnone : shl.eval? a b = none := if_neg hcount
    refine iff_of_true ⟨fun v hv => ?_, fun r _ _ => Expr.arith_eq_binary.2 hnone⟩ ?_
    · rw [Expr.arith_eq_lit, hnone] at hv
      cases hv
    · intro hlow hhigh
      exact absurd ⟨hlow, hhigh⟩ hcount

end Arith

/-- Folding is exact but for one case: a shift to the left by less than the width of the word, whose
result does not fit. There it yields what is left of the result in the word. All else that has a
result which fits is folded, shifts by the width or more apart. -/
theorem folds_exactly_iff (op : Arith) {a b : Int} (ha : Wide.Fits a) (hb : Wide.Fits b) :
    (op.FoldsExactly a b ↔ (op = .shl → 0 ≤ b → b < 128 → Wide.Fits (a * 2 ^ b.toNat))) ∧
      (op = .shl → 0 ≤ b → b < 128 →
        Expr.arith op (.lit a) (.lit b) = .lit ((a * 2 ^ b.toNat).bmod (2 ^ 128))) ∧
      ∀ r, op.IsResult a b r → Wide.Fits r → (op = .shl ∨ op = .shr → b < 128) →
        Expr.arith op (.lit a) (.lit b) = .lit r := by
  refine ⟨?_, ?_, ?_⟩
  · by_cases hop : op = .shl
    · subst hop
      rw [Arith.foldsExactly_shl_iff ha hb]
      exact ⟨fun h _ => h, fun h => h rfl⟩
    · exact iff_of_true (Arith.foldsExactly_of_ne_shl hop ha hb) fun h => absurd h hop
  · rintro rfl hlow hhigh
    exact Expr.arith_eq_lit.2 (Arith.eval?_shl hlow hhigh)
  · intro r hresult hr hshift
    exact Expr.arith_eq_lit.2 (Arith.eval?_of_fits ha hb hresult hr hshift)

/-- The least integer is minus one moved to the highest bit; one moved there does not fit, and is
folded to it too. -/
theorem folds_exactly_iff_highestBit :
    (Wide.Fits (-1) ∧ Wide.Fits 1 ∧ Wide.Fits 127) ∧ Arith.shl.FoldsExactly (-1) 127 ∧
      ¬ Arith.shl.FoldsExactly 1 127 ∧ Expr.arith .shl (.lit 1) (.lit 127) = .lit Wide.lowest := by
  have hfits : Wide.Fits (-1) ∧ Wide.Fits 1 ∧ Wide.Fits 127 := by decide
  have hminus := folds_exactly_iff .shl hfits.1 hfits.2.2
  have hone := folds_exactly_iff .shl hfits.2.1 hfits.2.2
  refine ⟨hfits, hminus.1.2 ?_, fun h => ?_, ?_⟩
  · intro _ _ _
    decide
  · exact absurd (hone.1.1 h rfl (by decide) (by decide)) (by decide)
  · exact hone.2.1 rfl (by decide) (by decide)

/-- One shifted to the highest bit of the word becomes the least integer, which it is not. -/
theorem shl_not_folded_exactly :
    Wide.Fits 1 ∧ Wide.Fits 127 ∧ Expr.arith .shl (.lit 1) (.lit 127) = .lit Wide.lowest ∧
      ¬ Arith.shl.IsResult 1 127 Wide.lowest ∧ ¬ Arith.shl.FoldsExactly 1 127 := by
  have hfolded : Expr.arith .shl (.lit 1) (.lit 127) = .lit Wide.lowest := by decide +kernel
  have hwrong : ¬ Arith.shl.IsResult 1 127 Wide.lowest := by
    rintro ⟨_, h⟩
    exact absurd h (by decide)
  exact ⟨by decide, by decide, hfolded, hwrong, fun h => hwrong (h.result _ hfolded)⟩

end GuardedC
