import GuardedC.Proofs.CText.Integers
import GuardedC.Proofs.Words

/-!
# Words in C

Bytes are promoted to `int` before they are shifted, and nothing in the text of a word casts them to
a wider type. So C computes words as `int`, whatever their size. Words of two bytes have room in it.
Of the words of four bytes, those with the highest bit set have not, and their shift is undefined;
the halves of a word of eight bytes are shifted by the whole width of `int`, which is undefined for
all of them.

`CValue.word?` says so for each size, and `word_value_in_c` that this is what C makes of the text of
a word.
-/

namespace GuardedC

/-- A word of `size` bytes as C has it, if the text of the word is defined. -/
def CValue.word? (size word : Nat) : Option CValue :=
  if size = 1 then some (.integer ⟨.w8, false⟩ word)
  else if size ≤ 4 ∧ word < 2 ^ 31 then some (.integer .int word)
  else none

/-- A word of several bytes is an `int`, or undefined. -/
theorem CValue.word?_eq {size : Nat} (h : size ≠ 1) (word : Nat) :
    word? size word = if size ≤ 4 ∧ word < 2 ^ 31 then some (.integer .int word) else none :=
  if_neg h

section

variable {ρ : String → Option CValue} {size m n : Nat} {low high : Expr}

/-! ## Joining halves -/

theorem IntegerType.result?_int (v : Int) :
    int.result? v = if -2 ^ 31 ≤ v ∧ v < 2 ^ 31 then some v else none :=
  rfl

/-- The shift of a half is defined if `int` has the bits that are asked for. -/
theorem Arith.inType?_shl (size n : Nat) :
    Arith.shl.inType? .int n (8 * size) =
      if size < 4 ∧ n * 256 ^ size < 2 ^ 31 then some ((n : Int) <<< (8 * size)) else none := by
  have hcount : ((8 : Int) * size).toNat = 8 * size := by omega
  have hvalue : (n : Int) <<< (8 * size) = ((n * 256 ^ size : Nat) : Int) := by
    rw [← Int.natCast_shiftLeft, Nat.shiftLeft_eq, pow_mul]
    rfl
  show (if 0 ≤ (n : Int) ∧ 0 ≤ 8 * (size : Int) ∧ 8 * (size : Int) < (32 : Nat) then
    IntegerType.int.result? ((n : Int) <<< (8 * (size : Int)).toNat) else none) = _
  rw [hcount, hvalue, IntegerType.result?_int]
  generalize n * 256 ^ size = shifted
  by_cases hsize : size < 4
  · rw [if_pos (by omega)]
    by_cases hroom : shifted < 2 ^ 31
    · rw [if_pos (by omega), if_pos ⟨hsize, hroom⟩]
    · rw [if_neg (by omega), if_neg fun h => hroom h.2]
  · rw [if_neg (by omega), if_neg fun h => hsize h.1]

theorem inWidest_amount (hsize : size ≤ 8) : CExpr.InWidest (8 * size) := by
  have hmax : CExpr.unsignedMax = 18446744073709551615 := rfl
  constructor <;> omega

/-- Halves that are promoted to `int` are joined as such. -/
theorem value?_join {t u : IntegerType} (hlow : low.erasure.value? ρ = some (.integer t m))
    (hhigh : high.erasure.value? ρ = some (.integer u n)) (ht : t.promoted = .int) (hu : u.promoted = .int)
    (hm : m < 256 ^ size) (hsize : size ≤ 8) :
    (Expr.join size low high).erasure.value? ρ =
      if size < 4 ∧ n * 256 ^ size < 2 ^ 31 then some (.integer .int ((m + 256 ^ size * n : Nat) : Int))
      else none := by
  rcases CTree.value?_ofInt (ρ := ρ) (inWidest_amount hsize) with ⟨w, hamount⟩
  have hshift : (CTree.binary Arith.shl high.erasure (.ofInt (8 * size))).value? ρ =
      (Arith.shl.inType? .int n (8 * size)).map (CValue.integer .int) := by
    simp only [CTree.value?, hhigh, hamount]
    show (Arith.shl.inType? u.promoted n (8 * size)).map (CValue.integer u.promoted) = _
    rw [hu]
  show Operator.cValue? (.arith .bitOr) (low.erasure.value? ρ)
    ((CTree.binary Arith.shl high.erasure (.ofInt (8 * size))).value? ρ) = _
  rw [hlow, hshift, Arith.inType?_shl]
  split
  · show some (CValue.integer (t.promoted.common .int) (Int.lor ((t.promoted.common .int).convert m)
      ((t.promoted.common .int).convert ((n : Int) <<< (8 * size))))) = _
    rw [ht, ← or_shift_eq_add hm]
    rfl
  · rfl

/-- Words of known sizes are joined to the next size. -/
theorem value?_join_words (hsize : size ∈ [1, 2, 4]) (hlow : low.erasure.value? ρ = CValue.word? size m)
    (hhigh : high.erasure.value? ρ = CValue.word? size n) (hm : m < 256 ^ size) (hn : n < 256 ^ size) :
    (Expr.join size low high).erasure.value? ρ = CValue.word? (size + size) (m + 256 ^ size * n) := by
  simp only [List.mem_cons, List.not_mem_nil, or_false] at hsize
  rcases hsize with rfl | rfl | rfl
  · -- two bytes
    rw [value?_join hlow hhigh rfl rfl hm (by omega), if_pos (by omega), CValue.word?_eq (by omega),
      if_pos (by omega)]
  · -- two words of two bytes, each of which is an `int`
    have hint : ∀ w < 256 ^ 2, CValue.word? 2 w = some (.integer .int w) := by
      intro w hw
      rw [CValue.word?_eq (by omega), if_pos (by omega)]
    rw [hint m hm] at hlow
    rw [hint n hn] at hhigh
    rw [value?_join hlow hhigh rfl rfl hm (by omega), CValue.word?_eq (by omega)]
    by_cases hroom : n * 256 ^ 2 < 2 ^ 31
    · rw [if_pos (by omega), if_pos (by omega)]
    · rw [if_neg (by omega), if_neg (by omega)]
  · -- a shift by 32, whether or not the halves are defined
    have hnone : CValue.word? (4 + 4) (m + 256 ^ 4 * n) = none := by
      rw [CValue.word?_eq (by omega), if_neg (by omega)]
    have hcases : ∀ w, CValue.word? 4 w = some (.integer .int w) ∨ CValue.word? 4 w = none := by
      intro w
      rw [CValue.word?_eq (by omega)]
      split
      · exact .inl rfl
      · exact .inr rfl
    rw [hnone]
    have hvalue : (Expr.join 4 low high).erasure.value? ρ =
        Operator.cValue? (.arith .bitOr) (low.erasure.value? ρ)
          (Operator.cValue? (.arith .shl) (high.erasure.value? ρ) ((CTree.ofInt 32).value? ρ)) := rfl
    rcases hcases m with hm' | hm'
    · rcases hcases n with hn' | hn'
      · rw [value?_join (hlow.trans hm') (hhigh.trans hn') rfl rfl hm (by omega), if_neg (by omega)]
      · rw [hvalue, hlow, hm', hhigh, hn']
        rfl
    · rw [hvalue, hlow, hm']
      rfl

/-! ## Words -/

variable {source : Argument} {order : ByteOrder} {position : Int} {e : Expr}

/-- C computes a word from the bytes that its pointer leads to. -/
theorem IsWord.value? (h : IsWord source order size position e) (hsize : size ∈ [1, 2, 4, 8])
    {σ : Assignment} (hρ : ρ source.name = some (.pointer (σ.bytes source) 0)) {byte : Nat → UInt8}
    (hwidest : ∀ i < size, CExpr.InWidest (position + i))
    (hbytes : ∀ i < size, σ.byte? source (position + i) = some ((byte i).toNat : Int)) :
    e.erasure.value? ρ = CValue.word? size (order.word size byte) := by
  induction h generalizing byte with
  | @byte position =>
    have hbyte := hbytes 0 (by omega)
    have hposition := hwidest 0 (by omega)
    rw [Nat.cast_zero, Int.add_zero] at hbyte hposition
    rcases CTree.value?_ofInt (ρ := ρ) hposition with ⟨t, hkey⟩
    rcases Assignment.byte?_eq_some.1 hbyte with ⟨hlow, x, hx, hvalue⟩
    show (do (← ρ source.name).index? (← (CTree.ofInt position).value? ρ)) = _
    rw [hρ, hkey]
    show (if 0 ≤ 0 + position then (σ.bytes source)[(0 + position).toNat]?.map fun byte =>
      CValue.integer ⟨.w8, false⟩ byte.toNat else none) = _
    rw [Int.zero_add, if_pos hlow, hx, order.word_one, Option.map_some, hvalue]
    rfl
  | @halves size position first second _ _ ihfirst ihsecond =>
    have hhalf : size ∈ [1, 2, 4] := by
      simp only [List.mem_cons, List.not_mem_nil, or_false] at hsize ⊢
      omega
    have hsize' : size ∈ [1, 2, 4, 8] := List.mem_append_left [8] hhalf
    have hfirst : first.erasure.value? ρ = CValue.word? size (order.word size byte) :=
      ihfirst hsize' (fun i hi => hwidest i (by omega)) fun i hi => hbytes i (by omega)
    have hsecond : second.erasure.value? ρ = CValue.word? size (order.word size fun i => byte (size + i)) :=
      ihsecond hsize' (second_half (P := fun p _ => CExpr.InWidest p) hwidest)
        (second_half (P := fun p i => σ.byte? source p = some ((byte i).toNat : Int)) hbytes)
    have hlt := order.word_lt size
    rw [order.word_halves]
    cases order with
    | little => exact value?_join_words hhalf hfirst hsecond (hlt _) (hlt _)
    | big => exact value?_join_words hhalf hsecond hfirst (hlt _) (hlt _)

theorem Expr.Expressible.join (hlow : low.Expressible) (hhigh : high.Expressible) (hsize : size ≤ 8) :
    (Expr.join size low high).Expressible := by
  refine ⟨⟨hlow.nodes, hhigh.nodes, trivial⟩, ?_, ?_⟩
  · simp only [Expr.join, Expr.over_binary, Expr.over_lit, and_true]
    exact ⟨hlow.arguments, hhigh.arguments⟩
  · simp only [Expr.join, Expr.literals, List.mem_append, List.mem_singleton, or_imp, forall_and, forall_eq]
    exact ⟨hlow.literals, hhigh.literals, inWidest_amount hsize⟩

/-- The text of a word can be read back. -/
theorem IsWord.expressible (h : IsWord source order size position e) (hsize : size ≤ 8)
    (hsource : source.OfFrame) (hwidest : ∀ i < size, CExpr.InWidest (position + i)) : e.Expressible := by
  induction h with
  | byte =>
    have hposition := hwidest 0 (by omega)
    rw [Nat.cast_zero, Int.add_zero] at hposition
    refine ⟨⟨rfl, trivial, trivial⟩, ?_, ?_⟩
    · simp only [Expr.over_byteIndex, Expr.over_argument, Expr.over_lit, and_true]
      exact hsource
    · simp only [Expr.literals, List.nil_append, List.mem_singleton, forall_eq]
      exact hposition
  | @halves size position first second _ _ ihfirst ihsecond =>
    have hfirst : first.Expressible := ihfirst (by omega) fun i hi => hwidest i (by omega)
    have hsecond : second.Expressible :=
      ihsecond (by omega) (second_half (P := fun p _ => CExpr.InWidest p) hwidest)
    cases order with
    | little => exact hfirst.join hsecond (by omega)
    | big => exact hsecond.join hfirst (by omega)

end

namespace Script

/-- What C makes of the text of a word. It is an `int`, with the value that the bytes make up, if
the word has at most four bytes and is less than `2 ^ 31`; all other words are undefined. -/
theorem word_value_in_c {env : Env} {s s' : Session} {view : Nat} {b : Bytes} {what : Read} {size : Nat}
    {order : ByteOrder} {offset : IntArg} {e : Expr} (hreached : Reached env s)
    (hview : env.bytes view = .ok b) (hword : what.word? = some (size, order))
    (h : Returns ((Step.op (.read what view offset)).run env) s (.value (.int e)) s') :
    b.Consistent ∧ ∃ f k, s'.frame? b.source.frame = some f ∧ env.int offset = .ok (.lit k) ∧
      ∀ σ : Assignment, f.FactsHold σ → σ.Represents f.arguments →
        σ.value b.sourceLength ≤ (σ.bytes b.source).length →
          ∃ (byte : Nat → UInt8) (tree : CTree),
            (∀ i < size, b.byte? σ (k + i) = some ((byte i).toNat : Int)) ∧
              CTree.read e.render = some tree ∧
                tree.value? (σ.cValues f.arguments) =
                  if size ≤ 4 ∧ order.word size byte < 2 ^ 31 then
                    some (.integer .int (order.word size byte : Int))
                  else none := by
  rcases isWord_of_read hreached hview hword h with ⟨f, start, k, hf, hoffset, _, hisWord, hbytes⟩
  have hsound : Sound env s' := hreached.sound_of_returns h
  have hformed : b.Formed s' := hsound.formed hview
  rcases hformed.mem_arguments hf with ⟨hsource, hlengthMem⟩
  rcases hformed.array with ⟨id, tys, slots, hlayout, harray⟩
  rcases harray.typed with ⟨type, _, hdata, hlengthType⟩
  refine ⟨hformed.consistent, f, k, hf, hoffset, ?_⟩
  intro σ hfacts hrepresents hlength
  rcases hbytes σ hfacts hlength with ⟨byte, hbyte⟩
  have hpointer : σ.cValues f.arguments b.source.name = some (.pointer (σ.bytes b.source) 0) := by
    rw [(hsound.laid _ f hf).signature.cValues_eq hsource, Assignment.cValue?, hdata]
  -- positions are below the length, and that is an integer of C
  have hwidest : ∀ i < size, CExpr.InWidest (start + k + i) := by
    intro i hi
    rcases hbyte i hi with ⟨_, hread, hinside⟩
    have hposition : 0 ≤ start + k + i := (Assignment.byte?_eq_some.1 hread).1
    have hvalue := IntSet.mem_range.1 (hrepresents _ hlengthMem type hlengthType)
    have hmax := (IntegerType.inWidest hvalue.1 hvalue.2).2
    constructor <;> omega
  have hsize : size ∈ [1, 2, 4, 8] ∧ size ≠ 1 ∧ size ≤ 8 := by
    cases what <;> cases hword <;> decide
  have hexpressible : e.Expressible :=
    hisWord.expressible hsize.2.2 (hlayout.ofFrame _ harray.data_mem) hwidest
  refine ⟨byte, e.erasure, fun i hi => (hbyte i hi).1, hexpressible.read, ?_⟩
  rw [hisWord.value? hsize.1 hpointer hwidest fun i hi => (hbyte i hi).2.1, CValue.word?_eq hsize.2.1]

theorem word_value_in_c_windowTwice :
    let start := after {} Session.empty windowTwice
    let read := Step.op (.read (.word32 .big) 3 (.lit 2))
    let e := (innermostWindow.read32 .big (.lit 2)).value
    Returns (read.run start.1) start.2 (.value (.int e)) (read.attempt start.1 start.2).2 ∧
      ∃ f, (read.attempt start.1 start.2).2.frame? 0 = some f ∧ f.FactsHold countedBytes ∧
        countedBytes.Represents f.arguments ∧
          ∃ (byte : Nat → UInt8) (tree : CTree),
            (∀ i < 4, innermostWindow.byte? countedBytes (2 + (i : Nat)) = some ((byte i).toNat : Int)) ∧
              CTree.read e.render = some tree ∧
                tree.value? (countedBytes.cValues f.arguments) =
                  if 4 ≤ 4 ∧ ByteOrder.big.word 4 byte < 2 ^ 31 then
                    some (.integer .int (ByteOrder.big.word 4 byte : Int))
                  else none := by
  intro start read e
  have hreached : Reached start.1 start.2 := Reached.empty.after _
  have hview : start.1.bytes 3 = .ok innermostWindow := by decide +kernel
  have hreturns : Returns (read.run start.1) start.2 (.value (.int e)) (read.attempt start.1 start.2).2 :=
    Prod.ext (by decide +kernel) rfl
  have hcall : ∀ f ∈ (read.attempt start.1 start.2).2.frame? 0,
      f.FactsHold countedBytes ∧ countedBytes.Represents f.arguments := by
    decide +kernel
  rcases word_value_in_c hreached hview rfl hreturns with ⟨_, f, k, hf, hoffset, hword⟩
  cases hoffset
  rcases hcall f hf with ⟨hfacts, hrepresents⟩
  exact ⟨hreturns, f, hf, hfacts, hrepresents, hword countedBytes hfacts hrepresents (by decide)⟩

/-- A word of eight bytes, returned as it is. -/
def wideWord : List Step :=
  [.op (.bytes 0 .given), .op (.read (.word64 .little) 0 (.lit 0))]

theorem wideWord_undefined_in_c :
    ∃ unit s', Returns (compile {} "f" [.byteArray ⟨.w32, false⟩] (.integer ⟨.w64, false⟩) wideWord
      (some 1))
        Session.empty unit s' ∧
      unit.guard = "arg_0_len >= 8" ∧ countedBytes.value wholeArray.sourceLength = 12 ∧
        (countedBytes.bytes wholeArray.source).length = 13 ∧
          ∃ text tree, unit.body = .result text ∧ CTree.read text = some tree ∧
            tree.value? (countedBytes.cValues [wholeArray.source, wholeArray.sourceLength]) = none := by
  let e := (wholeArray.read64 .little (.lit 0)).value
  have hcompile : ∃ unit s',
    Returns (compile {} "f" [.byteArray ⟨.w32, false⟩] (.integer ⟨.w64, false⟩) wideWord
      (some 1)) Session.empty unit s' ∧ (unit.guard, unit.body) = ("arg_0_len >= 8", .result e.render) :=
    exists_returns (f := fun unit : CFunction => (unit.guard, unit.body)) (by decide +kernel)
  rcases hcompile with ⟨unit, s', hreturns, hwritten⟩
  rw [Prod.mk.injEq] at hwritten
  have hword : IsWord wholeArray.source .little 8 0 e := by
    have hhalf : ∀ position, IsWord wholeArray.source .little 4 position _ :=
      fun _ => .halves (.halves .byte .byte) (.halves .byte .byte)
    exact .halves (hhalf 0) (hhalf 4)
  have hexpressible : e.Expressible := by
    refine hword.expressible (by omega) ?_ ?_
    · exact ⟨0, [.byteArray ⟨.w32, false⟩], _, rfl, .head _⟩
    · decide
  refine ⟨unit, s', hreturns, hwritten.1, rfl, rfl, _, _, hwritten.2, hexpressible.read, ?_⟩
  decide +kernel

end Script

end GuardedC
