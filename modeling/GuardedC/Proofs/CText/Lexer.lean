import GuardedC.CFunction
import Mathlib.Data.List.SplitBy

/-!
# Tokens of C expressions

The text of a C expression is cut into the longest runs of letters and digits, the longest runs of
operator characters, brackets, and blanks. A run of operator characters has to be one operator, so
`--` or `/*` is no token here; a run that begins with a digit has to be a decimal constant, so
`010`, which is octal, is none.

Main statement: `lex_text`, the text of a well-formed tree has the tokens of the tree.
-/

namespace GuardedC

inductive Token where
  | name (id : String)
  | constant (value : Nat) (ull : Bool)
  | operator (op : Operator)
  | leftParen
  | rightParen
  | leftBracket
  | rightBracket
deriving Repr, DecidableEq

/-! ## Cutting a text into tokens -/

def isWordChar (c : Char) : Bool := c == '_' || c.isAlphanum

def isMarkChar (c : Char) : Bool := "+-*/<>=!&|^".toList.contains c

/-- Neighbours that belong to one token. -/
def joined (c d : Char) : Bool := isWordChar c && isWordChar d || isMarkChar c && isMarkChar d

/-- A decimal constant: digits without a needless zero before them, and perhaps a suffix. -/
def readConstant (run : List Char) : Option Token :=
  let digits := run.takeWhile Char.isDigit
  if digits.head? = some '0' ∧ digits ≠ ['0'] then none
  else
    match run.dropWhile Char.isDigit with
    | [] => some (.constant (Nat.ofDigitChars 10 digits 0) false)
    | ['U', 'L', 'L'] => some (.constant (Nat.ofDigitChars 10 digits 0) true)
    | _ => none

/-- The token that a run stands for; a blank stands for none. -/
def readRun : List Char → Option (List Token)
  | [] => some []
  | c :: cs =>
    if c.isDigit then (readConstant (c :: cs)).map ([·])
    else if isWordChar c then some [.name (String.ofList (c :: cs))]
    else
      match c :: cs with
      | [' '] => some []
      | ['('] => some [.leftParen]
      | [')'] => some [.rightParen]
      | ['['] => some [.leftBracket]
      | [']'] => some [.rightBracket]
      | run => (Operator.all.find? fun op => op.symbol.toList == run).map ([.operator ·])

def readRuns : List (List Char) → Option (List Token)
  | [] => some []
  | run :: runs => do
    let ts ← readRun run
    let rest ← readRuns runs
    return ts ++ rest

/-- The tokens of a text. -/
def lex (text : List Char) : Option (List Token) := readRuns (text.splitBy joined)

example : lex "10 <= arg_0 && arg_0 < -5".toList =
    some [.constant 10 false, .operator (.compare .le), .name "arg_0", .operator (.connect .and),
      .name "arg_0", .operator (.compare .lt), .operator (.arith .sub), .constant 5 false] := by
  decide +kernel

/-! ## Texts put together -/

theorem readRuns_append {xs ys : List (List Char)} {ts us : List Token}
    (hx : readRuns xs = some ts) (hy : readRuns ys = some us) :
    readRuns (xs ++ ys) = some (ts ++ us) := by
  induction xs generalizing ts with
  | nil =>
    cases hx
    exact hy
  | cons run runs ih =>
    simp only [readRuns, Option.bind_eq_bind, Option.bind_eq_some_iff, Option.pure_def,
      Option.some.injEq] at hx
    obtain ⟨first, hfirst, rest, hrest, rfl⟩ := hx
    simp [readRuns, hfirst, ih hrest]

/-- Two texts are read one after the other, unless a token would reach across. -/
theorem lex_append {u v : List Char} {ts us : List Token} (hu : lex u = some ts) (hv : lex v = some us)
    (hjoin : ∀ x ∈ u.getLast?, ∀ y ∈ v.head?, joined x y = false) : lex (u ++ v) = some (ts ++ us) := by
  unfold lex at hu hv ⊢
  rw [List.splitBy_append hjoin]
  exact readRuns_append hu hv

/-- A character that belongs to no token of more than one. -/
def Lone (c : Char) : Prop := isWordChar c = false ∧ isMarkChar c = false

instance (c : Char) : Decidable (Lone c) := inferInstanceAs (Decidable (_ ∧ _))

theorem joined_lone_left {c d : Char} (h : Lone c) : joined c d = false := by
  simp [joined, h.1, h.2]

theorem joined_lone_right {c d : Char} (h : Lone d) : joined c d = false := by
  simp [joined, h.1, h.2]

/-- A lone character is read by itself, whatever follows. -/
theorem lex_lone_cons {c : Char} {v : List Char} {ts us : List Token} (hc : Lone c)
    (h : readRun [c] = some ts) (hv : lex v = some us) : lex (c :: v) = some (ts ++ us) := by
  refine lex_append (u := [c]) ?_ hv ?_
  · have hruns : [c].splitBy joined = [[c]] := List.splitBy_of_isChain (by simp) (by simp)
    simp [lex, hruns, readRuns, h]
  · intro x hx y _
    cases hx
    exact joined_lone_left hc

/-- Before a lone character every token ends. -/
theorem lex_append_lone {c : Char} {u v : List Char} {ts us : List Token} (hc : Lone c)
    (hu : lex u = some ts) (hv : lex (c :: v) = some us) : lex (u ++ c :: v) = some (ts ++ us) := by
  refine lex_append hu hv ?_
  intro x _ y hy
  cases hy
  exact joined_lone_right hc

/-! ## Words -/

/-- A run of letters and digits is not cut. -/
theorem lex_word {w : List Char} (hne : w ≠ []) (hword : ∀ c ∈ w, isWordChar c = true) :
    lex w = readRun w := by
  have hchain : w.IsChain fun c d => joined c d = true := by
    refine List.Pairwise.isChain (List.pairwise_iff_forall_sublist.2 ?_)
    intro c d hsub
    have hc := hword c (hsub.subset (.head _))
    have hd := hword d (hsub.subset (.tail _ (.head _)))
    simp [joined, hc, hd]
  unfold lex
  rw [List.splitBy_of_isChain hne hchain]
  cases h : readRun w <;> simp [readRuns, h]

theorem isWordChar_of_isDigit {c : Char} (h : c.isDigit = true) : isWordChar c = true := by
  simp [isWordChar, Char.isAlphanum, h]

theorem isMarkChar_of_isDigit {c : Char} (h : c.isDigit = true) : isMarkChar c = false := by
  have hmarks : ("+-*/<>=!&|^".toList.all fun d => !d.isDigit) = true := by decide
  unfold isMarkChar
  rw [List.contains_eq_mem, decide_eq_false_iff_not]
  intro hc
  simpa [h] using List.all_eq_true.1 hmarks c hc

theorem isDigit_eq_false_of_isAlpha {c : Char} (h : c.isAlpha = true) : c.isDigit = false := by
  change (decide (c.val ≥ 'A'.val ∧ c.val ≤ 'Z'.val) ||
    decide (c.val ≥ 'a'.val) && decide (c.val ≤ 'z'.val)) = true at h
  simp only [Char.isDigit, Bool.or_eq_true, Bool.and_eq_true, decide_eq_true_eq, Bool.and_eq_false_iff,
    decide_eq_false_iff_not, UInt32.le_iff_toNat_le, ge_iff_le] at h ⊢
  have hA : 'A'.val.toNat = 65 := rfl
  have ha : 'a'.val.toNat = 97 := rfl
  have h9 : '9'.val.toNat = 57 := rfl
  omega

theorem lex_name {id : String} (h : isIdentifier id = true) : lex id.toList = some [.name id] := by
  unfold isIdentifier at h
  cases hid : id.toList with
  | nil => simp [hid] at h
  | cons c cs =>
    simp only [hid, Bool.and_eq_true, List.all_eq_true] at h
    obtain ⟨hfirst, hrest⟩ := h
    have hc : isWordChar c = true ∧ c.isDigit = false := by
      simp only [Bool.or_eq_true, beq_iff_eq] at hfirst
      rcases hfirst with rfl | halpha
      · decide
      · exact ⟨by simp [isWordChar, Char.isAlphanum, halpha], isDigit_eq_false_of_isAlpha halpha⟩
    have hword : ∀ d ∈ c :: cs, isWordChar d = true := by
      intro d hd
      rcases List.mem_cons.1 hd with rfl | hd
      · exact hc.1
      · exact hrest d hd
    rw [lex_word (by simp) hword]
    simp [readRun, hc.1, hc.2, ← hid]

/-- Numbers are written without a needless zero. -/
theorem head?_toDigits {n : Nat} (hn : 0 < n) : (Nat.toDigits 10 n).head? ≠ some '0' := by
  induction n using Nat.strongRecOn with
  | ind n ih =>
    by_cases hlt : n < 10
    · rw [Nat.toDigits_of_lt_base hlt]
      simp only [List.head?_cons, ne_eq, Option.some.injEq, Nat.digitChar_eq_zero]
      omega
    · rw [Nat.toDigits_of_base_le (by decide) (by omega), List.head?_append_of_ne_nil _ Nat.toDigits_ne_nil]
      exact ih (n / 10) (by omega) (by omega)

theorem isDigit_toDigits {n : Nat} {c : Char} (hc : c ∈ Nat.toDigits 10 n) : c.isDigit = true :=
  Nat.isDigit_of_mem_toDigits (by decide) (by decide) hc

def suffixChars (ull : Bool) : List Char := if ull then ['U', 'L', 'L'] else []

theorem readConstant_digits (value : Nat) (ull : Bool) :
    readConstant (Nat.toDigits 10 value ++ suffixChars ull) = some (.constant value ull) := by
  have htake : (Nat.toDigits 10 value ++ suffixChars ull).takeWhile Char.isDigit =
      Nat.toDigits 10 value := by
    rw [List.takeWhile_append_of_pos fun c hc => isDigit_toDigits hc]
    cases ull <;> simp [suffixChars]
  have hdrop : (Nat.toDigits 10 value ++ suffixChars ull).dropWhile Char.isDigit = suffixChars ull := by
    rw [List.dropWhile_append_of_pos fun c hc => isDigit_toDigits hc]
    cases ull <;> simp [suffixChars]
  have hzero : ¬ ((Nat.toDigits 10 value).head? = some '0' ∧ Nat.toDigits 10 value ≠ ['0']) := by
    rintro ⟨hhead, hne⟩
    rcases Nat.eq_zero_or_pos value with rfl | hpos
    · exact hne (Nat.toDigits_zero 10)
    · exact head?_toDigits hpos hhead
  unfold readConstant
  simp only [htake, hdrop, if_neg hzero, Nat.ofDigitChars_ten_toDigits]
  cases ull <;> rfl

theorem toList_text_constant (value : Nat) (ull : Bool) :
    (CExpr.constant value ull).text.toList = Nat.toDigits 10 value ++ suffixChars ull := by
  cases ull <;> simp [CExpr.text, suffixChars]

theorem lex_constant (value : Nat) (ull : Bool) :
    lex (CExpr.constant value ull).text.toList = some [.constant value ull] := by
  have hword : ∀ c ∈ Nat.toDigits 10 value ++ suffixChars ull, isWordChar c = true := by
    intro c hc
    rcases List.mem_append.1 hc with hc | hc
    · exact isWordChar_of_isDigit (isDigit_toDigits hc)
    · cases ull with
      | false => cases hc
      | true =>
        have hsuffix : ['U', 'L', 'L'].all isWordChar = true := by decide
        exact List.all_eq_true.1 hsuffix c hc
  rw [toList_text_constant, lex_word (by simp) hword]
  cases hdigits : Nat.toDigits 10 value with
  | nil => exact absurd hdigits Nat.toDigits_ne_nil
  | cons c cs =>
    have hc : c.isDigit = true := isDigit_toDigits (by rw [hdigits]; exact .head _)
    have hread := readConstant_digits value ull
    rw [hdigits] at hread
    simp only [List.cons_append] at hread ⊢
    simp [readRun, hc, hread]

/-! ## Trees -/

namespace CExpr

/-- The tokens of a tree, from the left. -/
def tokens : CExpr → List Token
  | name id => [.name id]
  | constant value ull => [.constant value ull]
  | negate e => .operator Arith.sub :: e.tokens
  | binary op l r => l.tokens ++ .operator op :: r.tokens
  | index a k => a.tokens ++ .leftBracket :: (k.tokens ++ [.rightBracket])
  | paren e => .leftParen :: (e.tokens ++ [.rightParen])

/-- Names are identifiers, and a sign stands before a constant. -/
def Spelled : CExpr → Prop
  | name id => isIdentifier id = true
  | constant _ _ => True
  | negate e => ∃ value ull, e = constant value ull
  | binary _ l r => l.Spelled ∧ r.Spelled
  | index a k => a.Spelled ∧ k.Spelled
  | paren e => e.Spelled

end CExpr

theorem lex_operator (op : Operator) : lex op.symbol.toList = some [.operator op] := by
  cases op with
  | arith op => cases op <;> decide +kernel
  | compare op => cases op <;> decide +kernel
  | connect op => cases op <;> decide +kernel

/-- A sign and the digits after it are two tokens. -/
theorem lex_negated_constant (value : Nat) (ull : Bool) :
    lex ('-' :: (CExpr.constant value ull).text.toList) =
      some [.operator Arith.sub, .constant value ull] := by
  refine lex_append (u := ['-']) (v := (CExpr.constant value ull).text.toList)
    (lex_operator Arith.sub) (lex_constant value ull) ?_
  intro x hx y hy
  obtain rfl : '-' = x := by simpa using hx
  rw [toList_text_constant, List.head?_append_of_ne_nil _ Nat.toDigits_ne_nil] at hy
  have hdigit : y.isDigit = true := isDigit_toDigits (List.mem_of_mem_head? hy)
  have hsign : isWordChar '-' = false := by decide
  simp [joined, hsign, isMarkChar_of_isDigit hdigit]

theorem lex_text {e : CExpr} (h : e.Spelled) : lex e.text.toList = some e.tokens := by
  induction e with
  | name id => exact lex_name h
  | constant value ull => exact lex_constant value ull
  | negate e _ =>
    obtain ⟨value, ull, rfl⟩ := h
    simpa [CExpr.text, CExpr.tokens] using lex_negated_constant value ull
  | binary op l r ihl ihr =>
    have hspace : Lone ' ' := by decide
    have hright := lex_lone_cons hspace rfl (ihr h.2)
    have hop := lex_append_lone hspace (lex_operator op) hright
    have hmiddle := lex_lone_cons hspace rfl hop
    have hall := lex_append_lone hspace (ihl h.1) hmiddle
    simpa [CExpr.text, CExpr.tokens] using hall
  | index a k iha ihk =>
    have hclose : lex [']'] = some [.rightBracket] := by decide
    have hkey := lex_append_lone (by decide) (ihk h.2) hclose
    have hopen := lex_lone_cons (c := '[') (by decide) rfl hkey
    have hall := lex_append_lone (by decide) (iha h.1) hopen
    simpa [CExpr.text, CExpr.tokens] using hall
  | paren e ih =>
    have hclose : lex [')'] = some [.rightParen] := by decide
    have hinner := lex_append_lone (by decide) (ih h) hclose
    have hall := lex_lone_cons (c := '(') (by decide) rfl hinner
    simpa [CExpr.text, CExpr.tokens] using hall

end GuardedC
