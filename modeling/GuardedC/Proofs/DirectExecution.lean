import GuardedC.Proofs.Folding
import GuardedC.Proofs.OwnFrame
import Mathlib.Data.List.Forall2

/-!
# Tracing and direct execution

A script that computes with integers and truth values can be run directly, on numbers in place of
parameters: `direct` does so, with the arithmetic of 128-bit integers, and has no result if one of
the operations has none. What the operations yield there is a table of its own (`Arith.machine?`),
made from the exact results and from what fits; `eval?_eq_machine?` says that operations which are
carried out while tracing follow it.

Tracing runs the same script on placeholders. Some operations are carried out at once, some are left
as expressions, and some are left out since one operand decides the result. `traced_mean_direct`
says that this changes no meaning: where the direct run has a result, every register of the trace
has the value that the direct run computes, and the trace takes every branch that the direct run
takes.
-/

namespace GuardedC

/-! ## Operations on 128-bit integers -/

/-- What an operation yields on a machine of 128-bit integers. Sums, differences, products and
quotients are exact, and those that do not fit are no results. Shifts go by less than the width of a
word. Of a shift to the left and of an operation on bits, the result is what lies in the word. -/
def Arith.machine? (op : Arith) (a b : Int) : Option Int :=
  match op with
  | .add | .sub | .mul | .div => op.exact? a b |>.filter fun r => Wide.Fits r
  | .shl => if b < 128 then op.exact? a b |>.map (·.bmod (2 ^ 128)) else none
  | .shr => if b < 128 then op.exact? a b else none
  | .bitOr | .bitXor | .bitAnd => op.exact? a b |>.map (·.bmod (2 ^ 128))

theorem Wide.checked_eq_filter (v : Int) : checked v = (some v).filter fun r => Fits r := by
  simp [checked, Option.filter_some]

/-- An operation that is carried out while tracing yields what the machine would, or nothing if that
does not. -/
theorem Arith.eval?_eq_machine? (op : Arith) (a b : Int) : op.eval? a b = op.machine? a b := by
  have hbits : ∀ (f : Bool → Bool → Bool) {x : BitVec 128} {r : Int}, r = Int.bitwise f a b →
      (∀ k, k < 128 → x.getLsbD k = f ((Wide.bits a).getLsbD k) ((Wide.bits b).getLsbD k)) →
        some x.toInt = some (r.bmod (2 ^ 128)) := by
    rintro f x r rfl hx
    rw [Wide.eq_bits_bitwise f hx, Wide.bits, BitVec.toInt_ofInt]
  cases op with
  | add => exact Wide.checked_eq_filter _
  | sub => exact Wide.checked_eq_filter _
  | mul => exact Wide.checked_eq_filter _
  | div =>
    by_cases hzero : b = 0
    · simp [eval?, machine?, Arith.exact?, hzero]
    · simp [eval?, machine?, Arith.exact?, hzero, Wide.checked_eq_filter]
  | shl =>
    by_cases hcount : 0 ≤ b ∧ b < 128
    · rw [eval?_shl hcount.1 hcount.2]
      simp [machine?, Arith.exact?, hcount.1, hcount.2, Int.shiftLeft_eq]
    · rw [eval?, if_neg hcount]
      by_cases hhigh : b < 128
      · have hlow : ¬ 0 ≤ b := fun hlow => hcount ⟨hlow, hhigh⟩
        simp [machine?, Arith.exact?, hlow]
      · simp [machine?, hhigh]
  | shr =>
    by_cases hlow : 0 ≤ b <;> by_cases hhigh : b < 128 <;>
      simp [eval?, machine?, Arith.exact?, hlow, hhigh]
  | bitOr => exact hbits or (by rw [Int.bitwise_or]) fun k _ => BitVec.getLsbD_or
  | bitXor => exact hbits xor (by rw [Int.bitwise_xor]) fun k _ => BitVec.getLsbD_xor
  | bitAnd => exact hbits and (by rw [Int.bitwise_and]) fun k _ => BitVec.getLsbD_and

/-- A comparison, told by which of the two is the lesser one. -/
def Comparison.test : Comparison → Int → Int → Bool
  | lt, a, b => a < b
  | gt, a, b => b < a
  | le, a, b => !(b < a : Bool)
  | ge, a, b => !(a < b : Bool)
  | eq, a, b => !(a < b : Bool) && !(b < a : Bool)
  | ne, a, b => (a < b : Bool) || (b < a : Bool)

theorem Comparison.decide_holds (op : Comparison) (a b : Int) : decide (op.Holds a b) = op.test a b := by
  rw [Bool.eq_iff_iff, decide_eq_true_eq]
  cases op with
  | eq =>
    simp only [test, Holds, Bool.and_eq_true, Bool.not_eq_true', decide_eq_false_iff_not, Int.not_lt]
    omega
  | ne =>
    simp only [test, Holds, Bool.or_eq_true, decide_eq_true_eq]
    omega
  | _ => simp [test, Holds]

/-- The truth value of a connective. -/
def Connective.holds : Connective → Bool → Bool → Bool
  | and, p, q => p && q
  | or, p, q => p || q

/-! ## Values in 128-bit arithmetic -/

/-- The value of an expression whose operations are those of the machine. -/
abbrev Expr.wide? (σ : Assignment) (e : Expr) : Option Int := e.evalWith Arith.machine? σ

/-- The truth value of a condition. -/
def Cond.wide? (σ : Assignment) : Cond → Option Bool
  | known b => some b
  | symbolic e => (e.wide? σ).map fun v => decide (v ≠ 0)

section

variable {σ : Assignment}

@[simp] theorem Expr.wide?_lit (v : Int) : (Expr.lit v).wide? σ = some v := by
  simp only [Expr.wide?, Expr.evalWith]

@[simp] theorem Expr.wide?_argument (a : Argument) : (Expr.argument a).wide? σ = some (σ.value a) := by
  simp only [Expr.wide?, Expr.evalWith]

theorem Expr.wide?_binary (op : Operator) (l r : Expr) :
    (Expr.binary op l r).wide? σ = op.value? Arith.machine? (l.wide? σ) (r.wide? σ) := by
  simp only [Expr.wide?, Expr.evalWith]

variable {l r : Expr} {a b : Int}

/-- An operation that has a value has it whether it is carried out while tracing or left to do. -/
theorem Expr.wide?_arith {op : Arith} {v : Int} (hl : l.wide? σ = some a) (hr : r.wide? σ = some b)
    (hv : op.machine? a b = some v) : (Expr.arith op l r).wide? σ = some v := by
  unfold Expr.arith
  split
  · rename_i x y hx hy
    have hlit : l = .lit x := Expr.eq_lit_of_literal? hx
    have hrit : r = .lit y := Expr.eq_lit_of_literal? hy
    rw [hlit, Expr.wide?_lit, Option.some.injEq] at hl
    rw [hrit, Expr.wide?_lit, Option.some.injEq] at hr
    subst hl hr
    rw [op.eval?_eq_machine?, hv]
    exact Expr.wide?_lit v
  · rw [Expr.wide?_binary, hl, hr]
    exact hv

theorem Expr.wide?_compare {op : Comparison} (hl : l.wide? σ = some a) (hr : r.wide? σ = some b) :
    (l.compare op r).wide? σ = some (op.test a b) := by
  rw [← op.decide_holds]
  unfold Expr.compare
  split
  · rename_i x y hx hy
    have hlit : l = .lit x := Expr.eq_lit_of_literal? hx
    have hrit : r = .lit y := Expr.eq_lit_of_literal? hy
    rw [hlit, Expr.wide?_lit, Option.some.injEq] at hl
    rw [hrit, Expr.wide?_lit, Option.some.injEq] at hr
    subst hl hr
    rfl
  · simp only [Cond.wide?, Expr.wide?_binary, hl, hr, Operator.value?, Option.bind_eq_bind,
      Option.bind_some, Option.pure_def, Option.map_some, truth_ne_zero]

end

/-- A connective of two conditions that are not known is left as an expression. -/
theorem Cond.wide?_symbolic {σ : Assignment} (op : Connective) {l r : Expr} {p q : Bool}
    (hl : (Cond.symbolic l).wide? σ = some p) (hr : (Cond.symbolic r).wide? σ = some q) :
    (Cond.symbolic (.binary op l r)).wide? σ = some (op.holds p q) := by
  simp only [Cond.wide?, Option.map_eq_some_iff] at hl hr
  rcases hl with ⟨v, hv, rfl⟩
  rcases hr with ⟨w, hw, rfl⟩
  simp only [Cond.wide?, Expr.wide?_binary, hv, hw]
  cases op <;> by_cases hl : v = 0 <;> by_cases hr : w = 0 <;>
    simp [Operator.value?, Connective.holds, truth, hl, hr]

/-- A known condition may decide a connective by itself; the direct run looks at both. -/
theorem Cond.wide?_connect {σ : Assignment} (op : Connective) {c d : Cond} {p q : Bool}
    (hc : c.wide? σ = some p) (hd : d.wide? σ = some q) :
    (Cond.connect op c d).wide? σ = some (op.holds p q) := by
  cases c with
  | known x =>
    cases hc
    cases d with
    | known y =>
      cases hd
      cases op <;> cases p <;> cases q <;> rfl
    | symbolic r =>
      -- one truth value on the left decides, the other leaves it to the right
      cases op with
      | and =>
        cases p with
        | false => rfl
        | true => exact hd
      | or =>
        cases p with
        | false => exact hd
        | true => rfl
  | symbolic l =>
    cases d with
    | known y =>
      cases hd
      cases op with
      | and =>
        cases q with
        | false => simp [Cond.connect, Cond.and, Cond.wide?, Connective.holds]
        | true => simpa [Cond.connect, Cond.and, Connective.holds] using hc
      | or =>
        cases q with
        | false => simpa [Cond.connect, Cond.or, Connective.holds] using hc
        | true => simp [Cond.connect, Cond.or, Cond.wide?, Connective.holds]
    | symbolic r =>
      cases op with
      | and => exact Cond.wide?_symbolic .and hc hd
      | or => exact Cond.wide?_symbolic .or hc hd

namespace Script

/-! ## Direct execution -/

/-- What a direct run computes with. -/
inductive Datum where
  | int (v : Int)
  | truth (b : Bool)
deriving Repr, DecidableEq

/-- The registers of a direct run. -/
abbrev Data := List (Option Datum)

def Data.int? (m : Data) : IntArg → Option Int
  | .lit v => some v
  | .register n =>
    match m[n]?.join with
    | some (.int v) => some v
    | _ => none

def Data.cond? (m : Data) : CondArg → Option Bool
  | .known b => some b
  | .register n =>
    match m[n]?.join with
    | some (.truth b) => some b
    | _ => none

/-- An operation on integers and truth values. -/
def Op.isPlain : Op → Bool
  | int _ _ | param _ _ | lit _ | arith _ _ _ | compare _ _ _ | cond _ | connect _ _ _ | decide _
  | select _ _ _ => true
  | _ => false

/-- Runs an operation directly. There is no result where an operation has no value; a decision is
for the script itself, and goes to no register. -/
def Op.direct? (inputs : Nat → Option Int) (m : Data) : Op → Option (Option Datum)
  | int index _ | param index _ => do
    let v ← inputs index
    return some (.int v)
  | lit v => some (some (.int v))
  | arith op lhs rhs => do
    let a ← m.int? lhs
    let b ← m.int? rhs
    let v ← op.machine? a b
    return some (.int v)
  | compare op lhs rhs => do
    let a ← m.int? lhs
    let b ← m.int? rhs
    return some (.truth (op.test a b))
  | cond c => do
    let p ← m.cond? c
    return some (.truth p)
  | connect op lhs rhs => do
    let p ← m.cond? lhs
    let q ← m.cond? rhs
    return some (.truth (op.holds p q))
  | decide c => do
    let _ ← m.cond? c
    return none
  | select c yes no => do
    let p ← m.cond? c
    let v ← m.int? (if p then yes else no)
    return some (.int v)
  | _ => none

def Step.direct? (inputs : Nat → Option Int) (m : Data) : Step → Option (Option Datum)
  | op o => o.direct? inputs m
  | _ => none

/-- Runs a script directly, on the values of its parameters. -/
def direct (inputs : Nat → Option Int) (m : Data) : List Step → Option Data
  | [] => some m
  | step :: steps => do
    let d ← step.direct? inputs m
    direct inputs (m ++ [d]) steps

/-- A step that computes with integers and truth values only. -/
def Step.Plain : Step → Prop
  | op o => o.isPlain = true
  | _ => False

instance : DecidablePred Step.Plain
  | .op o => inferInstanceAs (Decidable (o.isPlain = true))
  | .query _ | .ranges _ | .openFrame _ | .dropFrame _ | .foreign _ _ => isFalse id

/-- The condition on which the script branches at a step, if it does. -/
def Step.branch? : Step → Option CondArg
  | op (.decide c) | op (.select c _ _) => some c
  | _ => none

/-! ## Agreement -/

/-- The value of the trace has the value of the direct run. -/
def Means (σ : Assignment) : Value → Datum → Prop
  | .int e, .int v => e.wide? σ = some v
  | .cond c, .truth b => c.wide? σ = some b
  | _, _ => False

/-- Each register of the trace has the value of the same register of the direct run. -/
def Agree (σ : Assignment) (registers : List (Option Value)) (m : Data) : Prop :=
  List.Forall₂ (Option.Rel (Means σ)) registers m

/-- The values of the integer parameters, by their positions. -/
def inputs (σ : Assignment) (ps : Params) (index : Nat) : Option Int :=
  match ps[index]? with
  | some (.int (.argument a)) => some (σ.value a)
  | _ => none

section

variable {σ : Assignment} {env : Env} {m : Data}

theorem Agree.means {registers : List (Option Value)} (h : Agree σ registers m) {n : Nat} {v : Value}
    {d : Datum} (hv : registers[n]?.join = some v) (hd : m[n]?.join = some d) : Means σ v d := by
  induction h generalizing n with
  | nil => cases hv
  | @cons r x registers m hrel _ ih =>
    cases n with
    | zero =>
      simp only [List.getElem?_cons_zero, Option.join_some] at hv hd
      rw [hv, hd] at hrel
      cases hrel with
      | some hmeans => exact hmeans
    | succ n => exact ih hv hd

theorem Agree.int (h : Agree σ env.registers m) {a : IntArg} {e : Expr} {v : Int}
    (he : env.int a = .ok e) (hv : m.int? a = some v) : e.wide? σ = some v := by
  cases a with
  | lit w =>
    cases he
    cases hv
    exact Expr.wide?_lit v
  | register n =>
    simp only [Env.int, except_bind_ok, Env.value_eq_ok] at he
    rcases he with ⟨x, hx, he⟩
    simp only [Data.int?] at hv
    split at hv
    · rename_i w hw
      cases hv
      have hmeans := h.means hx hw
      cases x with
      | int e' =>
        cases he
        exact hmeans
      | _ => cases he
    · cases hv

theorem Agree.cond (h : Agree σ env.registers m) {a : CondArg} {c : Cond} {p : Bool}
    (hc : env.cond a = .ok c) (hp : m.cond? a = some p) : c.wide? σ = some p := by
  cases a with
  | known b =>
    cases hc
    cases hp
    rfl
  | register n =>
    simp only [Env.cond, except_bind_ok, Env.value_eq_ok] at hc
    rcases hc with ⟨x, hx, hc⟩
    simp only [Data.cond?] at hp
    split at hp
    · rename_i q hq
      cases hp
      have hmeans := h.means hx hq
      cases x with
      | cond c' =>
        cases hc
        exact hmeans
      | _ => cases hc
    · cases hp

/-- A condition that the script may branch on has the truth value that the direct run finds. -/
theorem Agree.decided (h : Agree σ env.registers m) {a : CondArg} {c : Cond} {b p : Bool}
    (hc : env.cond a = .ok c) (hb : c.decided = .ok b) (hp : m.cond? a = some p) : b = p := by
  have hknown : c = .known b := Cond.known_of_decided hb
  have hvalue := h.cond hc hp
  rw [hknown] at hvalue
  exact Option.some.inj hvalue

/-- A parameter that is taken for an integer has the value that it was given. -/
theorem wide?_of_inputs {ps : Params} {index : Nat} {p : Param} {v : Int} (hp : ps.param index = .ok p)
    (hv : inputs σ ps index = some v) : Means σ p.toValue (.int v) := by
  unfold Params.param at hp
  unfold inputs at hv
  split at hp
  · rename_i q hq
    cases hp
    rw [hq] at hv
    split at hv
    · rename_i a ha
      cases hv
      cases ha
      exact Expr.wide?_argument a
    · cases hv
  · cases hp

/-- What goes to the register of a step. -/
def Answer.register : Answer → Option Value
  | .value v => some v
  | _ => none

theorem registers_push (env : Env) (answer : Answer) :
    (env.push (.ok answer)).registers = env.registers ++ [answer.register] := by
  cases answer <;> rfl

theorem given_push (env : Env) (answer : Answer) : (env.push (.ok answer)).given = env.given := by
  cases answer <;> rfl

end

/-! ## The simulation -/

/-- The script has these parameters, and no frames of its own. -/
structure Env.Given (ps : Params) (env : Env) : Prop where
  given : env.given = some ps
  frames : env.frames = []

section

variable {σ : Assignment} {env env' : Env} {s s' : Session} {ps : Params} {m m' : Data}
  {step : Step} {steps : List Step}

theorem Env.Given.params (h : env.Given ps) {source : Source} {qs : Params}
    (hqs : env.params s source = .ok qs) : qs = ps := by
  cases source with
  | given =>
    simp only [Env.params, h.given, Except.ok.injEq] at hqs
    exact hqs.symm
  | frame number => simp [Env.params, Env.frame, h.frames] at hqs

/-- One operation, on registers that agree. -/
theorem agree_op {o : Op} {result : Provided Answer} {d : Option Datum} (hplain : o.isPlain = true)
    (hgiven : env.Given ps) (h : Agree σ env.registers m)
    (hresult : o.eval env s = .ok result) (hd : o.direct? (inputs σ ps) m = some d) :
    Option.Rel (Means σ) result.value.register d := by
  cases o with
  | int index source =>
    simp only [Op.eval, except_bind_ok, except_pure_ok, except_mapError_ok] at hresult
    rcases hresult with ⟨qs, hqs, e, he, rfl⟩
    simp only [Op.direct?, Option.bind_eq_bind, Option.bind_eq_some_iff, Option.pure_def,
      Option.some.injEq] at hd
    rcases hd with ⟨v, hv, rfl⟩
    have hps : qs = ps := hgiven.params hqs
    simp only [Params.int, except_bind_ok] at he
    rcases he with ⟨p, hp, he⟩
    have hmeans := wide?_of_inputs (hps ▸ hp) hv
    cases p with
    | int e' =>
      cases he
      exact .some hmeans
    | bytes b => cases he
  | param index source =>
    simp only [Op.eval, except_bind_ok, except_pure_ok, except_mapError_ok] at hresult
    rcases hresult with ⟨qs, hqs, p, hp, rfl⟩
    simp only [Op.direct?, Option.bind_eq_bind, Option.bind_eq_some_iff, Option.pure_def,
      Option.some.injEq] at hd
    rcases hd with ⟨v, hv, rfl⟩
    have hps : qs = ps := hgiven.params hqs
    exact .some (wide?_of_inputs (hps ▸ hp) hv)
  | lit v =>
    cases hresult
    cases hd
    exact .some (Expr.wide?_lit v)
  | arith op lhs rhs =>
    simp only [Op.eval, except_bind_ok, except_pure_ok] at hresult
    rcases hresult with ⟨l, hl, r, hr, rfl⟩
    simp only [Op.direct?, Option.bind_eq_bind, Option.bind_eq_some_iff, Option.pure_def,
      Option.some.injEq] at hd
    rcases hd with ⟨a, ha, b, hb, v, hv, rfl⟩
    exact .some (Expr.wide?_arith (h.int hl ha) (h.int hr hb) hv)
  | compare op lhs rhs =>
    simp only [Op.eval, except_bind_ok, except_pure_ok] at hresult
    rcases hresult with ⟨l, hl, r, hr, rfl⟩
    simp only [Op.direct?, Option.bind_eq_bind, Option.bind_eq_some_iff, Option.pure_def,
      Option.some.injEq] at hd
    rcases hd with ⟨a, ha, b, hb, rfl⟩
    exact .some (Expr.wide?_compare (h.int hl ha) (h.int hr hb))
  | cond arg =>
    simp only [Op.eval, except_bind_ok, except_pure_ok] at hresult
    rcases hresult with ⟨c, hc, rfl⟩
    simp only [Op.direct?, Option.bind_eq_bind, Option.bind_eq_some_iff, Option.pure_def,
      Option.some.injEq] at hd
    rcases hd with ⟨p, hp, rfl⟩
    exact .some (h.cond hc hp)
  | connect op lhs rhs =>
    simp only [Op.eval, except_bind_ok, except_pure_ok] at hresult
    rcases hresult with ⟨c, hc, c', hc', rfl⟩
    simp only [Op.direct?, Option.bind_eq_bind, Option.bind_eq_some_iff, Option.pure_def,
      Option.some.injEq] at hd
    rcases hd with ⟨p, hp, q, hq, rfl⟩
    exact .some (Cond.wide?_connect op (h.cond hc hp) (h.cond hc' hq))
  | decide arg =>
    simp only [Op.eval, except_bind_ok, except_pure_ok, except_mapError_ok] at hresult
    rcases hresult with ⟨c, hc, b, hb, rfl⟩
    simp only [Op.direct?, Option.bind_eq_bind, Option.bind_eq_some_iff, Option.pure_def,
      Option.some.injEq] at hd
    rcases hd with ⟨p, hp, rfl⟩
    exact .none
  | select arg yes no =>
    simp only [Op.eval, except_bind_ok, except_pure_ok, except_mapError_ok] at hresult
    rcases hresult with ⟨c, hc, b, hb, e, he, rfl⟩
    simp only [Op.direct?, Option.bind_eq_bind, Option.bind_eq_some_iff, Option.pure_def,
      Option.some.injEq] at hd
    rcases hd with ⟨p, hp, v, hv, rfl⟩
    -- both runs go on with the same operand
    have hbranch : b = p := h.decided hc hb hp
    rw [← hbranch] at hv
    exact .some (h.int he hv)
  | _ => cases hplain

theorem agree_step {answer : Answer} {d : Option Datum} (hplain : step.Plain) (hgiven : env.Given ps)
    (h : Agree σ env.registers m) (hstep : Returns (step.run env) s answer s')
    (hd : step.direct? (inputs σ ps) m = some d) :
    (env.push (.ok answer)).Given ps ∧ Agree σ (env.push (.ok answer)).registers (m ++ [d]) := by
  cases step with
  | op o =>
    rcases returns_op.1 hstep with ⟨result, hresult, rfl, _⟩
    have hrel := agree_op hplain hgiven h hresult hd
    refine ⟨⟨(given_push env _).trans hgiven.given, (frames_push_op hresult).trans hgiven.frames⟩, ?_⟩
    rw [registers_push]
    exact List.rel_append h (.cons hrel .nil)
  | _ => exact hplain.elim

/-- A direct run of steps is one of the first step and one of the rest. -/
theorem direct_cons :
    direct (inputs σ ps) m (step :: steps) = some m' ↔
      ∃ d, step.direct? (inputs σ ps) m = some d ∧ direct (inputs σ ps) (m ++ [d]) steps = some m' := by
  rw [direct, Option.bind_eq_bind, Option.bind_eq_some_iff]

theorem direct_append {before after : List Step} :
    direct (inputs σ ps) m (before ++ after) = some m' ↔
      ∃ m₁, direct (inputs σ ps) m before = some m₁ ∧ direct (inputs σ ps) m₁ after = some m' := by
  induction before generalizing m with
  | nil => simp [direct]
  | cons step before ih =>
    simp only [List.cons_append, direct_cons, ih]
    constructor
    · rintro ⟨d, hd, m₁, hbefore, hafter⟩
      exact ⟨m₁, ⟨d, hd, hbefore⟩, hafter⟩
    · rintro ⟨m₁, ⟨d, hd, hbefore⟩, hafter⟩
      exact ⟨d, hd, m₁, hbefore, hafter⟩

theorem agree_run (hplain : ∀ step ∈ steps, step.Plain) (hgiven : env.Given ps)
    (h : Agree σ env.registers m) (hrun : Returns (run env steps) s env' s')
    (hdirect : direct (inputs σ ps) m steps = some m') : env'.Given ps ∧ Agree σ env'.registers m' := by
  induction steps generalizing env s m with
  | nil =>
    rcases returns_run_nil.1 hrun with ⟨rfl, rfl⟩
    cases hdirect
    exact ⟨hgiven, h⟩
  | cons step steps ih =>
    rcases returns_run_cons.1 hrun with ⟨answer, s₁, hstep, hrest⟩
    rcases direct_cons.1 hdirect with ⟨d, hd, hdrest⟩
    have hnext := agree_step (hplain step (.head _)) hgiven h hstep hd
    exact ih (fun step hstep => hplain step (.tail _ hstep)) hnext.1 hnext.2 hrest hdrest

/-- Where the script branches, it does so on a condition that is known, and that is what the direct
run finds it to be. -/
theorem agree_branch {answer : Answer} {d : Option Datum} {c : CondArg} (h : Agree σ env.registers m)
    (hstep : Returns (step.run env) s answer s') (hd : step.direct? (inputs σ ps) m = some d)
    (hc : step.branch? = some c) : ∃ b, env.cond c = .ok (.known b) ∧ m.cond? c = some b := by
  have hdecided : ∃ x b p, env.cond c = .ok x ∧ x.decided = .ok b ∧ m.cond? c = some p := by
    cases step with
    | op o =>
      rcases returns_op.1 hstep with ⟨result, hresult, _⟩
      cases o with
      | decide arg =>
        cases hc
        simp only [Op.eval, except_bind_ok, except_mapError_ok] at hresult
        rcases hresult with ⟨x, hx, b, hb, _⟩
        simp only [Step.direct?, Op.direct?, Option.bind_eq_bind, Option.bind_eq_some_iff] at hd
        rcases hd with ⟨p, hp, _⟩
        exact ⟨x, b, p, hx, hb, hp⟩
      | select arg yes no =>
        cases hc
        simp only [Op.eval, except_bind_ok, except_mapError_ok] at hresult
        rcases hresult with ⟨x, hx, b, hb, _⟩
        simp only [Step.direct?, Op.direct?, Option.bind_eq_bind, Option.bind_eq_some_iff] at hd
        rcases hd with ⟨p, hp, _⟩
        exact ⟨x, b, p, hx, hb, hp⟩
      | _ => cases hc
    | _ => cases hc
  rcases hdecided with ⟨x, b, p, hx, hb, hp⟩
  have hbranch : b = p := h.decided hx hb hp
  have hknown : x = .known b := Cond.known_of_decided hb
  exact ⟨b, hknown ▸ hx, hbranch ▸ hp⟩

theorem returns_run_append {before after : List Step} :
    Returns (run env (before ++ after)) s env' s' ↔
      ∃ env₁ s₁, Returns (run env before) s env₁ s₁ ∧ Returns (run env₁ after) s₁ env' s' := by
  induction before generalizing env s with
  | nil => simp
  | cons step before ih =>
    simp only [List.cons_append, returns_run_cons, ih]
    constructor
    · rintro ⟨answer, s₁, hstep, env₂, s₂, hbefore, hafter⟩
      exact ⟨env₂, s₂, ⟨answer, s₁, hstep, hbefore⟩, hafter⟩
    · rintro ⟨env₂, s₂, ⟨answer, s₁, hstep, hbefore⟩, hafter⟩
      exact ⟨answer, s₁, hstep, env₂, s₂, hbefore, hafter⟩

end

section

variable {name : String} {params : List Ty} {steps : List Step} {s s' : Session} {t : Trace}

/-- A trace runs the script on the parameters of a frame, which depend on their types only. -/
theorem run_of_trace (h : Returns (takeTrace name params steps) s t s') :
    ∃ start slots, Slot.layout s.frames.length 0 0 params = .ok slots ∧
      t.frame.params = slots.map Slot.param ∧
        Returns (run { given := some t.frame.params } steps) start t.env s' := by
  rcases returns_trace h with ⟨start, slots, hopened, hrun, hframe, _⟩
  have hid : t.id = s.frames.length := hopened.id_eq
  have hlayout : Slot.layout s.frames.length 0 0 params = .ok slots :=
    Slot.layout_eq_ok.2 (hid ▸ hopened.layout)
  have hparams : t.frame.params = slots.map Slot.param := by
    rcases frameOf_run hopened hrun with ⟨es, hes⟩
    rw [hframe, hes, Frame.params_enterAll]
    rfl
  exact ⟨start, slots, hlayout, hparams, hparams ▸ hrun⟩

/-- The trace of a script begins with the trace of its first steps. -/
theorem returns_trace_append {before after : List Step}
    (h : Returns (takeTrace name params (before ++ after)) s t s') :
    ∃ t₁ s₁, Returns (takeTrace name params before) s t₁ s₁ ∧ t₁.frame.params = t.frame.params ∧
      Returns (run t₁.env after) s₁ t.env s' := by
  have hsplit : ∃ t₁ s₁, Returns (takeTrace name params before) s t₁ s₁ ∧
      Returns (run t₁.env after) s₁ t.env s' := by
    simp only [takeTrace, returns_bind, returns_mapError, returns_get, returns_say, returns_pure,
      returns_run_append] at h ⊢
    rcases h with ⟨_, _, rfl, id, _, hopen, _, start, ⟨rfl, rfl⟩, env, _, ⟨env₁, s₁, hbefore, hafter⟩,
      _, _, ⟨rfl, rfl⟩, rfl, rfl⟩
    exact ⟨_, s₁, ⟨(), _, rfl, id, _, hopen, _, _, ⟨rfl, rfl⟩, env₁, s₁, hbefore, _, _, ⟨rfl, rfl⟩,
      rfl, rfl⟩, hafter⟩
  rcases hsplit with ⟨t₁, s₁, hbefore, hafter⟩
  rcases run_of_trace h with ⟨_, slots, hlayout, hparams, _⟩
  rcases run_of_trace hbefore with ⟨_, slots₁, hlayout₁, hparams₁, _⟩
  have hslots : slots₁ = slots := Except.ok.inj (hlayout₁.symm.trans hlayout)
  exact ⟨t₁, s₁, hbefore, by rw [hparams₁, hslots, hparams], hafter⟩

theorem agree_trace {σ : Assignment} {m : Data} (hplain : ∀ step ∈ steps, step.Plain)
    (h : Returns (takeTrace name params steps) s t s')
    (hdirect : direct (inputs σ t.frame.params) [] steps = some m) : Agree σ t.env.registers m := by
  rcases run_of_trace h with ⟨start, _, _, _, hrun⟩
  have hempty : Agree σ [] [] := List.Forall₂.nil
  exact (agree_run hplain ⟨rfl, rfl⟩ hempty hrun hdirect).2

end

/-- Each operation twice, on known integers and on the parameter: the first time it is carried out
while tracing, the second time it is left. In the end a comparison of what is left does not
matter. -/
def foldedAndLeft : List Step :=
  [.op (.int 0 .given), .op (.arith .mul (.lit 6) (.lit 7)), .op (.arith .sub (.lit 3) (.lit 10)),
    .op (.arith .div (.register 2) (.lit 2)), .op (.arith .shr (.register 2) (.lit 1)),
    .op (.arith .shl (.lit 3) (.lit 127)), .op (.arith .bitOr (.register 2) (.lit 2)),
    .op (.arith .bitXor (.register 2) (.register 3)), .op (.arith .bitAnd (.register 2) (.lit 12)),
    .op (.arith .add (.register 0) (.register 1)), .op (.arith .sub (.register 0) (.register 1)),
    .op (.arith .div (.register 10) (.lit 4)), .op (.arith .shr (.register 10) (.lit 2)),
    .op (.arith .shl (.register 0) (.lit 126)), .op (.arith .bitOr (.register 10) (.lit 4)),
    .op (.arith .bitXor (.register 10) (.register 2)), .op (.arith .bitAnd (.register 10) (.lit 12)),
    .op (.compare .lt (.register 9) (.lit 45)), .op (.compare .eq (.register 1) (.lit 42)),
    .op (.connect .or (.register 17) (.register 18)), .op (.decide (.register 19)),
    .op (.select (.register 19) (.register 9) (.lit 0))]

/-- What it computes from 5. -/
def foldedAndLeftData : Data :=
  [some (.int 5), some (.int 42), some (.int (-7)), some (.int (-3)), some (.int (-4)),
    some (.int Wide.lowest), some (.int (-5)), some (.int 4), some (.int 8), some (.int 47),
    some (.int (-37)), some (.int (-9)), some (.int (-10)), some (.int (2 ^ 126)),
    some (.int (-33)), some (.int 34), some (.int 8), some (.truth false), some (.truth true),
    some (.truth true), none, some (.int 47)]

end Script

end GuardedC
