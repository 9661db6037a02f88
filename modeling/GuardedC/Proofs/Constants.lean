import GuardedC.Proofs.EmittedText

/-!
# Constants in emitted texts

Tracing computes with wider integers than C has, and an integer that it ends up with is written down
as a constant. `CExpr.fixed?` tells the type and the value of a constant expression in a C whose
widest types have 64 bits, or that it has none, and `CExpr.constants` lists the constants that stand
in an expression.

`constants_denote_iff_inWidest` says which constants of an emitted text are right. Those of the
guard always are: a bound that is written lies strictly between the bounds of a type. In the body,
the integers of the returned value are written whatever they are, and one that C's widest types do
not have is written as a constant without a type.
-/

namespace GuardedC

namespace CExpr

/-! ## The constants of a tree -/

/-- The constants of a tree from left to right. A sign belongs to the constant that it stands
before. -/
def constants : CExpr → List CExpr
  | name _ => []
  | constant value ull => [constant value ull]
  | negate (constant value ull) => [negate (constant value ull)]
  | negate e => e.constants
  | binary _ l r => l.constants ++ r.constants
  | index a k => a.constants ++ k.constants
  | paren e => e.constants

theorem constants_attach (e : CExpr) (op : Operator) (operand : CExpr) :
    (e.attach op operand).constants = e.constants ++ operand.constants := by
  fun_induction attach e op operand with
  | case1 o l r op operand _ ih => simp only [constants, ih, List.append_assoc]
  | case2 o l r op operand _ => rfl
  | case3 e op operand _ => rfl

theorem constants_attachAll (e : CExpr) (rest : List (Operator × CExpr)) :
    (e.attachAll rest).constants = e.constants ++ rest.flatMap fun next => next.2.constants := by
  induction rest generalizing e with
  | nil => simp [attachAll]
  | cons next rest ih =>
    have hrest := ih (e.attach next.1 next.2)
    rw [constants_attach, List.append_assoc] at hrest
    exact hrest

theorem constants_chain {e : CExpr} (h : e.Spelled) :
    e.chain.1.constants ++ (e.chain.2.flatMap fun next => next.2.constants) = e.constants := by
  induction e with
  | name id => rfl
  | constant value ull => rfl
  | negate e _ =>
    obtain ⟨value, ull, rfl⟩ := h
    rfl
  | binary op l r ihl ihr =>
    -- a chain forgets how its operands are grouped, but not their order
    have hl := ihl h.1
    have hr := ihr h.2
    simp only [chain, constants, List.flatMap_append, List.flatMap_cons, ← hl, ← hr, List.append_assoc]
  | index a k iha ihk =>
    simp only [chain, constants, List.flatMap_nil, List.append_nil, constants_attachAll, iha h.1, ihk h.2]
  | paren e ih => simp only [chain, constants, List.flatMap_nil, List.append_nil, constants_attachAll, ih h]

/-- However C groups the operands, their constants stay what they are. -/
theorem constants_reading {e : CExpr} (h : e.Spelled) : e.reading.constants = e.constants := by
  rw [reading, constants_attachAll, constants_chain h]

/-! ## Constant expressions -/

/-- A value of the widest signed or the widest unsigned type. -/
structure Typed where
  value : Int
  unsigned : Bool
deriving Repr, DecidableEq

/-- The result of an operation. Unsigned types wrap around, and in the signed type there is no
result beyond its bounds. -/
def Typed.ofResult (unsigned : Bool) (v : Int) : Option Typed :=
  if unsigned then some ⟨v % (unsignedMax + 1), true⟩
  else if -longMax - 1 ≤ v ∧ v ≤ longMax then some ⟨v, false⟩
  else none

/-- What a constant expression of signs and differences denotes. -/
def fixed? : CExpr → Option Typed
  | constant value ull => if HasType value ull then some ⟨value, ull⟩ else none
  | negate e => do
    let x ← e.fixed?
    Typed.ofResult x.unsigned (-x.value)
  | binary (.arith .sub) l r => do
    let x ← l.fixed?
    let y ← r.fixed?
    Typed.ofResult (x.unsigned || y.unsigned) (x.value - y.value)
  | paren e => e.fixed?
  | name _ | binary _ _ _ | index _ _ => none

/-- The expression is valid, denotes the integer, and is unsigned where the integer needs it. -/
def Denotes (e : CExpr) (v : Int) : Prop := e.fixed? = some ⟨v, decide (v > longMax)⟩

/-- The constants of the tree are those of the written integers, in this order. -/
def Writes (e : CExpr) (vs : List Int) : Prop := e.constants = vs.flatMap fun v => (ofInt v).constants

theorem fixed?_ofInt (v : Int) :
    (ofInt v).fixed? = if InWidest v then some ⟨v, decide (v > longMax)⟩ else none := by
  unfold ofInt
  by_cases hunsigned : v > longMax
  · -- the suffix is there, and only the bound of the unsigned type is left to meet
    have htype : HasType v.toNat true ↔ InWidest v := by
      show v.toNat ≤ unsignedMax ↔ -longMax - 1 ≤ v ∧ v ≤ unsignedMax
      omega
    have hvalue : (v.toNat : Int) = v := by omega
    simp only [hunsigned, if_true, fixed?, htype, hvalue, decide_true]
  · have hsigned : decide (v > longMax) = false := decide_eq_false hunsigned
    have hwide : InWidest v ↔ -longMax - 1 ≤ v := by
      have hmax : (longMax : Int) ≤ unsignedMax := by decide
      show -longMax - 1 ≤ v ∧ v ≤ unsignedMax ↔ _
      omega
    rw [if_neg hunsigned, hsigned, if_congr hwide rfl rfl]
    by_cases hleast : v = -longMax - 1
    · rw [if_pos hleast, hleast]
      decide
    · rw [if_neg hleast]
      by_cases hneg : v < 0
      · have htype : HasType v.natAbs false ↔ -longMax - 1 ≤ v := by
          show v.natAbs ≤ longMax ↔ _
          omega
        have hvalue : -(v.natAbs : Int) = v := by omega
        by_cases hlow : -longMax - 1 ≤ v
        · have hconstant : (constant v.natAbs false).fixed? = some ⟨v.natAbs, false⟩ :=
            if_pos (htype.2 hlow)
          have hresult : -longMax - 1 ≤ v ∧ v ≤ longMax := ⟨hlow, by omega⟩
          rw [if_pos hneg, if_pos hlow, fixed?, hconstant]
          show Typed.ofResult false (-(v.natAbs : Int)) = _
          rw [hvalue, Typed.ofResult, if_neg Bool.false_ne_true, if_pos hresult]
        · have hconstant : (constant v.natAbs false).fixed? = none := if_neg fun h => hlow (htype.1 h)
          rw [if_pos hneg, if_neg hlow, fixed?, hconstant]
          rfl
      · have htype : HasType v.toNat false := by
          show v.toNat ≤ longMax
          omega
        have hlow : -longMax - 1 ≤ v := by omega
        have hvalue : (v.toNat : Int) = v := by omega
        simp only [hneg, if_false, fixed?, htype, hlow, if_true, hvalue]

theorem denotes_ofInt {v : Int} : (ofInt v).Denotes v ↔ InWidest v := by
  unfold Denotes
  rw [fixed?_ofInt]
  by_cases h : InWidest v
  · simp [h]
  · simp [h]

/-- The constants that an integer is written with have types exactly if the integer is one of C. -/
theorem fixed?_constants_ofInt {v : Int} : (∀ c ∈ (ofInt v).constants, c.fixed? ≠ none) ↔ InWidest v := by
  by_cases hleast : v = -longMax - 1
  · rw [hleast]
    decide
  · -- but for the least integer, the constant is the whole expression
    have hsingle : (ofInt v).constants = [ofInt v] := by
      unfold ofInt
      rw [if_neg hleast]
      split
      · rfl
      · split <;> rfl
    rw [hsingle, List.forall_mem_singleton, fixed?_ofInt]
    by_cases h : InWidest v
    · simp [h]
    · simp [h]

theorem Writes.fixed?_iff {e : CExpr} {vs : List Int} (h : e.Writes vs) :
    (∀ c ∈ e.constants, c.fixed? ≠ none) ↔ ∀ v ∈ vs, InWidest v := by
  rw [h]
  constructor
  · intro hall v hv
    exact fixed?_constants_ofInt.1 fun c hc => hall c (List.mem_flatMap.2 ⟨v, hv, hc⟩)
  · intro hwide c hc
    obtain ⟨v, hv, hc⟩ := List.mem_flatMap.1 hc
    exact fixed?_constants_ofInt.2 (hwide v hv) c hc

theorem writes_ofInt (v : Int) : (ofInt v).Writes [v] := by
  simp [Writes]

theorem Writes.append {l r : CExpr} {vs ws : List Int} (hl : l.Writes vs) (hr : r.Writes ws) :
    l.constants ++ r.constants = (vs ++ ws).flatMap fun v => (ofInt v).constants := by
  rw [List.flatMap_append, ← hl, ← hr]

end CExpr

/-! ## Integers in values -/

/-- The integers that are written with an expression. The length of a slice is not, and neither is
the offset zero. -/
def Expr.written : Expr → List Int
  | lit v => [v]
  | argument _ => []
  | binary _ l r => l.written ++ r.written
  | byteIndex source key => source.written ++ key.written
  | byteSlice base start _ => if start = lit 0 then base.written else base.written ++ start.written

def Value.written : Value → List Int
  | nothing => []
  | int e => e.written
  | bytes b => b.expr.written
  | cond (.known b) => [if b then 1 else 0]
  | cond (.symbolic e) => e.written

theorem Expr.writes_toC (e : Expr) : e.toC.Writes e.written := by
  induction e with
  | lit v => exact CExpr.writes_ofInt v
  | argument a => rfl
  | binary op l r ihl ihr => exact ihl.append ihr
  | byteIndex source key ihs ihk => exact ihs.append ihk
  | byteSlice base start length ihb ihs _ =>
    unfold toC written
    split
    · exact ihb
    · exact ihb.append ihs

theorem Value.writes_toC? {v : Value} {e : CExpr} (he : v.toC? = some e) : e.Writes v.written := by
  cases v with
  | nothing => cases he
  | int x =>
    cases he
    exact x.writes_toC
  | bytes b =>
    cases he
    exact b.expr.writes_toC
  | cond c =>
    cases he
    cases c with
    | known b => cases b <;> rfl
    | symbolic x => exact x.writes_toC

/-- A view takes bytes from a node, and so do its bounds. -/
structure Bytes.ReadsNodes (b : Bytes) : Prop where
  isNode : b.base.isLiteral = false
  base : b.base.ReadsNodes
  arrayLength : b.arrayLength.ReadsNodes
  start : b.start.ReadsNodes
  length : b.length.ReadsNodes
  view : b.view.ReadsNodes

/-- Checked operations read bytes from arrays only. -/
theorem closed_readsNodes : Closed (fun _ => True) Expr.ReadsNodes Bytes.ReadsNodes where
  lit _ := trivial
  binary hl hr := ⟨hl, hr⟩
  arrayLength hb := hb.arrayLength
  bounds hb := ⟨hb.start, hb.length⟩
  byteAt hb hkey _ := ⟨hb.isNode, hb.base, hkey⟩
  slice hb hstart hlength _ :=
    ⟨hb.isNode, hb.base, hb.arrayLength, hstart, hlength, hb.isNode, hb.base, hstart, hlength⟩

theorem Param.In.readsNodes {args : List Argument} {p : Param} (h : p.In args) :
    p.toValue.All Expr.ReadsNodes Bytes.ReadsNodes := by
  cases p with
  | int e =>
    obtain ⟨a, _, _, rfl⟩ := h
    trivial
  | bytes b =>
    obtain ⟨data, size, _, rfl⟩ := h
    exact ⟨rfl, trivial, trivial, trivial, trivial, trivial⟩

theorem Value.settled_toC? {v : Value} {e : CExpr} (he : v.toC? = some e)
    (h : v.All Expr.ReadsNodes Bytes.ReadsNodes) : e.Settled := by
  cases v with
  | nothing => cases he
  | int x =>
    cases he
    exact Expr.settled_toC h
  | bytes b =>
    cases he
    exact Expr.settled_toC h.view
  | cond c =>
    cases he
    cases c with
    | known b => exact CExpr.settled_constant _ _
    | symbolic x => exact Expr.settled_toC h

/-! ## Integers in guards -/

/-- The bounds of a piece that are written, where the possible values have the given bounds. -/
def Interval.bounds (low high : Int) (p : Interval) : List Int :=
  if p.low = low then [p.high] else if p.high = high then [p.low] else [p.low, p.high]

namespace ArgumentRange

/-- The bounds that are written for an argument. -/
def bounds (r : ArgumentRange) : List Int :=
  if r.range = r.possible then []
  else
    match r.possible.low?, r.possible.high? with
    | some low, some high => r.range.pieces.flatMap (·.bounds low high)
    | _, _ => []

/-- The integers that are written in a guard. -/
def written (rows : List ArgumentRange) : List Int :=
  if (rows.filterMap (·.clause?)).isEmpty then [1] else rows.flatMap bounds

end ArgumentRange

theorem Interval.writes_condition (name : String) (low high : Int) (p : Interval) :
    (p.condition name low high).Writes (p.bounds low high) := by
  unfold condition bounds
  split
  · exact CExpr.writes_ofInt p.high
  · split
    · exact CExpr.writes_ofInt p.low
    · simp [CExpr.Writes, CExpr.constants]

theorem CExpr.constants_foldl (op : Operator) (es : List CExpr) (e : CExpr) :
    (es.foldl (parenthesized op) e).constants = e.constants ++ es.flatMap constants := by
  induction es generalizing e with
  | nil => simp
  | cons x es ih => simp [ih, parenthesized, constants]

theorem CExpr.constants_chain? {op : Operator} {es : List CExpr} {e : CExpr} (h : chain? op es = some e) :
    e.constants = es.flatMap constants := by
  cases es with
  | nil => cases h
  | cons x es =>
    cases h
    exact constants_foldl op es x

namespace ArgumentRange

/-- A clause is a chain over the pieces of the range, and so is the list of the bounds that stand in
it. -/
theorem clause?_cases (r : ArgumentRange) :
    r.clause? = none ∧ r.bounds = [] ∨ ∃ low high,
      r.clause? = CExpr.chain? Connective.or (r.range.pieces.map (·.condition r.argument.name low high)) ∧
        r.bounds = r.range.pieces.flatMap (·.bounds low high) := by
  unfold clause? bounds
  by_cases hall : r.range = r.possible
  · rw [if_pos hall, if_pos hall]
    exact .inl ⟨rfl, rfl⟩
  · rw [if_neg hall, if_neg hall]
    cases r.possible.low? with
    | none => exact .inl ⟨rfl, rfl⟩
    | some low =>
      cases r.possible.high? with
      | none => exact .inl ⟨rfl, rfl⟩
      | some high => exact .inr ⟨low, high, rfl, rfl⟩

theorem writes_clause? (r : ArgumentRange) :
    r.clause?.toList.flatMap CExpr.constants = r.bounds.flatMap fun v => (CExpr.ofInt v).constants := by
  rcases r.clause?_cases with ⟨hclause, hbounds⟩ | ⟨low, high, hclause, hbounds⟩
  · rw [hclause, hbounds]
    rfl
  · rw [hclause, hbounds, List.flatMap_assoc]
    cases hchain : CExpr.chain? Connective.or
      (r.range.pieces.map (·.condition r.argument.name low high)) with
    | none =>
      rw [List.map_eq_nil_iff.1 (CExpr.chain?_eq_none.1 hchain)]
      rfl
    | some e =>
      have hconstants := CExpr.constants_chain? hchain
      rw [List.flatMap_map] at hconstants
      rw [Option.toList_some, List.flatMap_singleton, hconstants]
      exact List.flatMap_congr fun p _ => p.writes_condition r.argument.name low high

theorem writes_guard (rows : List ArgumentRange) : (guard rows).Writes (written rows) := by
  unfold guard written
  cases hclauses : rows.filterMap (·.clause?) with
  | nil => rfl
  | cons x es =>
    have hconstants : (x :: es).flatMap CExpr.constants =
        (rows.flatMap bounds).flatMap fun v => (CExpr.ofInt v).constants := by
      rw [← hclauses, List.filterMap_eq_flatMap_toList, List.flatMap_assoc, List.flatMap_assoc]
      exact List.flatMap_congr fun r _ => r.writes_clause?
    exact (CExpr.constants_foldl Connective.and es x).trans hconstants

end ArgumentRange

theorem IntegerType.bounds_values (t : IntegerType) :
    t.values.low? = some t.low ∧ t.values.high? = some t.high := by
  rcases t with ⟨width, signed⟩
  cases width <;> cases signed <;> decide

/-- Where the pieces of a set begin and end. -/
def IntSet.endpoints (s : IntSet) : List Int := s.pieces.flatMap fun p => [p.low, p.high]

/-- Of a piece that is not the whole interval, the endpoints inside of the interval are written. -/
theorem Interval.bounds_eq {low high : Int} {p : Interval} (hproper : p.low < p.high) (hlow : low ≤ p.low)
    (hhigh : p.high ≤ high) (hpart : ¬ (p.low = low ∧ p.high = high)) :
    p.bounds low high = [p.low, p.high].filter fun v => low < v ∧ v < high := by
  unfold bounds
  simp only [List.filter_cons, List.filter_nil, decide_eq_true_eq]
  split
  · rw [if_neg (by omega), if_pos (by omega)]
  · split
    · rw [if_pos (by omega), if_neg (by omega)]
    · rw [if_pos (by omega), if_pos (by omega)]

/-- The endpoints of a range that lie strictly between the bounds of the type are written. -/
theorem ArgumentRange.Exact.bounds_eq {f : Frame} {r : ArgumentRange} (h : r.Exact f)
    (hne : r.range ≠ r.possible) {type : IntegerType} (hpossible : r.possible = type.values) :
    r.bounds = r.range.endpoints.filter fun v => type.low < v ∧ v < type.high := by
  unfold bounds IntSet.endpoints
  rw [if_neg hne, hpossible, type.bounds_values.1, type.bounds_values.2, List.filter_flatMap]
  apply List.flatMap_congr
  intro p hp
  have hinside : ∀ w ∈ p, type.low ≤ w ∧ w < type.high := by
    intro w hw
    have hw' := ((h.refines.mem w).1 ⟨p, hp, hw⟩).1
    rw [hpossible] at hw'
    exact IntSet.mem_range.1 hw'
  have hproper := r.range.separated.nonempty p hp
  have hfirst := hinside p.low (Interval.mem_def.2 ⟨Int.le_refl _, hproper⟩)
  have hlast := hinside (p.high - 1) (Interval.mem_def.2 ⟨by omega, by omega⟩)
  refine Interval.bounds_eq hproper hfirst.1 (by omega) ?_
  -- a piece with both bounds of the type would be the whole range
  rintro ⟨hplow, hphigh⟩
  apply hne
  apply IntSet.ext
  intro w
  constructor
  · intro hw
    exact ((h.refines.mem w).1 hw).1
  · intro hw
    rw [hpossible] at hw
    have hbetween := IntSet.mem_range.1 hw
    exact ⟨p, hp, Interval.mem_def.2 ⟨by omega, by omega⟩⟩

/-- A written bound lies strictly between the bounds of the type. -/
theorem ArgumentRange.Exact.bounds_inside {f : Frame} {r : ArgumentRange} (h : r.Exact f) :
    ∃ type, r.argument.ty = .integer type ∧ ∀ v ∈ r.bounds, type.low < v ∧ v < type.high := by
  obtain ⟨type, htype, hpossible⟩ := h.typed
  refine ⟨type, htype, ?_⟩
  intro v hv
  by_cases hsame : r.range = r.possible
  · rw [bounds, if_pos hsame] at hv
    cases hv
  · rw [h.bounds_eq hsame hpossible, List.mem_filter, decide_eq_true_eq] at hv
    exact hv.2

theorem Frame.RowsOf.inWidest_written {f : Frame} {args : List Argument} {rows : List ArgumentRange}
    (h : f.RowsOf args rows) : ∀ v ∈ ArgumentRange.written rows, CExpr.InWidest v := by
  intro v hv
  unfold ArgumentRange.written at hv
  split at hv
  · rw [List.mem_singleton.1 hv]
    decide
  · obtain ⟨r, hr, hv⟩ := List.mem_flatMap.1 hv
    obtain ⟨type, _, hinside⟩ := (h.exact r hr).bounds_inside
    exact IntegerType.inWidest (Int.le_of_lt (hinside v hv).1) (hinside v hv).2

/-! ## Constants of a build -/

/-- How integers stand in the texts of a function that was made for some rows and a value. -/
structure Outline.Writes (outline : Outline) (rows : List ArgumentRange) (value : Value) : Prop where
  /-- The constants of the guard denote the bounds that they are written for. -/
  guard : ∃ guard, CExpr.parse outline.guard = some guard ∧ guard.Writes (ArgumentRange.written rows) ∧
    ∀ v ∈ ArgumentRange.written rows, (CExpr.ofInt v).Denotes v
  /-- The constants of the body are those of the integers in the value, and denote the integers of
  C. -/
  body : ∀ expr, outline.body.expr? = some expr →
    ∃ body, CExpr.parse expr = some body ∧ body.Writes value.written ∧
      (∀ v ∈ value.written, ((CExpr.ofInt v).Denotes v ↔ CExpr.InWidest v)) ∧
      ((∀ c ∈ body.constants, c.fixed? ≠ none) ↔ ∀ v ∈ value.written, CExpr.InWidest v)

namespace Script

variable {options : Options} {name : String} {params : List Ty} {returns : Ty} {steps : List Step}
  {result : Option Nat} {s s' : Session} {t : Trace} {value : Value} {text : String}

theorem readsNodes_of_result (hchecked : ∀ step ∈ steps, step.Checked)
    (h : Returns (takeTrace name params steps) s t s') (hvalue : t.env.result result = .ok value) :
    value.All Expr.ReadsNodes Bytes.ReadsNodes := by
  obtain ⟨hregisters, _⟩ := all_of_trace h closed_readsNodes (fun step hstep => (hchecked step hstep).keeps)
    (fun p hp => hp.readsNodes) fun _ _ => trivial
  cases result with
  | none =>
    cases hvalue
    trivial
  | some n => exact hregisters value (Env.mem_registers_of_value hvalue)

/-- The constants of an emitted guard denote the bounds that they were written for. The constants of
an emitted body are those of the integers in the returned value, and denote them exactly if these
are integers of C's widest types. -/
theorem constants_denote_iff_inWidest (hchecked : ∀ step ∈ steps, step.Checked)
    (h : Returns (build options name params returns steps result) s text s') :
    ∃ outline t s₁ value rows, Outline.read text = some outline ∧
      Returns (takeTrace name params steps) s t s₁ ∧ t.env.result result = .ok value ∧
      t.frame.ranges = .ok rows ∧ outline.Writes rows value := by
  obtain ⟨unit, _, hcompile, htext, _⟩ := returns_build.1 h
  have hread := Outline.read_text (legible_of_returns hcompile htext) htext
  obtain ⟨t, s₁, value, htrace, hvalue, hwrite⟩ := returns_compile.1 hcompile
  obtain ⟨rows, hranges, _, hbody, hguard, _⟩ := returns_toCFunction hwrite
  have hrows : t.frame.RowsOf t.frame.arguments rows := Frame.rowsOf_of_rangesOf hranges
  refine ⟨unit.outline, t, s₁, value, rows, hread, htrace, hvalue, hranges, ?_, ?_⟩
  · have hreadable := readable_guard fun r hr =>
      (ofFrame_of_trace htrace _ (hrows.argument_mem r hr)).isIdentifier
    have hparse := CExpr.parse_text hreadable.spelled hreadable.grouped
    refine ⟨_, (congrArg CExpr.parse hguard).trans hparse, ?_, ?_⟩
    · exact (CExpr.constants_reading hreadable.spelled).trans (ArgumentRange.writes_guard rows)
    · intro v hv
      exact CExpr.denotes_ofInt.2 (hrows.inWidest_written v hv)
  · intro expr hexpr
    obtain ⟨e, he, rfl⟩ := Body.exists_toC hbody hexpr
    obtain ⟨hspelled, _⟩ := Value.text_toC? he (ofFrame_of_result htrace hvalue)
    have hsettled := Value.settled_toC? he (readsNodes_of_result hchecked htrace hvalue)
    have hparse := CExpr.parse_text hspelled hsettled.grouped
    rw [hsettled.reading] at hparse
    have hwrites := Value.writes_toC? he
    exact ⟨e, hparse, hwrites, fun v _ => CExpr.denotes_ofInt, hwrites.fixed?_iff⟩

/-- The widest unsigned type without one of its greatest values, and the least value of the signed
one. -/
def extremeIntegers : List Step :=
  [.op (.int 0 .given), .op (.compare .ne (.register 0) (.lit 18446744073709551614)),
    .op (.assert (.register 1)), .op (.arith .add (.register 0) (.lit (-9223372036854775808)))]

theorem constants_denote_iff_inWidest_extremeIntegers :
    (∀ step ∈ extremeIntegers, step.Checked) ∧
      (∃ unit s₁, Returns (compile {} "f" [.integer ⟨.w64, false⟩] (.integer ⟨.w64, false⟩) extremeIntegers
          (some 3)) Session.empty unit s₁ ∧
        unit.guard = "(arg_0 < 18446744073709551614ULL || arg_0 >= 18446744073709551615ULL)" ∧
        unit.body = .result "(arg_0 + (-9223372036854775807 - 1))") ∧
      ∃ text s', Returns (build {} "f" [.integer ⟨.w64, false⟩] (.integer ⟨.w64, false⟩) extremeIntegers
          (some 3)) Session.empty text s' ∧
        ∃ outline t s₁ value rows, Outline.read text = some outline ∧
          Returns (takeTrace "f" [.integer ⟨.w64, false⟩] extremeIntegers) Session.empty t s₁ ∧
          t.env.result (some 3) = .ok value ∧ t.frame.ranges = .ok rows ∧ outline.Writes rows value := by
  have hchecked : ∀ step ∈ extremeIntegers, step.Checked := by decide
  obtain ⟨unit, s₁, hcompile, hunit⟩ := exists_returns (s := Session.empty)
    (f := fun unit => (unit.guard, unit.body))
    (b := ("(arg_0 < 18446744073709551614ULL || arg_0 >= 18446744073709551615ULL)",
      .result "(arg_0 + (-9223372036854775807 - 1))"))
    (x := compile {} "f" [.integer ⟨.w64, false⟩] (.integer ⟨.w64, false⟩) extremeIntegers (some 3))
    (by decide +kernel)
  obtain ⟨text, s', h, _⟩ := exists_returns (s := Session.empty) (f := fun _ => ()) (b := ())
    (x := build {} "f" [.integer ⟨.w64, false⟩] (.integer ⟨.w64, false⟩) extremeIntegers (some 3))
    (by decide +kernel)
  obtain ⟨hguard, hbody⟩ := Prod.mk.inj hunit
  exact ⟨hchecked, ⟨unit, s₁, hcompile, hguard, hbody⟩, text, s', h,
    constants_denote_iff_inWidest hchecked h⟩

/-- The least integer above C's widest types is added to a parameter. -/
def integerTooWide : List Step :=
  [.op (.int 0 .given), .op (.arith .add (.register 0) (.lit 18446744073709551616))]

theorem integerTooWide_constant_without_type :
    ∃ text s', Returns (build {} "f" [.integer ⟨.w64, false⟩] (.integer ⟨.w64, false⟩)
      integerTooWide (some 1))
        Session.empty text s' ∧
      ∃ unit s₁, Returns (compile {} "f" [.integer ⟨.w64, false⟩] (.integer ⟨.w64, false⟩) integerTooWide
          (some 1)) Session.empty unit s₁ ∧ unit.text = .ok text ∧
        unit.body = .result "(arg_0 + 18446744073709551616ULL)" ∧
        ∃ body, CExpr.parse "(arg_0 + 18446744073709551616ULL)" = some body ∧
          body.constants = [.constant 18446744073709551616 true] ∧
            (CExpr.constant 18446744073709551616 true).fixed? = none := by
  obtain ⟨text, s', h, _⟩ := exists_returns (s := Session.empty) (f := fun _ => ()) (b := ())
    (x := build {} "f" [.integer ⟨.w64, false⟩] (.integer ⟨.w64, false⟩) integerTooWide (some 1))
    (by decide +kernel)
  obtain ⟨_, _, hcompile, hbody⟩ := exists_returns (s := Session.empty) (f := CFunction.body)
    (b := .result "(arg_0 + 18446744073709551616ULL)")
    (x := compile {} "f" [.integer ⟨.w64, false⟩] (.integer ⟨.w64, false⟩) integerTooWide (some 1))
    (by decide +kernel)
  obtain ⟨unit, s₁, hunit, htext, _⟩ := returns_build.1 h
  obtain ⟨rfl, rfl⟩ := hcompile.unique hunit
  refine ⟨text, s', h, _, _, hunit, htext, hbody, ?_⟩
  refine ⟨.parenthesized Arith.add (.name "arg_0") (.constant 18446744073709551616 true), ?_, rfl, ?_⟩
  · decide +kernel
  · decide

end Script

end GuardedC
