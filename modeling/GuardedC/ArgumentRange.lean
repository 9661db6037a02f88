import GuardedC.IntSet.Solutions
import GuardedC.Session

/-!
# Ranges of arguments

The facts about an integer argument leave a set of values, its range. `Frame.ranges` computes the
range of every integer argument of a frame and fails if a fact is no bound by a known integer or if
no value is left. `ArgumentRange.guard` writes the condition that all arguments lie in their ranges.
-/

namespace GuardedC

/-- The values an integer argument may take once every assertion holds. -/
structure ArgumentRange where
  argument : Argument
  /-- All values of the argument's type. -/
  possible : IntSet
  /-- The values that the facts leave. -/
  range : IntSet
deriving Repr, DecidableEq

/-! ## From facts to ranges -/

inductive RangeError where
  | unsatisfiable (argument : String)
  | nonLiteral (argument : String) (fact : Fact)
deriving Repr, DecidableEq

def RangeError.diagnostic : RangeError → Diagnostic
  | .unsatisfiable argument =>
    { message := s!"no way to satisfy the constraints on `{argument}`"
      code := some "sya::collapse"
      help := none }
  | .nonLiteral argument fact =>
    { message := s!"`{argument} {fact.op.symbol} {fact.operand.render}` is not yet handled: "
        ++ "only literal operands can be collapsed"
      code := some "sya::collapse"
      help := none }

/-- The values between two bounds that a fact allows. Facts are comparisons, so that there always is
such a set. -/
def Fact.implied (fact : Fact) (literal low high : Int) : IntSet :=
  match h : Operator.solutions? fact.op literal low high with
  | some set => set
  | none => absurd h (Operator.solutions?_ne_none fact.op literal low high)

/-- A set of values of an argument after one more fact. -/
def refine (argument : String) (range : IntSet) (fact : Fact) : Except RangeError IntSet :=
  match fact.operand.literal? with
  | none => .error (.nonLiteral argument fact)
  | some literal =>
    match range.low?, range.high? with
    | some low, some high =>
      let rest := range ∩ fact.implied literal low high
      if rest.isEmpty then .error (.unsatisfiable argument) else .ok rest
    | _, _ => .error (.unsatisfiable argument)

/-- What the log tells of a chain of refinements, up to the one that fails. -/
def refineLog (argument : String) (range : IntSet) : List Fact → List Message
  | [] => []
  | fact :: facts =>
    match fact.operand.literal?, range.low?, range.high? with
    | some literal, some low, some high =>
      let rest := range ∩ fact.implied literal low high
      .narrowed argument fact.op literal rest ::
        if rest.isEmpty then [] else refineLog argument rest facts
    | _, _, _ => []

namespace Frame

/-- The range of one argument; only integers have one. -/
def range? (f : Frame) (a : Argument) : Except RangeError (Option ArgumentRange) :=
  match a.ty.values? with
  | none => .ok none
  | some possible => do
    let range ← (f.factsAt a.index).foldlM (refine a.name) possible
    return some ⟨a, possible, range⟩

def rangeLog (f : Frame) (a : Argument) : List Message :=
  match a.ty.values? with
  | none => []
  | some possible => refineLog a.name possible (f.factsAt a.index)

/-- The ranges of some arguments, in order. The first argument without one is reported. -/
def rangesOf (f : Frame) : List Argument → Except RangeError (List ArgumentRange)
  | [] => .ok []
  | a :: as => do
    let row ← f.range? a
    let rows ← f.rangesOf as
    return row.toList ++ rows

def rangesLogOf (f : Frame) : List Argument → List Message
  | [] => []
  | a :: as =>
    f.rangeLog a ++
      match f.range? a with
      | .ok _ => f.rangesLogOf as
      | .error _ => []

/-- The range of every integer argument, in the order of the signature. -/
def ranges (f : Frame) : Except RangeError (List ArgumentRange) := f.rangesOf f.arguments

/-- What the log tells of `ranges`. -/
def rangesLog (f : Frame) : List Message := f.rangesLogOf f.arguments

end Frame

/-- The ranges of a frame, with their log. -/
def Frame.collapse (f : Frame) : InSession RangeError (List ArgumentRange) := do
  modify fun s => { s with log := s.log ++ f.rangesLog }
  f.ranges

/-! ## From ranges to the guard -/

/-- The condition that a name lies in one piece of its range. A bound shared with the possible
values goes without saying. -/
def Interval.condition (name : String) (low high : Int) (p : Interval) : CExpr :=
  let atLeast := CExpr.binary Comparison.ge (.name name) (.ofInt p.low)
  let fromLow := CExpr.binary Comparison.le (.ofInt p.low) (.name name)
  let below := CExpr.binary Comparison.lt (.name name) (.ofInt p.high)
  -- the first piece may share its low bound, the last one its high bound
  if p.low = low then below
  else if p.high = high then atLeast
  else .binary Connective.and fromLow below

/-- The condition that an argument lies in its range, or nothing if it always does. -/
def ArgumentRange.clause? (r : ArgumentRange) : Option CExpr :=
  if r.range = r.possible then none
  else
    match r.possible.low?, r.possible.high? with
    | some low, some high =>
      -- a range without pieces has no condition either
      CExpr.chain? Connective.or (r.range.pieces.map (·.condition r.argument.name low high))
    | _, _ => none

/-- The condition that every argument lies in its range; `1` if that is no condition at all. -/
def ArgumentRange.guard (rows : List ArgumentRange) : CExpr :=
  (CExpr.chain? Connective.and (rows.filterMap (·.clause?))).getD (.constant 1 false)

end GuardedC
