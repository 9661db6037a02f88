import GuardedC.Message
import GuardedC.Provided

/-!
# Sessions

Tracing runs in a session, which owns the frames and the log. Values refer to their frame by number;
once a frame is dropped, nothing can be recorded in it. A failing computation leaves in the session
what it did before it failed.

`assertThat` is the one way by which a condition becomes a fact.
-/

namespace GuardedC

structure Session where
  /-- The frames made so far; `none` for those that were dropped. -/
  frames : List (Option Frame)
  log : List Message
deriving Repr, DecidableEq

namespace Session

def empty : Session := ⟨[], []⟩

instance : Inhabited Session := ⟨empty⟩

/-- The frame of that number, if it was made and not dropped. -/
def frame? (s : Session) (id : FrameId) : Option Frame := s.frames[id]?.join

/-- The frame of that number; an empty one if there is none. -/
def frameOf (s : Session) (id : FrameId) : Frame := (s.frame? id).getD (.ofSlots [])

def updateFrame (s : Session) (id : FrameId) (f : Frame → Frame) : Session :=
  { s with frames := s.frames.modify id (Option.map f) }

def addFrame (s : Session) (f : Frame) : Session :=
  { s with frames := s.frames ++ [some f] }

def dropFrame (s : Session) (id : FrameId) : Session :=
  { s with frames := s.frames.modify id fun _ => none }

def write (s : Session) (m : Message) : Session := { s with log := s.log ++ [m] }

end Session

/-- A computation in a session that may fail. -/
abbrev InSession (ε α : Type) := ExceptT ε (StateM Session) α

/-- A computation of a traced function. -/
abbrev Tracing (α : Type) := InSession TraceError α

/-- A function that is traced: it is run once, on placeholders for its parameters. -/
abbrev TracedFunction := Params → Tracing Value

/-- Writes to the log. -/
def say (m : Message) : StateM Session Unit := modify (·.write m)

/-- A computation with its errors seen as errors of another kind. -/
def InSession.mapError {ε δ α : Type} (f : ε → δ) (x : InSession ε α) : InSession δ α :=
  ExceptT.adapt f x

/-! ## Recording -/

/-- Keeps a fact with its argument. -/
def record (arg : Argument) (fact : Fact) : Tracing Unit := do
  if ((← get).frame? arg.frame).isNone then throw (.detached arg.name)
  say (.fact arg.name fact)
  modify (·.updateFrame arg.frame (·.record arg.index fact))

/-- Keeps a complex fact in the frame of an argument. -/
def recordComplex (arg : Argument) (fact : ComplexFact) : Tracing Unit := do
  if ((← get).frame? arg.frame).isNone then throw (.detached arg.name)
  say (.complexFact fact)
  modify (·.updateFrame arg.frame (·.recordComplex fact))

/-! ## Assertions -/

/-- Asserts `l op r`. A comparison with an argument is kept with that argument, the left one first;
one of a byte with a known integer is complex; others cannot be asserted. -/
def assertComparison (op : Comparison) (l r : Expr) : Tracing Unit :=
  let complex (read : Expr) : Tracing Unit :=
    match read.root? with
    | some arg => recordComplex arg ⟨op, l, r⟩
    | none => throw (.unsupportedAssertion (.binary op l r))
  match l, r with
  -- where both sides are arguments, the fact is one about the left one
  | .argument arg, operand => record arg ⟨op, operand⟩
  | operand, .argument arg => record arg ⟨op.reverse, operand⟩
  | .byteIndex _ _, .lit _ => complex l
  | .lit _, .byteIndex _ _ => complex r
  | _, _ => throw (.unsupportedAssertion (.binary op l r))

/-- Asserts a symbolic condition: the conjuncts one after the other, from the left. -/
def assertExpr : Expr → Tracing Unit
  | .binary (.connect .and) l r => do
    -- what the left side recorded stays, even if the right side cannot be asserted
    if l.isLiteral then throw (.unsupportedAssertion (.binary Connective.and l r))
    assertExpr l
    if r.isLiteral then throw (.unsupportedAssertion (.binary Connective.and l r))
    assertExpr r
  | .binary (.compare op) l r => assertComparison op l r
  | e => throw (.unsupportedAssertion e)

/-- Asserts a condition. One that is known to hold adds nothing, one that is known to fail is an
error. -/
def assertThat : Cond → Tracing Unit
  | .known true => pure ()
  | .known false => throw .staticallyFalse
  | .symbolic e => assertExpr e

/-- Asserts conditions one after the other, up to the first that cannot be asserted. -/
def assertAll : List Cond → Tracing Unit
  | [] => pure ()
  | c :: cs => do
    assertThat c
    assertAll cs

/-- The value, once its conditions are asserted. -/
def Provided.assert {α : Type} (x : Provided α) : Tracing α := do
  assertAll x.conditions
  return x.value

instance : MonadLift Provided (ExceptT TraceError (StateM Session)) := ⟨Provided.assert⟩

/-! ## Making frames -/

/-- Makes a frame for parameters of the given types. -/
def openFrame (tys : List Ty) : Tracing FrameId := do
  let id := (← get).frames.length
  let frame := Frame.ofSlots (← Slot.layout id 0 0 tys)
  modify (·.addFrame frame)
  assertAll frame.lengthConditions
  say (.frame frame.params.length frame.arguments.length)
  return id

end GuardedC
