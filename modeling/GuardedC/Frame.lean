import GuardedC.Bytes.Read

/-!
# Frames

A frame holds the arguments of one function under construction and what has been asserted about
them. It is laid out from the declared types: parameter `i` is called `arg_i`, and a byte array is
followed by its hidden length, `arg_i_len`.
-/

namespace GuardedC

/-! ## Why a trace fails -/

/-- What a parameter was taken for. -/
inductive ParamKind where
  | integer | byteArray
deriving Repr, DecidableEq

def ParamKind.text : ParamKind → String
  | integer => "an integer"
  | byteArray => "a byte array"

inductive TraceError where
  | staticallyFalse
  | sliceStep (step : Int)
  | symbolicBool
  | unsupportedAssertion (condition : Expr)
  | symbolicByteComparison
  | voidParameter (index : Nat)
  | wrongKind (index : Nat) (expected : ParamKind)
  | noParameter (index : Nat)
  | type (error : TypeError)
  /-- The argument's frame is gone. -/
  | detached (name : String)
deriving Repr, DecidableEq

namespace TraceError

def message : TraceError → String
  | staticallyFalse => "runtime assertion is known to be false at compile time"
  | sliceStep step => s!"slice step {step} is unsupported; only unit steps are"
  | symbolicBool => "a symbolic condition cannot be used as a native boolean"
  | unsupportedAssertion condition => s!"cannot assert `{condition.render}`"
  | symbolicByteComparison => "comparing two symbolic byte sequences is not supported"
  | voidParameter index => s!"parameter {index} is void"
  | wrongKind index expected => s!"parameter {index} is not {expected.text}"
  | noParameter index => s!"no parameter at index {index}"
  | type e => e.diagnostic.message
  | detached name => s!"argument `{name}` outlived the trace that created it"

def help : TraceError → Option String
  | symbolicBool =>
    some <| "control flow may not depend on values only known when the generated function runs; "
      ++ "assert the condition instead"
  | unsupportedAssertion _ =>
    some "only comparisons between an argument and a literal, joined by `&&`, can be asserted"
  | type e => e.diagnostic.help
  | _ => none

def diagnostic (e : TraceError) : Diagnostic where
  message := e.message
  code := match e with
    | type e => e.diagnostic.code
    | _ => some "sya::trace"
  help := e.help

end TraceError

/-! ## Parameters -/

/-- The parameters a traced function is given, in the order of their declaration. -/
abbrev Params := List Param

namespace Params

def param (ps : Params) (index : Nat) : Except TraceError Param :=
  match ps[index]? with
  | some p => .ok p
  | none => .error (.noParameter index)

def int (ps : Params) (index : Nat) : Except TraceError Expr := do
  match ← ps.param index with
  | .int e => return e
  | .bytes _ => throw (.wrongKind index .integer)

def bytes (ps : Params) (index : Nat) : Except TraceError Bytes := do
  match ← ps.param index with
  | .bytes b => return b
  | .int _ => throw (.wrongKind index .byteArray)

end Params

/-! ## What needs no frame -/

/-- The truth value that traced code may branch on. -/
def Cond.decided (c : Cond) : Except TraceError Bool :=
  match c.known? with
  | some b => .ok b
  | none => .error .symbolicBool

/-- A slice that takes every `step`-th byte, for the one step there is. -/
def Bytes.sliceStep (b : Bytes) (start stop : Expr) (step : Int) :
    Except TraceError (Provided Bytes) :=
  if step = 1 then .ok (b.slice start stop) else .error (.sliceStep step)

/-- Two views cannot be compared. -/
def Bytes.eqView (_ _ : Bytes) : Except TraceError (Provided Cond) :=
  .error .symbolicByteComparison

/-! ## Facts -/

/-- `argument op operand`, kept with the argument. -/
structure Fact where
  op : Comparison
  operand : Expr
deriving Repr, DecidableEq

/-- An asserted comparison that is no bound on one argument, such as one of a byte's value. -/
structure ComplexFact where
  op : Comparison
  lhs : Expr
  rhs : Expr
deriving Repr, DecidableEq

/-- The comparison as an expression. -/
def ComplexFact.expr (f : ComplexFact) : Expr := .binary f.op f.lhs f.rhs

def ComplexFact.render (f : ComplexFact) : String := f.expr.render

/-! ## Layout -/

/-- One declared parameter: the arguments it takes up and the value that stands for it. -/
structure Slot where
  arguments : List Argument
  param : Param
deriving Repr, DecidableEq

/-- The slot of the parameter at `position`, whose first argument has the given index. -/
def Slot.ofTy (frame : FrameId) (position index : Nat) (ty : Ty) : Except TraceError Slot :=
  let name := s!"arg_{position}"
  match ty with
  | .integer _ =>
    let arg : Argument := ⟨index, name, ty, frame⟩
    .ok ⟨[arg], .int (.argument arg)⟩
  | .byteArray length =>
    if length.signed then .error (.type .signedLength)
    else
      let data : Argument := ⟨index, name, ty, frame⟩
      let size : Argument := ⟨index + 1, name ++ "_len", .integer length, frame⟩
      .ok ⟨[data, size], .bytes (.argument (.argument data) (.argument size))⟩
  | .void => .error (.voidParameter position)

/-- The slots of a parameter list, where the first parameter has the given position and index. -/
def Slot.layout (frame : FrameId) : (position index : Nat) → List Ty → Except TraceError (List Slot)
  | _, _, [] => .ok []
  | position, index, ty :: tys => do
    let slot ← Slot.ofTy frame position index ty
    let slots ← layout frame (position + 1) (index + slot.arguments.length) tys
    return slot :: slots

/-! ## Frames -/

structure Frame where
  /-- All arguments in the order of the signature, hidden lengths included. -/
  arguments : List Argument
  /-- The declared parameters. -/
  params : Params
  /-- For each argument, what was asserted about it, in order. -/
  facts : List (List Fact)
  complex : List ComplexFact
deriving Repr, DecidableEq

namespace Frame

/-- A frame about which nothing has been asserted yet. -/
def ofSlots (slots : List Slot) : Frame :=
  let arguments := slots.flatMap Slot.arguments
  { arguments
    params := slots.map Slot.param
    facts := arguments.map fun _ => []
    complex := [] }

/-- No byte array has a negative length. -/
def lengthConditions (f : Frame) : List Cond :=
  f.params.filterMap fun
    | .bytes b => some (b.length.compare .ge (.lit 0))
    | .int _ => none

/-- The facts kept for the argument at a position. -/
def factsAt (f : Frame) (index : Nat) : List Fact := f.facts[index]?.getD []

/-- Keeps a fact for the argument at a position. A table that does not reach that far is extended by
empty lists. -/
def record (f : Frame) (index : Nat) (fact : Fact) : Frame :=
  let table := f.facts ++ List.replicate (index + 1 - f.facts.length) []
  { f with facts := table.modify index (· ++ [fact]) }

def recordComplex (f : Frame) (fact : ComplexFact) : Frame :=
  { f with complex := f.complex ++ [fact] }

end Frame

end GuardedC
