import GuardedC.ArgumentRange

/-!
# C functions

A traced function ready to be printed: a signature, the guard that is checked first, the routine
that is called when the guard fails, and one final statement. `compile` traces a function into this
form, and `CFunction.text` prints it.
-/

namespace GuardedC

/-! ## Options -/

structure Options where
  /-- What the names of generated functions begin with. -/
  namePrefix : String := "sya_"
  /-- The routine that a failing guard calls; it must not return. -/
  abortRoutine : String := "abort_assert_fail"
deriving Repr, DecidableEq

/-- The header that declares what every generated function relies on. -/
def Options.header (o : Options) : String :=
  "#pragma once\n#include <stdint.h>\n\n"
    ++ "// Called when a generated function's guard fails. Must not return.\n"
    ++ s!"void {o.abortRoutine}(void);\n"

/-! ## The functions -/

/-- The final statement. -/
inductive Body where
  | result (expr : String)
  /-- An expression evaluated for nothing. -/
  | evaluate (expr : String)
  | empty
deriving Repr, DecidableEq

structure CFunction where
  name : String
  returns : Ty
  /-- The declarations of the parameters, hidden lengths included. -/
  arguments : List String
  guard : String
  abortRoutine : String
  body : Body
deriving Repr, DecidableEq

/-! ## Compiling -/

inductive CompileError where
  | trace (error : TraceError)
  | range (error : RangeError)
  | complexAssertions (count : Nat) (first : ComplexFact)
  | returnMismatch (expected : Ty) (found : Value)
  | missingReturnValue (expected : Ty)
deriving Repr, DecidableEq

def CompileError.diagnostic : CompileError → Diagnostic
  | .trace e => e.diagnostic
  | .range e => e.diagnostic
  | .complexAssertions count first =>
    { message := s!"{count} complex assertion(s) cannot be checked, first: `{first.render}`"
      code := some "sya::compile"
      help := some "constraints spanning several arguments or byte contents are not supported" }
  | .returnMismatch expected found =>
    { message := s!"function returns {expected.text} but the traced value is {found.kind}"
      code := some "sya::compile"
      help := none }
  | .missingReturnValue expected =>
    { message := s!"function returns {expected.text} but the traced function produced no value"
      code := some "sya::compile"
      help := none }

/-- The statement that hands back a value. Without a result type any value is evaluated and dropped;
integers and conditions are returned as integers, byte views as pointers. -/
def Body.ofValue (returns : Ty) (value : Value) : Except CompileError Body :=
  match returns, value with
  | .void, .nothing => .ok .empty
  | .void, v => .ok (.evaluate v.render)
  | ty, .nothing => .error (.missingReturnValue ty)
  | .integer _, .int e => .ok (.result e.render)
  | .integer _, .cond c => .ok (.result c.render)
  | .byteArray _, .bytes b => .ok (.result b.expr.render)
  | ty, v => .error (.returnMismatch ty v)

/-- The C function for a frame whose trace ended with a value. What cannot be checked in the guard
is an error, never left out. -/
def Frame.toCFunction (f : Frame) (options : Options) (name : String) (returns : Ty) (value : Value) :
    InSession CompileError CFunction := do
  let rows ← f.collapse.mapError .range
  -- conditions on the content of arrays are known, but no guard can check them
  if let first :: _ := f.complex then throw (.complexAssertions f.complex.length first)
  let guard := (ArgumentRange.guard rows).text
  say (.guarded name guard)
  let body ← Body.ofValue returns value
  return {
    name := options.namePrefix ++ name
    returns
    arguments := f.arguments.map Argument.declaration
    guard
    abortRoutine := options.abortRoutine
    body }

/-- Runs a function once on placeholders for its parameters and makes a C function of what it did.
The function may fail for reasons of its own, among which `embed` finds those of compiling. -/
def compileWith {ε : Type} (embed : CompileError → ε) (options : Options) (name : String)
    (params : List Ty) (returns : Ty) (run : Params → InSession ε Value) : InSession ε CFunction := do
  say (.compiling name params.length)
  let id ← (openFrame params).mapError (embed ∘ .trace)
  let value ← run ((← get).frameOf id).params
  let frame := (← get).frameOf id
  (frame.toCFunction options name returns value).mapError embed

/-- Traces a function into a C function. -/
def compile (options : Options) (name : String) (params : List Ty) (returns : Ty)
    (run : TracedFunction) : InSession CompileError CFunction :=
  compileWith id options name params returns fun given => (run given).mapError .trace

/-! ## Printing -/

/-- Which of the two names of a function is malformed. -/
inductive NameRole where
  | function | abortRoutine
deriving Repr, DecidableEq

def NameRole.text : NameRole → String
  | function => "function name"
  | abortRoutine => "abort routine"

/-- A name that is no C identifier. -/
structure EmitError where
  role : NameRole
  name : String
deriving Repr, DecidableEq

def EmitError.diagnostic (e : EmitError) : Diagnostic where
  message := s!"C backend error: {e.role.text} `{e.name}` is not a valid C identifier"
  code := some "sya::backend_c"
  help := none

/-- A letter or underscore, followed by letters, digits and underscores. -/
def isIdentifier (name : String) : Bool :=
  match name.toList with
  | [] => false
  | c :: cs => (c == '_' || c.isAlpha) && cs.all fun c => c == '_' || c.isAlphanum

def checkIdentifier (role : NameRole) (name : String) : Except EmitError Unit :=
  if isIdentifier name then .ok () else .error ⟨role, name⟩

namespace CFunction

/-- The signature. -/
def prototype (f : CFunction) : Except EmitError String := do
  checkIdentifier .function f.name
  checkIdentifier .abortRoutine f.abortRoutine
  let arguments := if f.arguments.isEmpty then "void" else ", ".intercalate f.arguments
  return f.returns.declare f.name ++ "(" ++ arguments ++ ")"

/-- The guard as a statement. -/
def guardText (f : CFunction) : String :=
  "    if (!(" ++ f.guard ++ ")) \x7b\n        " ++ f.abortRoutine ++ "();\n    \x7d\n"

def bodyText (f : CFunction) : String :=
  match f.body with
  | .result expr => "    return " ++ expr ++ ";\n"
  | .evaluate expr => "    " ++ expr ++ ";\n"
  | .empty => ""

/-- The whole function. -/
def text (f : CFunction) : Except EmitError String := do
  let prototype ← f.prototype
  return prototype ++ " \x7b\n" ++ f.guardText ++ f.bodyText ++ "\x7d\n"

/-- The whole function, with its log. -/
def emit (f : CFunction) : InSession EmitError String := do
  let text ← f.text
  say (.emitted f.name text.utf8ByteSize)
  return text

end CFunction

/-! ## From traced functions to text -/

inductive BuildError where
  | compile (error : CompileError)
  | emit (error : EmitError)
deriving Repr, DecidableEq

def BuildError.diagnostic : BuildError → Diagnostic
  | .compile e => e.diagnostic
  | .emit e => e.diagnostic

/-- The C text of a traced function. -/
def build (options : Options) (name : String) (params : List Ty) (returns : Ty)
    (run : TracedFunction) : InSession BuildError String := do
  let f ← (compile options name params returns run).mapError .compile
  f.emit.mapError .emit

end GuardedC
