import GuardedC.CFunction
import GuardedC.Script.Step

/-!
# Scripts

Traced functions as data. Steps are run one after the other, on registers and frames; a step that
needs a register or a frame which is not there fails before it does anything. `Script.eval` stops at
the first failure, which makes a script a traced function, and `Script.compile` makes a C function
of it.
-/

namespace GuardedC.Script

/-! ## What a step can refer to -/

structure Env where
  /-- The parameters that are given, if there are any. -/
  given : Option Params := none
  registers : List (Option Value) := []
  /-- The frames that have a number. -/
  frames : List FrameId := []
deriving Repr, DecidableEq

namespace Env

/-- The environment after one more step. -/
def push (env : Env) (outcome : Except Fault Answer) : Env :=
  match outcome with
  | .ok (.value v) => { env with registers := env.registers ++ [some v] }
  | .ok (.frame _ id) =>
    { env with registers := env.registers ++ [none], frames := env.frames ++ [id] }
  | _ => { env with registers := env.registers ++ [none] }

def value (env : Env) (n : Nat) : Except Fault Value :=
  match env.registers[n]?.join with
  | some v => .ok v
  | none => .error .noRegister

def int (env : Env) : IntArg → Except Fault Expr
  | .lit v => .ok (.lit v)
  | .register n => do
    match ← env.value n with
    | .int e => return e
    | _ => throw .noRegister

def cond (env : Env) : CondArg → Except Fault Cond
  | .known b => .ok (.known b)
  | .register n => do
    match ← env.value n with
    | .cond c => return c
    | _ => throw .noRegister

def bytes (env : Env) (n : Nat) : Except Fault Bytes := do
  match ← env.value n with
  | .bytes b => return b
  | _ => throw .noRegister

def node (env : Env) (n : Nat) : Except Fault Expr := do
  match (← env.value n).node? with
  | some e => return e
  | none => throw .noRegister

/-- A numbered frame that has not been dropped. -/
def frame (env : Env) (s : Session) (number : Nat) : Except Fault Frame :=
  match env.frames[number]?.bind s.frame? with
  | some f => .ok f
  | none => .error .noRegister

def params (env : Env) (s : Session) : Source → Except Fault Params
  | .given =>
    match env.given with
    | some ps => .ok ps
    | none => .error .noRegister
  | .frame number => return (← env.frame s number).params

end Env

/-! ## Operations -/

def Read.eval : Read → Bytes → Expr → Provided Expr
  | byte, b => b.byteAt
  | word16 order, b => b.read16 order
  | word32 order, b => b.read32 order
  | word64 order, b => b.read64 order

/-- What an operation yields, and what it asserts. Of the session it needs no more than the
parameters of the frames. -/
def Op.eval (env : Env) (s : Session) : Op → Except Fault (Provided Answer)
  | int index source => do
    let params ← env.params s source
    let e ← (params.int index).mapError Fault.trace
    return pure (.value (.int e))
  | bytes index source => do
    let params ← env.params s source
    let b ← (params.bytes index).mapError Fault.trace
    return pure (.value (.bytes b))
  | param index source => do
    let params ← env.params s source
    let p ← (params.param index).mapError Fault.trace
    return pure (.value p.toValue)
  | lit v => return pure (.value (.int (.lit v)))
  | arith op lhs rhs => do
    let l ← env.int lhs
    let r ← env.int rhs
    return pure (.value (.int (.arith op l r)))
  | compare op lhs rhs => do
    let l ← env.int lhs
    let r ← env.int rhs
    return pure (.value (.cond (l.compare op r)))
  | cond arg => return pure (.value (.cond (← env.cond arg)))
  | connect op lhs rhs => do
    let l ← env.cond lhs
    let r ← env.cond rhs
    return pure (.value (.cond (.connect op l r)))
  | assert arg => return ⟨[← env.cond arg], .value .nothing⟩
  | decide arg => do
    let c ← env.cond arg
    let b ← c.decided.mapError Fault.trace
    return pure (.truth b)
  | select arg yes no => do
    let c ← env.cond arg
    let b ← c.decided.mapError Fault.trace
    let e ← env.int (if b then yes else no)
    return pure (.value (.int e))
  | length view => return pure (.value (.int (← env.bytes view).length))
  | read what view offset => do
    let b ← env.bytes view
    let e ← env.int offset
    return (.value ∘ .int) <$> what.eval b e
  | slice view start stop step => do
    let b ← env.bytes view
    let first ← env.int start
    let last ← env.int stop
    let part ← (b.sliceStep first last step).mapError Fault.trace
    return (.value ∘ .bytes) <$> part
  | eqBytes view wanted => do
    let b ← env.bytes view
    return (.value ∘ .cond) <$> b.eqBytes wanted
  | eqView lhs rhs => do
    let l ← env.bytes lhs
    let r ← env.bytes rhs
    let c ← (l.eqView r).mapError Fault.trace
    return (.value ∘ .cond) <$> c
  | asInt arg => return pure (.value (.int (← env.node arg)))
  | asCond arg => return pure (.value (.cond (.symbolic (← env.node arg))))
  | rawBinary op lhs rhs => do
    let l ← env.int lhs
    let r ← env.int rhs
    return pure (.value (.int (.binary op l r)))
  | rawIndex source key => do
    let e ← env.node source
    let k ← env.int key
    return pure (.value (.int (.byteIndex e k)))
  | rawSlice base start size => do
    let e ← env.node base
    let first ← env.int start
    let n ← env.int size
    return pure (.value (.int (.byteSlice e first n)))

/-! ## Queries -/

def Query.eval (env : Env) (s : Session) : Query → Except Fault Answer
  | params source => return .params (← env.params s source)
  | describe register => return .description (← env.value register)
  | tree arg => return .tree (← env.node arg)
  | root arg => do
    let e ← env.node arg
    return .root e.argument? e.root?
  | sameArgument lhs rhs => do
    let l ← env.node lhs
    let r ← env.node rhs
    match l.argument?, r.argument? with
    | some a, some b => return .truth (a.same b)
    | _, _ => throw .noRegister
  | arguments number => return .arguments (← env.frame s number).arguments
  | facts number owner index => do
    let f ← env.frame s number
    let g ← env.frame s owner
    match g.arguments[index]? with
    | some arg => return .facts (f.factsAt arg.index)
    | none => throw .noRegister

/-! ## Steps -/

/-- Makes a frame for types that are still to be resolved. -/
def openFrameOf (types : List TypeSpec) : InSession Fault FrameId := do
  let tys ← (types.mapM TypeSpec.resolve).mapError Fault.type
  (GuardedC.openFrame tys).mapError Fault.trace

/-- Runs a step. -/
def Step.run (env : Env) : Step → InSession Fault Answer
  | op o => do
    let result ← o.eval env (← get)
    result.assert.mapError Fault.trace
  | query q => do q.eval env (← get)
  | ranges number => do
    let f ← env.frame (← get) number
    let rows ← f.collapse.mapError Fault.range
    return .ranges rows
  | openFrame types => return .frame env.frames.length (← openFrameOf types)
  | dropFrame number =>
    match env.frames[number]? with
    | none => throw .noRegister
    | some id => do
      let wasAlive := ((← get).frame? id).isSome
      modify (·.dropFrame id)
      return .dropped wasAlive
  | foreign types index => do
    let id ← openFrameOf types
    let params := ((← get).frameOf id).params
    modify (·.dropFrame id)
    let p ← (params.param index).mapError Fault.trace
    return .value p.toValue

/-! ## Scripts as traced functions -/

/-- Runs the steps up to the first failure. -/
def run (env : Env) : List Step → InSession Fault Env
  | [] => return env
  | step :: steps => do
    let answer ← step.run env
    run (env.push (.ok answer)) steps

/-- What a script returns on the given parameters: the content of a register, or nothing. -/
def eval (steps : List Step) (result : Option Nat) (given : Params) : InSession Fault Value := do
  let env ← run { given := some given } steps
  match result with
  | none => return .nothing
  | some n => env.value n

/-- Why a script cannot be compiled. -/
inductive CompileFault where
  /-- The script asked for something that is not there. -/
  | script (fault : Fault)
  | compile (error : CompileError)
deriving Repr, DecidableEq

/-- A failure of the script counts as one of compiling where it is one of tracing. -/
def CompileFault.ofFault : Fault → CompileFault
  | .trace e => .compile (.trace e)
  | fault => .script fault

/-- The C function of a script. -/
def compile (options : Options) (name : String) (params : List Ty) (returns : Ty)
    (steps : List Step) (result : Option Nat) : InSession CompileFault CFunction :=
  compileWith .compile options name params returns fun given =>
    (eval steps result given).mapError .ofFault

inductive BuildFault where
  | compile (fault : CompileFault)
  | emit (error : EmitError)
deriving Repr, DecidableEq

/-- The C text of a script. -/
def build (options : Options) (name : String) (params : List Ty) (returns : Ty)
    (steps : List Step) (result : Option Nat) : InSession BuildFault String := do
  let f ← (compile options name params returns steps result).mapError .compile
  f.emit.mapError .emit

end GuardedC.Script
