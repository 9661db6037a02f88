import GuardedC.ArgumentRange

/-!
# Steps of a script

A script is a list of steps; step `n` owns register `n`, which later steps may use. An operation
computes a value from registers and parameters, a query looks at values and frames, and the other
steps make frames and drop them.
-/

namespace GuardedC.Script

/-! ## Operands -/

/-- An integer: known, or in a register. -/
inductive IntArg where
  | lit (value : Int)
  | register (n : Nat)
deriving Repr, DecidableEq

/-- A condition: known, or in a register. -/
inductive CondArg where
  | known (value : Bool)
  | register (n : Nat)
deriving Repr, DecidableEq

/-- Whose parameters are meant: those given to the script, or those of a numbered frame. -/
inductive Source where
  | given
  | frame (number : Nat)
deriving Repr, DecidableEq

/-- What is read from a byte view. -/
inductive Read where
  | byte
  | word16 (order : ByteOrder)
  | word32 (order : ByteOrder)
  | word64 (order : ByteOrder)
deriving Repr, DecidableEq

/-! ## Operations -/

inductive Op where
  /-- A parameter that must be an integer. -/
  | int (index : Nat) (source : Source)
  /-- A parameter that must be a byte array. -/
  | bytes (index : Nat) (source : Source)
  /-- A parameter of any kind. -/
  | param (index : Nat) (source : Source)
  | lit (value : Int)
  | arith (op : Arith) (lhs rhs : IntArg)
  | compare (op : Comparison) (lhs rhs : IntArg)
  | cond (value : CondArg)
  | connect (op : Connective) (lhs rhs : CondArg)
  | assert (condition : CondArg)
  /-- The truth value of a condition that is known. -/
  | decide (condition : CondArg)
  /-- One of two integers, by a condition that is known; the other is not looked at. -/
  | select (condition : CondArg) (yes no : IntArg)
  | length (view : Nat)
  | read (what : Read) (view : Nat) (offset : IntArg)
  | slice (view : Nat) (start stop : IntArg) (step : Int)
  | eqBytes (view : Nat) (bytes : List UInt8)
  | eqView (lhs rhs : Nat)
  /-- The node behind a value, taken for an integer. -/
  | asInt (node : Nat)
  /-- The node behind a value, taken for a condition. -/
  | asCond (node : Nat)
  /-- A node made by hand: nothing is computed. -/
  | rawBinary (op : Operator) (lhs rhs : IntArg)
  /-- A node made by hand: nothing is checked. -/
  | rawIndex (source : Nat) (key : IntArg)
  /-- A node made by hand: nothing is checked. -/
  | rawSlice (base : Nat) (start length : IntArg)
deriving Repr, DecidableEq

/-! ## Queries -/

inductive Query where
  | params (source : Source)
  | describe (register : Nat)
  | tree (node : Nat)
  | root (node : Nat)
  | sameArgument (lhs rhs : Nat)
  | arguments (frame : Nat)
  /-- What the first frame keeps for the position of an argument of the second. -/
  | facts (frame owner index : Nat)
deriving Repr, DecidableEq

/-! ## Steps -/

inductive Step where
  | op (op : Op)
  | query (query : Query)
  /-- The ranges of a frame's arguments, as its facts leave them. -/
  | ranges (frame : Nat)
  /-- Makes a frame and gives it the next number. -/
  | openFrame (types : List TypeSpec)
  | dropFrame (number : Nat)
  /-- A parameter of a frame that is dropped at once. -/
  | foreign (types : List TypeSpec) (index : Nat)
deriving Repr, DecidableEq

/-! ## Outcomes -/

/-- Why a step fails. -/
inductive Fault where
  /-- A register or frame is missing, or holds something else. -/
  | noRegister
  | type (error : TypeError)
  | trace (error : TraceError)
  | range (error : RangeError)
deriving Repr, DecidableEq

/-- What a step yields. -/
inductive Answer where
  /-- A value, for the step's register. -/
  | value (v : Value)
  | truth (b : Bool)
  | params (ps : Params)
  | description (v : Value)
  | tree (e : Expr)
  /-- The argument a node is, and the argument it reads from. -/
  | root (itself source : Option Argument)
  | frame (number : Nat) (id : FrameId)
  | dropped (wasAlive : Bool)
  | arguments (args : List Argument)
  | facts (fs : List Fact)
  | ranges (rows : List ArgumentRange)
deriving Repr, DecidableEq

end GuardedC.Script
