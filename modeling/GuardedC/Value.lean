import GuardedC.Expr

/-!
# Values

What a traced function is given and what it hands back: integers, conditions, and views of byte
arrays. A view is always expressed against the array itself, so a slice of a slice is again one
slice.
-/

namespace GuardedC

/-! ## Views of byte arrays -/

/-- A byte sequence: a byte array, or a window onto one. -/
structure Bytes where
  /-- The array's pointer. -/
  base : Expr
  /-- The array's hidden length. -/
  arrayLength : Expr
  /-- Where the sequence begins, in the array's own coordinates. -/
  start : Expr
  length : Expr
  /-- The sequence as an expression. -/
  view : Expr
deriving Repr, DecidableEq

namespace Bytes

/-- A whole array. -/
def argument (base length : Expr) : Bytes where
  base
  arrayLength := length
  start := .lit 0
  length
  view := base

/-- A part of the array behind a sequence. -/
def part (b : Bytes) (start length : Expr) : Bytes where
  base := b.base
  arrayLength := b.arrayLength
  start
  length
  view := .byteSlice b.base start length

def expr (b : Bytes) : Expr := b.view

/-- What is seen is not the array itself; a slice of everything is a window too. -/
def isWindow (b : Bytes) : Bool := decide (b.view ≠ b.base)

end Bytes

/-! ## Parameters and results -/

/-- A declared parameter as the traced function sees it. -/
inductive Param where
  | int (value : Expr)
  | bytes (view : Bytes)
deriving Repr, DecidableEq

/-- What a traced function hands back. -/
inductive Value where
  | nothing
  | int (value : Expr)
  | bytes (view : Bytes)
  | cond (value : Cond)
deriving Repr, DecidableEq

def Param.toValue : Param → Value
  | int e => .int e
  | bytes b => .bytes b

namespace Value

/-- The kind of value, in words. -/
def kind : Value → String
  | nothing => "nothing"
  | int _ => "an integer"
  | bytes _ => "a byte array"
  | cond _ => "a condition"

/-- The value in C; nothing is written for the absence of a value. -/
def toC? : Value → Option CExpr
  | nothing => none
  | int e => some e.toC
  | bytes b => some b.expr.toC
  | cond c => some c.toC

def render (v : Value) : String := (v.toC?.map CExpr.text).getD ""

/-- The node of the expression graph behind a value, if it has one. -/
def node? : Value → Option Expr
  | int e => if e.isLiteral then none else some e
  | cond (.symbolic e) => some e
  | bytes b => some b.expr
  | _ => none

end Value

end GuardedC
