import GuardedC.CExpr
import GuardedC.Ty

/-!
# Expressions

What a traced function computes with: integers known while tracing, parameters, operations, and
bytes read through a pointer. An expression is written in C by `Expr.toC`.
-/

namespace GuardedC

/-! ## Arguments -/

/-- Frames are numbered in the order in which they are made. -/
abbrev FrameId := Nat

/-- A parameter of a generated function, hidden lengths included. -/
structure Argument where
  /-- Position among all arguments of its frame. -/
  index : Nat
  name : String
  ty : Ty
  /-- The frame that made it, and that keeps what is asserted about it. -/
  frame : FrameId
deriving Repr, DecidableEq

namespace Argument

/-- Arguments are identified by their frame and their position in it. -/
def same (a b : Argument) : Bool := a.index == b.index && a.frame == b.frame

/-- The parameter as C declares it. -/
def declaration (a : Argument) : String := a.ty.declare a.name

/-- The text that shows an argument's fields, for debugging. -/
def inspect (a : Argument) : String :=
  let integer (t : IntegerType) := s!"IntegerType \x7b bits: {t.bits}, signed: {t.signed} \x7d"
  let ty := match a.ty with
    | .integer t => "Integer(" ++ integer t ++ ")"
    | .byteArray length => "ByteArray \x7b length: " ++ integer length ++ " \x7d"
    | .void => "Void"
  s!"Argument \x7b index: {a.index}, name: \"{a.name}\", ty: {ty} \x7d"

end Argument

/-! ## Expressions -/

inductive Expr where
  | lit (value : Int)
  | argument (arg : Argument)
  /-- The operands stand in the order in which the traced code wrote them. -/
  | binary (op : Operator) (lhs rhs : Expr)
  /-- The byte at offset `key` of `source`. -/
  | byteIndex (source key : Expr)
  /-- The `length` bytes of `base` from `start` on. -/
  | byteSlice (base start length : Expr)
deriving Repr, DecidableEq

namespace Expr

/-- The value, if it is known while tracing. -/
def literal? : Expr → Option Int
  | lit v => some v
  | _ => none

def isLiteral (e : Expr) : Bool := e.literal?.isSome

def argument? : Expr → Option Argument
  | argument a => some a
  | _ => none

/-- The argument an expression reads from first: the left operand goes before the right one, and
bytes lead to their source. -/
def root? : Expr → Option Argument
  | lit _ => none
  | argument a => some a
  | binary _ l r => l.root? <|> r.root?
  | byteIndex source _ => source.root?
  | byteSlice base _ _ => base.root?

/-- An expression in C. Every operation stands in parentheses; a slice is a pointer to its first
byte. -/
def toC : Expr → CExpr
  | lit v => .ofInt v
  | argument a => .name a.name
  | binary op l r => .parenthesized op l.toC r.toC
  | byteIndex source key => .paren (.index source.toC key.toC)
  | byteSlice base start _ =>
    -- nothing is added to a pointer for the known offset zero
    if start = lit 0 then base.toC else .parenthesized Arith.add base.toC start.toC

def render (e : Expr) : String := e.toC.text

/-! ## Operations -/

/-- An operation on integers, carried out at once if both are known and it has a value. -/
def arith (op : Arith) (l r : Expr) : Expr :=
  match l.literal?, r.literal? with
  | some a, some b => ((op.eval? a b).map lit).getD (binary op l r)
  | _, _ => binary op l r

end Expr

/-! ## Conditions -/

/-- The outcome of a comparison: known while tracing, or only when the generated function runs. -/
inductive Cond where
  | known (value : Bool)
  | symbolic (expr : Expr)
deriving Repr, DecidableEq

/-- A comparison of integers, decided at once if both are known. -/
def Expr.compare (op : Comparison) (l r : Expr) : Cond :=
  match l.literal?, r.literal? with
  | some a, some b => .known (decide (op.Holds a b))
  | _, _ => .symbolic (.binary op l r)

namespace Cond

def known? : Cond → Option Bool
  | known b => some b
  | symbolic _ => none

/-- A known condition decides the conjunction or leaves it to the other. -/
def and : Cond → Cond → Cond
  | known false, _ => known false
  | _, known false => known false
  | known true, c => c
  | c, known true => c
  | symbolic a, symbolic b => symbolic (.binary Connective.and a b)

/-- A known condition decides the disjunction or leaves it to the other. -/
def or : Cond → Cond → Cond
  | known true, _ => known true
  | _, known true => known true
  | known false, c => c
  | c, known false => c
  | symbolic a, symbolic b => symbolic (.binary Connective.or a b)

def connect : Connective → Cond → Cond → Cond
  | .and => and
  | .or => or

def toC : Cond → CExpr
  | known b => .constant (if b then 1 else 0) false
  | symbolic e => e.toC

def render (c : Cond) : String := c.toC.text

end Cond

end GuardedC
