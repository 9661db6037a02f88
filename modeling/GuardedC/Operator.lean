import GuardedC.Wide

/-!
# Operators

The binary operators of the traced language, in three families: arithmetic on integers, comparisons,
and the connectives of conditions. Each has a name, the symbol it is written with in C, and, where
both operands are known, a value.
-/

namespace GuardedC

inductive Arith where
  | add | sub | mul | div | shl | shr | bitOr | bitXor | bitAnd
deriving Repr, DecidableEq

inductive Comparison where
  | lt | gt | le | ge | eq | ne
deriving Repr, DecidableEq

inductive Connective where
  | and | or
deriving Repr, DecidableEq

inductive Operator where
  | arith (op : Arith)
  | compare (op : Comparison)
  | connect (op : Connective)
deriving Repr, DecidableEq

namespace Arith

/-- The value of an operation on known integers, if it has one. Results that do not fit and
divisions by zero have none, nor have shifts by an amount outside `[0, 128)`. A shift to the left
drops the bits that leave the word; every other value is exact. -/
def eval? : Arith → Int → Int → Option Int
  | add, a, b => Wide.checked (a + b)
  | sub, a, b => Wide.checked (a - b)
  | mul, a, b => Wide.checked (a * b)
  | div, a, b => if b = 0 then none else Wide.checked (a.tdiv b)
  | shl, a, b => if 0 ≤ b ∧ b < 128 then some (Wide.wrap (a <<< b.toNat)) else none
  | shr, a, b => if 0 ≤ b ∧ b < 128 then some (a >>> b.toNat) else none
  | bitOr, a, b => some (Wide.bits a ||| Wide.bits b).toInt
  | bitXor, a, b => some (Wide.bits a ^^^ Wide.bits b).toInt
  | bitAnd, a, b => some (Wide.bits a &&& Wide.bits b).toInt

end Arith

namespace Comparison

/-- The comparison that holds of `b` and `a` exactly when this one holds of `a` and `b`. -/
def reverse : Comparison → Comparison
  | lt => gt
  | gt => lt
  | le => ge
  | ge => le
  | eq => eq
  | ne => ne

def Holds : Comparison → Int → Int → Prop
  | lt, a, b => a < b
  | gt, a, b => b < a
  | le, a, b => a ≤ b
  | ge, a, b => b ≤ a
  | eq, a, b => a = b
  | ne, a, b => a ≠ b

instance (op : Comparison) (a b : Int) : Decidable (op.Holds a b) := by
  cases op <;> unfold Holds <;> infer_instance

theorem holds_reverse {op : Comparison} {a b : Int} : op.reverse.Holds b a ↔ op.Holds a b := by
  cases op <;> simp [reverse, Holds, eq_comm]

@[simp] theorem reverse_reverse (op : Comparison) : op.reverse.reverse = op := by
  cases op <;> rfl

end Comparison

namespace Operator

/-- The operators in the order of the table that lists them. -/
def all : List Operator :=
  [.arith .add, .arith .sub, .arith .mul, .arith .div, .arith .shl, .arith .shr, .arith .bitOr,
    .arith .bitXor, .arith .bitAnd, .compare .lt, .compare .gt, .compare .le, .compare .ge,
    .compare .eq, .compare .ne, .connect .and, .connect .or]

def name : Operator → String
  | arith .add => "add"
  | arith .sub => "sub"
  | arith .mul => "mul"
  | arith .div => "div"
  | arith .shl => "shl"
  | arith .shr => "shr"
  | arith .bitOr => "bitor"
  | arith .bitXor => "bitxor"
  | arith .bitAnd => "bitand"
  | compare .lt => "lt"
  | compare .gt => "gt"
  | compare .le => "le"
  | compare .ge => "ge"
  | compare .eq => "eq"
  | compare .ne => "ne"
  | connect .and => "and"
  | connect .or => "or"

/-- The operator as C writes it. -/
def symbol : Operator → String
  | arith .add => "+"
  | arith .sub => "-"
  | arith .mul => "*"
  | arith .div => "/"
  | arith .shl => "<<"
  | arith .shr => ">>"
  | arith .bitOr => "|"
  | arith .bitXor => "^"
  | arith .bitAnd => "&"
  | compare .lt => "<"
  | compare .gt => ">"
  | compare .le => "<="
  | compare .ge => ">="
  | compare .eq => "=="
  | compare .ne => "!="
  | connect .and => "&&"
  | connect .or => "||"

def ofName? (name : String) : Option Operator := all.find? fun op => op.name == name

/-- The comparison with its operands exchanged; other operators have none. -/
def reverse? : Operator → Option Operator
  | compare op => some (compare op.reverse)
  | _ => none

def isComparison (op : Operator) : Bool := op.reverse?.isSome

def isConnective : Operator → Bool
  | connect _ => true
  | _ => false

/-- `(a op b)`. -/
def parenthesize (op : Operator) (a b : String) : String := "(" ++ a ++ " " ++ op.symbol ++ " " ++ b ++ ")"

/-- The operands chained from the left, `((a op b) op c)`; a single one stands as it is. -/
def chain? (op : Operator) : List String → Option String
  | [] => none
  | part :: parts => some (parts.foldl op.parenthesize part)

end Operator

instance : Coe Arith Operator := ⟨.arith⟩

instance : Coe Comparison Operator := ⟨.compare⟩

instance : Coe Connective Operator := ⟨.connect⟩

/-- The operator as C writes it. -/
def Comparison.symbol (op : Comparison) : String := Operator.symbol op

end GuardedC
