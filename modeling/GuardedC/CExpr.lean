import GuardedC.Operator

/-!
# C expressions

The expressions of C that generated functions are made of, as concrete syntax: parentheses are nodes
of the tree, so the text of an expression is the concatenation of the texts of its parts.
-/

namespace GuardedC

inductive CExpr where
  | name (id : String)
  /-- A decimal constant, `unsigned long long` if marked so. -/
  | constant (value : Nat) (ull : Bool)
  | negate (operand : CExpr)
  | binary (op : Operator) (lhs rhs : CExpr)
  | index (array key : CExpr)
  | paren (inner : CExpr)
deriving Repr, DecidableEq

namespace CExpr

def text : CExpr → String
  | name id => id
  | constant value ull => toString value ++ (if ull then "ULL" else "")
  | negate e => "-" ++ e.text
  | binary op l r => l.text ++ " " ++ op.symbol ++ " " ++ r.text
  | index a k => a.text ++ "[" ++ k.text ++ "]"
  | paren e => "(" ++ e.text ++ ")"

/-- The greatest value of C's widest signed type. -/
def longMax : Nat := 9223372036854775807

/-- An integer as a constant expression. Above the widest signed type it is marked unsigned; the
least value of that type is no constant negated, and is written as a difference. -/
def ofInt (v : Int) : CExpr :=
  if v > longMax then constant v.toNat true
  else if v = -longMax - 1 then
    paren (binary Arith.sub (negate (constant longMax false)) (constant 1 false))
  else if v < 0 then negate (constant v.natAbs false)
  else constant v.toNat false

/-- `(l op r)`. -/
def parenthesized (op : Operator) (l r : CExpr) : CExpr := paren (binary op l r)

/-- The operands chained from the left, `((a op b) op c)`; a single one stands as it is. -/
def chain? (op : Operator) : List CExpr → Option CExpr
  | [] => none
  | e :: es => some (es.foldl (parenthesized op) e)

theorem text_parenthesized (op : Operator) (l r : CExpr) :
    (parenthesized op l r).text = op.parenthesize l.text r.text := by
  simp [parenthesized, text, Operator.parenthesize, String.append_assoc]

end CExpr

end GuardedC
