import GuardedC.Provided
import GuardedC.Value

/-!
# Reading bytes

Reads and slices of a byte sequence. Each is provided that it stays within the sequence and, where
that is a window, within the array behind it as well.
-/

namespace GuardedC

/-- Moved up by an offset; the known offset zero changes nothing. -/
def Expr.shift (e offset : Expr) : Expr := if offset = .lit 0 then e else .arith .add e offset

/-- The byte order of a word. -/
inductive ByteOrder where
  | little | big
deriving Repr, DecidableEq

namespace Bytes

/-! ## Staying inside -/

/-- `0 ≤ key < length`. -/
def keyInside (key length : Expr) : List Cond :=
  [key.compare .ge (.lit 0), key.compare .lt length]

/-- `0 ≤ start ≤ stop ≤ length`. -/
def partInside (start stop length : Expr) : List Cond :=
  [start.compare .ge (.lit 0), stop.compare .ge start, stop.compare .le length]

/-- A position of the sequence, as a position of the array. -/
def position (b : Bytes) (e : Expr) : Expr := if b.isWindow then e.shift b.start else e

/-! ## Bytes and slices -/

/-- The byte at a position of the sequence. -/
def byteAt (b : Bytes) (key : Expr) : Provided Expr where
  conditions :=
    keyInside key b.length ++
      -- an array is its own view, and need not be checked twice
      if b.isWindow then keyInside (b.position key) b.arrayLength else []
  value := .byteIndex b.base (b.position key)

/-- The bytes from `start` up to, and not including, `stop`. -/
def slice (b : Bytes) (start stop : Expr) : Provided Bytes :=
  let first := b.position start
  let last := b.position stop
  { conditions :=
      partInside start stop b.length ++
        if b.isWindow then partInside first last b.arrayLength else []
    value := b.part first (.arith .sub last first) }

/-! ## Comparing -/

/-- Adds to a condition that the bytes of the sequence from a position on are the given ones. -/
def eqBytesFrom (b : Bytes) : Nat → Cond → List UInt8 → Provided Cond
  | _, all, [] => return all
  | i, all, byte :: bytes => do
    let read ← b.byteAt (.lit i)
    b.eqBytesFrom (i + 1) (all.and (read.compare .eq (.lit byte.toNat))) bytes

/-- Whether the sequence holds these bytes, provided that it has as many. -/
def eqBytes (b : Bytes) (bytes : List UInt8) : Provided Cond := do
  ⟨[b.length.compare .eq (.lit bytes.length)], ()⟩
  b.eqBytesFrom 0 (.known true) bytes

/-! ## Words -/

/-- A word of two halves of `size` bytes each. The half of lower value is read first. -/
def readHalves (order : ByteOrder) (size : Nat) (read : Expr → Provided Expr) (offset : Expr) :
    Provided Expr := do
  let after := Expr.arith .add offset (.lit size)
  let (lowAt, highAt) := match order with
    | .little => (offset, after)
    | .big => (after, offset)
  let low ← read lowAt
  let high ← read highAt
  return .arith .bitOr low (.arith .shl high (.lit (8 * size)))

def read16 (b : Bytes) (order : ByteOrder) : Expr → Provided Expr := readHalves order 1 b.byteAt

def read32 (b : Bytes) (order : ByteOrder) : Expr → Provided Expr :=
  readHalves order 2 (b.read16 order)

def read64 (b : Bytes) (order : ByteOrder) : Expr → Provided Expr :=
  readHalves order 4 (b.read32 order)

end Bytes

end GuardedC
