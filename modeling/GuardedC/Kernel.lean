import GuardedC.CFunction

/-!
# Kernels

A kernel is a traced function with its name and its types. The tool comes with a few, for
demonstration.
-/

namespace GuardedC

/-! ## Arithmetic as it is written -/

instance (n : Nat) : OfNat Expr n := ⟨.lit n⟩

instance : Add Expr := ⟨.arith .add⟩

instance : Sub Expr := ⟨.arith .sub⟩

instance : Mul Expr := ⟨.arith .mul⟩

/-! ## Kernels -/

structure Kernel where
  name : String
  params : List Ty
  returns : Ty := .void
  run : TracedFunction

/-- The C text of a kernel. -/
def Kernel.build (k : Kernel) (options : Options) : InSession BuildError String :=
  GuardedC.build options k.name k.params k.returns k.run

namespace Demo

/-- The product of two words, each four bytes with the lowest first. -/
def productLe : Kernel where
  name := "product_le"
  params := [.byteArray ⟨.w32, false⟩]
  returns := .integer ⟨.w32, false⟩
  run params := do
    let bytes ← params.bytes 0
    let a ← (← bytes.slice 0 4).read32 .little 0
    let b ← (← bytes.slice 4 8).read32 .little 0
    return .int (a * b)

/-- `(x + 2) * 10 - y * 2`. -/
def affine : Kernel where
  name := "affine"
  params := [.integer ⟨.w32, false⟩, .integer ⟨.w32, false⟩]
  returns := .integer ⟨.w32, false⟩
  run params := do
    let x ← params.int 0
    let y ← params.int 1
    return .int ((x + 2) * 10 - y * 2)

/-- Twice a byte that lies in `[10, 200)`. -/
def clampedDouble : Kernel where
  name := "clamped_double"
  params := [.integer ⟨.w8, false⟩]
  returns := .integer ⟨.w16, false⟩
  run params := do
    let x ← params.int 0
    assertThat ((x.compare .ge 10).and (x.compare .lt 200))
    return .int (x * 2)

/-- The word of two bytes at offset 2, the highest first. -/
def headerWord : Kernel where
  name := "header_word"
  params := [.byteArray ⟨.w32, false⟩]
  returns := .integer ⟨.w16, false⟩
  run params := do
    return .int (← (← params.bytes 0).read16 .big 2)

/-- The demonstrations, in the order in which they are listed. -/
def all : List Kernel := [productLe, affine, clampedDouble, headerWord]

def find? (name : String) : Option Kernel := all.find? fun k => k.name == name

end Demo

end GuardedC
