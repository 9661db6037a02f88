import GuardedC.IntSet

/-!
# Types

The types of parameters and results: integers of a fixed width, byte arrays whose length travels as
an integer of its own, and the absence of a value.
-/

namespace GuardedC

/-! ## Why a type is refused -/

inductive TypeError where
  | unsupportedWidth (bits : Nat)
  | signedLength
  | unknown (name : String)
deriving Repr, DecidableEq

def TypeError.diagnostic : TypeError → Diagnostic
  | .unsupportedWidth bits =>
    { message := s!"unsupported integer width: {bits} bits"
      code := some "sya::ir"
      help := some "supported widths are 8, 16, 32 and 64" }
  | .signedLength =>
    { message := "byte array length type must be unsigned"
      code := some "sya::ir"
      help := none }
  | .unknown name =>
    { message := s!"unknown type `{name}`"
      code := some "sya::ir"
      help := some "expected one of u8, s8, u16, s16, u32, s32, u64, s64, binary, void" }

/-! ## Integer types -/

inductive Width where
  | w8 | w16 | w32 | w64
deriving Repr, DecidableEq

def Width.bits : Width → Nat
  | w8 => 8
  | w16 => 16
  | w32 => 32
  | w64 => 64

/-- How many values a width has room for, `2 ^ bits`. -/
def Width.count : Width → Int
  | w8 => 256
  | w16 => 65536
  | w32 => 4294967296
  | w64 => 18446744073709551616

structure IntegerType where
  width : Width
  signed : Bool
deriving Repr, DecidableEq

namespace IntegerType

def ofBits (bits : Nat) (signed : Bool) : Except TypeError IntegerType :=
  match bits with
  | 8 => .ok ⟨.w8, signed⟩
  | 16 => .ok ⟨.w16, signed⟩
  | 32 => .ok ⟨.w32, signed⟩
  | 64 => .ok ⟨.w64, signed⟩
  | _ => .error (.unsupportedWidth bits)

def bits (t : IntegerType) : Nat := t.width.bits

/-- The least value of the type. -/
def low (t : IntegerType) : Int := if t.signed then -(t.width.count / 2) else 0

/-- The integer after the greatest value of the type. -/
def high (t : IntegerType) : Int := if t.signed then t.width.count / 2 else t.width.count

/-- All values of the type. -/
def values (t : IntegerType) : IntSet := .range t.low t.high

/-- The type as C names it, such as `uint8_t`. -/
def cName (t : IntegerType) : String := (if t.signed then "int" else "uint") ++ s!"{t.bits}_t"

/-- The short name, such as `u8` or `s64`. -/
def text (t : IntegerType) : String := (if t.signed then "s" else "u") ++ toString t.bits

end IntegerType

/-! ## All types -/

inductive Ty where
  | integer (type : IntegerType)
  /-- A pointer to bytes; their number is passed as a value of type `length`. -/
  | byteArray (length : IntegerType)
  | void
deriving Repr, DecidableEq

namespace Ty

/-- Byte arrays are counted by unsigned integers only. -/
def byteArrayOf (length : IntegerType) : Except TypeError Ty :=
  if length.signed then .error .signedLength else .ok (byteArray length)

def integer? : Ty → Option IntegerType
  | integer t => some t
  | _ => none

def isVoid : Ty → Bool
  | void => true
  | _ => false

/-- All values of an integer type; other types are not ranges. -/
def values? (t : Ty) : Option IntSet := t.integer?.map IntegerType.values

/-- The type as it stands before a declared name. -/
def cName : Ty → String
  | integer t => t.cName
  | byteArray _ => "uint8_t *"
  | void => "void"

/-- The declaration of a name; the star of a pointer stands next to it. -/
def declare (t : Ty) (name : String) : String :=
  match t with
  | byteArray _ => "uint8_t *" ++ name
  | t => t.cName ++ " " ++ name

/-- The short name. The length type of a byte array is shown unless it is `u32`. -/
def text : Ty → String
  | integer t => t.text
  | byteArray length => if length = ⟨.w32, false⟩ then "binary" else s!"binary<{length.text}>"
  | void => "void"

/-- The types that have a name of their own. -/
def catalog : List (String × Ty) :=
  [("u8", integer ⟨.w8, false⟩), ("s8", integer ⟨.w8, true⟩),
    ("u16", integer ⟨.w16, false⟩), ("s16", integer ⟨.w16, true⟩),
    ("u32", integer ⟨.w32, false⟩), ("s32", integer ⟨.w32, true⟩),
    ("u64", integer ⟨.w64, false⟩), ("s64", integer ⟨.w64, true⟩),
    ("binary", byteArray ⟨.w32, false⟩), ("void", void)]

def ofName (name : String) : Except TypeError Ty :=
  match catalog.lookup name with
  | some t => .ok t
  | none => .error (.unknown name)

end Ty

/-! ## Types as they are asked for -/

/-- A description of a type that may turn out to name none. -/
inductive TypeSpec where
  | named (name : String)
  | integer (bits : Nat) (signed : Bool)
  | byteArray (bits : Nat) (signed : Bool)
  /-- A byte array whose length type is left unexamined. -/
  | uncheckedByteArray (bits : Nat) (signed : Bool)
deriving Repr, DecidableEq

def TypeSpec.resolve : TypeSpec → Except TypeError Ty
  | named name => Ty.ofName name
  | integer bits signed => return .integer (← IntegerType.ofBits bits signed)
  | byteArray bits signed => do Ty.byteArrayOf (← IntegerType.ofBits bits signed)
  | uncheckedByteArray bits signed => return .byteArray (← IntegerType.ofBits bits signed)

end GuardedC
