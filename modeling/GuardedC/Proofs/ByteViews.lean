import GuardedC.Bytes.Read

/-!
# Arrays and windows

The five fields of a byte sequence may be anything, but those that traced code gets hold of belong
together (`Bytes.Consistent`): so they do in a whole array (`consistent_array`), and in every slice
of a sequence in which they do (`Consistent.slice`).

A consistent sequence is a window, and its view is the slice of the array with its bounds, or it is
the array itself (`Consistent.start_of_array`, `Consistent.length_of_array`). Then it is checked
against its own length only, and against the length of the array otherwise (`conditions_*`).
-/

namespace GuardedC

instance : Inhabited Argument := ⟨⟨0, "", .void, 0⟩⟩

namespace Bytes

/-- The whole array that two arguments stand for. -/
abbrev array (data size : Argument) : Bytes := argument (.argument data) (.argument size)

/-- The argument that is the array's pointer. -/
def source (b : Bytes) : Argument := b.base.argument?.getD default

/-- The argument that is the array's hidden length. -/
def sourceLength (b : Bytes) : Argument := b.arrayLength.argument?.getD default

/-- The fields belong together: the array and its length are arguments, and what is seen is the
whole array, or else the slice of the array that has these bounds. -/
structure Consistent (b : Bytes) : Prop where
  base : b.base = .argument b.source
  arrayLength : b.arrayLength = .argument b.sourceLength
  shape : b.view = b.base ∧ b.start = .lit 0 ∧ b.length = b.arrayLength ∨
    b.view = .byteSlice b.base b.start b.length

section

variable (data size : Argument)

@[simp] theorem source_array : (array data size).source = data := rfl

@[simp] theorem isWindow_array : (array data size).isWindow = false :=
  decide_eq_false (not_not_intro rfl)

theorem consistent_array : (array data size).Consistent := ⟨rfl, rfl, .inl ⟨rfl, rfl, rfl⟩⟩

end

variable {b : Bytes}

/-! ## Windows -/

section

variable (h : b.isWindow = true)

include h

theorem position_of_window (e : Expr) : b.position e = e.shift b.start := if_pos h

/-- A window is checked, and so is the array behind it. -/
theorem conditions_byteAt_of_window (key : Expr) :
    (b.byteAt key).conditions =
      keyInside key b.length ++ keyInside (b.position key) b.arrayLength := by
  simp [byteAt, h]

theorem conditions_slice_of_window (start stop : Expr) :
    (b.slice start stop).conditions =
      partInside start stop b.length ++
        partInside (b.position start) (b.position stop) b.arrayLength := by
  simp [slice, h]

end

theorem position_of_array (h : b.isWindow = false) (e : Expr) : b.position e = e := by
  simp [position, h]

namespace Consistent

variable (hb : b.Consistent)

include hb

theorem part (start length : Expr) : (b.part start length).Consistent :=
  ⟨hb.base, hb.arrayLength, .inr rfl⟩

theorem slice (start stop : Expr) : (b.slice start stop).value.Consistent := hb.part _ _

theorem view_of_window (h : b.isWindow = true) : b.view = .byteSlice b.base b.start b.length := by
  have hview : b.view ≠ b.base := of_decide_eq_true h
  exact hb.shape.resolve_left fun hwhole => hview hwhole.1

theorem value_byteAt (key : Expr) :
    (b.byteAt key).value = .byteIndex (.argument b.source) (b.position key) := by
  rw [← hb.base]
  rfl

/-! ## Arrays -/

section

variable (h : b.isWindow = false)

include h

theorem whole_of_array : b.view = b.base ∧ b.start = .lit 0 ∧ b.length = b.arrayLength := by
  have hview : b.view = b.base := by simpa [isWindow] using h
  rcases hb.shape with hwhole | hpart
  · exact hwhole
  · -- an array is no slice of itself
    rw [hpart, hb.base] at hview
    cases hview

theorem start_of_array : b.start = .lit 0 := (hb.whole_of_array h).2.1

theorem length_of_array : b.length = .argument b.sourceLength :=
  (hb.whole_of_array h).2.2.trans hb.arrayLength

/-- An array is checked once. -/
theorem conditions_byteAt_of_array (key : Expr) :
    (b.byteAt key).conditions = keyInside key b.arrayLength := by
  simp [byteAt, h, (hb.whole_of_array h).2.2]

theorem conditions_slice_of_array (start stop : Expr) :
    (b.slice start stop).conditions = partInside start stop b.arrayLength := by
  simp [Bytes.slice, h, (hb.whole_of_array h).2.2]

end

end Consistent

end Bytes

end GuardedC
