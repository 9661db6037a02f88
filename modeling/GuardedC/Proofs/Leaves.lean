import GuardedC.Proofs.Layout
import GuardedC.Proofs.Meaning
import GuardedC.Proofs.Registers

/-!
# Arguments in values

`Expr.Over P` says that all arguments in an expression have a property. Operations bring in no
arguments, so whatever holds of the arguments that they are applied to holds of the arguments in
what they yield: `closed_over` for checked operations, `closedRaw_over` for nodes made by hand.
-/

namespace GuardedC

/-- All arguments in the expression have the property. -/
def Expr.Over (P : Argument → Prop) (e : Expr) : Prop := ∀ a ∈ e.leaves, P a

/-- All arguments that a view can lead to have the property. -/
structure Bytes.Over (P : Argument → Prop) (b : Bytes) : Prop where
  base : b.base.Over P
  arrayLength : b.arrayLength.Over P
  start : b.start.Over P
  length : b.length.Over P
  view : b.view.Over P

section

variable {P : Argument → Prop}

namespace Expr

@[simp] theorem over_lit (v : Int) : (lit v).Over P := by
  simp [Over, leaves]

@[simp] theorem over_argument {a : Argument} : (argument a).Over P ↔ P a := by
  simp [Over, leaves]

@[simp] theorem over_binary {op : Operator} {l r : Expr} :
    (binary op l r).Over P ↔ l.Over P ∧ r.Over P := by
  simp only [Over, leaves, List.mem_append, or_imp, forall_and]

@[simp] theorem over_byteIndex {source key : Expr} :
    (byteIndex source key).Over P ↔ source.Over P ∧ key.Over P := by
  simp only [Over, leaves, List.mem_append, or_imp, forall_and]

@[simp] theorem over_byteSlice {base start length : Expr} :
    (byteSlice base start length).Over P ↔ base.Over P ∧ start.Over P ∧ length.Over P := by
  simp only [Over, leaves, List.mem_append, or_imp, forall_and, and_assoc]

end Expr

namespace Bytes

variable {b : Bytes}

theorem Over.imp {Q : Argument → Prop} (h : b.Over P) (hPQ : ∀ a, P a → Q a) : b.Over Q where
  base a ha := hPQ a (h.base a ha)
  arrayLength a ha := hPQ a (h.arrayLength a ha)
  start a ha := hPQ a (h.start a ha)
  length a ha := hPQ a (h.length a ha)
  view a ha := hPQ a (h.view a ha)

theorem Over.source (h : b.Over P) (hb : b.Consistent) : P b.source :=
  Expr.over_argument.1 (hb.base ▸ h.base)

theorem Over.sourceLength (h : b.Over P) (hb : b.Consistent) : P b.sourceLength :=
  Expr.over_argument.1 (hb.arrayLength ▸ h.arrayLength)

/-- An array leads to its two arguments only, and a window to those in its bounds as well. -/
theorem Consistent.over (hb : b.Consistent) (hsource : P b.source) (hlength : P b.sourceLength)
    (hbounds : b.isWindow = true → b.start.Over P ∧ b.length.Over P) : b.Over P := by
  have hbase : b.base.Over P := hb.base ▸ Expr.over_argument.2 hsource
  have hsize : b.arrayLength.Over P := hb.arrayLength ▸ Expr.over_argument.2 hlength
  cases hw : b.isWindow with
  | false =>
    rcases hb.whole_of_array hw with ⟨hview, hzero, hwhole⟩
    exact ⟨hbase, hsize, hzero ▸ Expr.over_lit 0, hwhole ▸ hsize, hview ▸ hbase⟩
  | true =>
    rcases hbounds hw with ⟨hstart, hstop⟩
    have hview : b.view.Over P := by
      rw [hb.view_of_window hw]
      exact Expr.over_byteSlice.2 ⟨hbase, hstart, hstop⟩
    exact ⟨hbase, hsize, hstart, hstop, hview⟩

end Bytes

theorem closed_over : Closed (fun _ => True) (Expr.Over P) (Bytes.Over P) where
  lit := Expr.over_lit
  binary hl hr := Expr.over_binary.2 ⟨hl, hr⟩
  arrayLength hb := hb.arrayLength
  bounds hb := ⟨hb.start, hb.length⟩
  byteAt hb hkey _ := Expr.over_byteIndex.2 ⟨hb.base, hkey⟩
  slice hb hstart hlength _ :=
    ⟨hb.base, hb.arrayLength, hstart, hlength, Expr.over_byteSlice.2 ⟨hb.base, hstart, hlength⟩⟩

theorem closedRaw_over : ClosedRaw (Expr.Over P) (Bytes.Over P) where
  expr hb := hb.view
  byteIndex hsource hkey := Expr.over_byteIndex.2 ⟨hsource, hkey⟩
  byteSlice hbase hstart hlength := Expr.over_byteSlice.2 ⟨hbase, hstart, hlength⟩

theorem Param.In.over {args : List Argument} {p : Param} (h : p.In args) (hP : ∀ a ∈ args, P a) :
    p.toValue.All (Expr.Over P) (Bytes.Over P) := by
  cases p with
  | int e =>
    obtain ⟨a, ha, _, rfl⟩ := h
    exact Expr.over_argument.2 (hP a ha)
  | bytes b =>
    obtain ⟨data, size, harray, rfl⟩ := h
    have hdata := Expr.over_argument.2 (hP _ harray.data_mem)
    have hsize := Expr.over_argument.2 (hP _ harray.size_mem)
    exact ⟨hdata, hsize, Expr.over_lit 0, hsize, hdata⟩

theorem Value.All.over {v : Value} (h : v.All (Expr.Over P) (Bytes.Over P)) : ∀ a ∈ v.leaves, P a := by
  cases v with
  | nothing => simp [Value.leaves]
  | int e => exact h
  | bytes b => exact h.view
  | cond c =>
    cases c with
    | known b => simp [Value.leaves, Cond.leaves]
    | symbolic e => exact h

end

end GuardedC
