import GuardedC.Proofs.CText.Outline
import GuardedC.Proofs.ClosedBody

/-!
# What an emitted text determines

A text is put together from strings that a caller chooses and from expressions of any depth.
`build_determines_outline` says that nothing is lost in it: the name, the declarations, the result
type, the guard, the abort routine and the body of a compiled function are read back from its text,
so functions with the same text agree in all of them. This is so for any script, nodes made by hand
and arguments of other frames included, since every argument was named when a frame was laid out.
-/

namespace GuardedC

/-! ## Arguments of frames -/

theorem Argument.OfFrame.head_name {a : Argument} (h : a.OfFrame) : a.name.toList.head? = some 'a' := by
  obtain ⟨id, tys, slots, hlayout, ha⟩ := h
  obtain ⟨_, n, _, hname | hname⟩ := (Slot.layout_eq_ok.1 hlayout).of_mem a ha
  · simp [hname, toList_argumentName]
  · simp [hname, toList_lengthName, toList_argumentName]

theorem Argument.OfFrame.declared {a : Argument} (h : a.OfFrame) : Declared a.declaration.toList :=
  declared_of_isIdentifier a.ty h.isIdentifier

namespace Script

variable {options : Options} {name : String} {params : List Ty} {returns : Ty} {steps : List Step}
  {result : Option Nat} {s s' : Session} {t : Trace} {value : Value} {text : String}

theorem Step.keeps_ofFrame (id : FrameId) (step : Step) :
    step.Keeps (Expr.Over Argument.OfFrame) (Bytes.Over Argument.OfFrame) id := by
  have hforeign : Foreign (Value.All (Expr.Over Argument.OfFrame) (Bytes.Over Argument.OfFrame)) id := by
    intro new tys slots _ hlayout p hp
    exact (hlayout.params_in p hp).over hlayout.ofFrame
  cases step with
  | op o => exact .inr closedRaw_over
  | openFrame types => exact hforeign
  | foreign types index => exact hforeign
  | _ => trivial

theorem ofFrame_of_trace (h : Returns (takeTrace name params steps) s t s') :
    ∀ a ∈ t.frame.arguments, a.OfFrame := by
  obtain ⟨slots, hlayout, harguments⟩ := layout_of_trace h
  rw [harguments]
  exact hlayout.ofFrame

/-- Whatever a script hands back, the arguments in it belong to frames. -/
theorem ofFrame_of_result (h : Returns (takeTrace name params steps) s t s')
    (hvalue : t.env.result result = .ok value) : ∀ a ∈ value.leaves, a.OfFrame :=
  over_of_trace h hvalue (ofFrame_of_trace h) fun step _ => step.keeps_ofFrame t.id

end Script

/-! ## Where expressions begin -/

theorem CExpr.head_ofInt_ne (v : Int) : (ofInt v).text.toList.head? ≠ some 'r' := by
  have hconstant : ∀ (value : Nat) (ull : Bool), (constant value ull).text.toList.head? ≠ some 'r' := by
    intro value ull hhead
    rw [toList_text_constant, List.head?_append_of_ne_nil _ Nat.toDigits_ne_nil] at hhead
    have hdigit := isDigit_toDigits (List.mem_of_mem_head? hhead)
    exact absurd hdigit (by decide)
  unfold ofInt
  split
  · exact hconstant _ _
  · split
    · decide +kernel
    · split
      · simp [text]
      · exact hconstant _ _

theorem Expr.head_toC_ne {e : Expr} (h : e.Over Argument.OfFrame) : e.toC.text.toList.head? ≠ some 'r' := by
  induction e with
  | lit v => exact CExpr.head_ofInt_ne v
  | argument a =>
    -- a name could begin with any letter, if it were not one that a frame gives
    have hname := (over_argument.1 h).head_name
    simp [toC, CExpr.text, hname]
  | binary op l r _ _ => simp [toC, CExpr.parenthesized, CExpr.text]
  | byteIndex source key _ _ => simp [toC, CExpr.text]
  | byteSlice base start length ihb _ _ =>
    unfold toC
    split
    · exact ihb (over_byteSlice.1 h).1
    · simp [CExpr.parenthesized, CExpr.text]

theorem Value.text_toC? {v : Value} {e : CExpr} (he : v.toC? = some e) (h : ∀ a ∈ v.leaves, a.OfFrame) :
    e.Spelled ∧ e.text.toList.head? ≠ some 'r' := by
  have hexpr : ∀ x : Expr, x.Over Argument.OfFrame →
      x.toC.Spelled ∧ x.toC.text.toList.head? ≠ some 'r' :=
    fun x hx => ⟨Expr.spelled_toC fun a ha => (hx a ha).isIdentifier, Expr.head_toC_ne hx⟩
  cases v with
  | nothing => cases he
  | int x =>
    cases he
    exact hexpr x h
  | bytes b =>
    cases he
    exact hexpr b.expr h
  | cond c =>
    cases he
    cases c with
    | known b =>
      refine ⟨trivial, ?_⟩
      cases b <;> decide +kernel
    | symbolic x => exact hexpr x h

/-! ## Compiled functions -/

namespace Script

variable {options : Options} {name : String} {params : List Ty} {returns : Ty} {steps : List Step}
  {result : Option Nat} {s s' : Session} {unit : CFunction} {text : String}

/-- Building is compiling and printing. -/
theorem returns_build :
    Returns (build options name params returns steps result) s text s' ↔
      ∃ unit s₁, Returns (compile options name params returns steps result) s unit s₁ ∧
        unit.text = .ok text ∧ s' = s₁.write (.emitted unit.name text.utf8ByteSize) := by
  simp only [build, CFunction.emit, returns_bind, returns_mapError, returns_except, returns_say,
    returns_pure]
  constructor
  · rintro ⟨unit, s₁, hcompile, _, _, ⟨htext, rfl⟩, _, _, rfl, rfl, rfl⟩
    exact ⟨unit, _, hcompile, htext, rfl⟩
  · rintro ⟨unit, s₁, hcompile, htext, rfl⟩
    exact ⟨unit, s₁, hcompile, text, s₁, ⟨htext, rfl⟩, (), _, rfl, rfl, rfl⟩

theorem legible_of_returns (h : Returns (compile options name params returns steps result) s unit s')
    (htext : unit.text = .ok text) : unit.Legible := by
  obtain ⟨t, s₁, value, htrace, hvalue, hwrite⟩ := returns_compile.1 h
  obtain ⟨rows, hranges, _, hbody, hguard, harguments⟩ := returns_toCFunction hwrite
  have hrows : t.frame.RowsOf t.frame.arguments rows := Frame.rowsOf_of_rangesOf hranges
  have hown := ofFrame_of_trace htrace
  have hexpr : ∀ e, unit.body.expr? = some e →
      (∀ c ∈ e.toList, isTextChar c = true) ∧ e.toList.head? ≠ some 'r' := by
    intro e he
    obtain ⟨x, hx, rfl⟩ := Body.exists_toC hbody he
    obtain ⟨hspelled, hhead⟩ := Value.text_toC? hx (ofFrame_of_result htrace hvalue)
    exact ⟨CExpr.isTextChar_of_mem hspelled, hhead⟩
  obtain ⟨hname, habort, _⟩ := CFunction.text_eq_ok htext
  refine ⟨hname, habort, ?_, ?_, ?_, ?_⟩
  · rw [harguments]
    intro d hd
    obtain ⟨a, ha, rfl⟩ := List.mem_map.1 hd
    exact (hown a ha).declared
  · have hreadable := readable_guard fun r hr => (hown _ (hrows.argument_mem r hr)).isIdentifier
    rw [hguard]
    exact CExpr.isTextChar_of_mem hreadable.spelled
  · intro e he
    exact (hexpr e (by rw [he]; rfl)).1
  · intro e he
    exact hexpr e (by rw [he]; rfl)

/-- The text that a build emits shows the outline of the compiled function, and every function that
was ever compiled and has this text has the same outline. -/
theorem build_determines_outline (h : Returns (build options name params returns steps result) s text s') :
    ∃ unit s₁, Returns (compile options name params returns steps result) s unit s₁ ∧
      unit.text = .ok text ∧ Outline.read text = some unit.outline ∧
      ∀ options' name' params' returns' steps' result' t t' unit',
        Returns (compile options' name' params' returns' steps' result') t unit' t' →
          unit'.text = .ok text → unit'.outline = unit.outline := by
  obtain ⟨unit, s₁, hcompile, htext, _⟩ := returns_build.1 h
  have hread := Outline.read_text (legible_of_returns hcompile htext) htext
  refine ⟨unit, s₁, hcompile, htext, hread, ?_⟩
  intro options' name' params' returns' steps' result' t t' unit' hcompile' htext'
  have hread' := Outline.read_text (legible_of_returns hcompile' htext') htext'
  exact Option.some.inj (hread'.symm.trans hread)

/-- A byte of an array is read for nothing. -/
def droppedByte : List Step := [.op (.bytes 0 .given), .op (.read .byte 0 (.lit 3))]

/-- The function that drops a byte, under a name like a return. -/
def droppedByteOutline : Outline where
  returns := "void"
  name := "return_"
  arguments := ["uint8_t *arg_0", "uint32_t arg_0_len"]
  guard := "arg_0_len >= 4"
  abortRoutine := "abort_assert_fail"
  body := .evaluate "(arg_0[3])"

theorem build_determines_outline_droppedByte :
    ∃ text s', Returns (build { namePrefix := "" } "return_" [.byteArray ⟨.w32, false⟩] .void droppedByte
        (some 1)) Session.empty text s' ∧
      ∃ unit s₁, unit.outline = droppedByteOutline ∧
        Returns (compile { namePrefix := "" } "return_" [.byteArray ⟨.w32, false⟩] .void droppedByte
          (some 1)) Session.empty unit s₁ ∧
        unit.text = .ok text ∧ Outline.read text = some unit.outline ∧
        ∀ options' name' params' returns' steps' result' t t' unit',
          Returns (compile options' name' params' returns' steps' result') t unit' t' →
            unit'.text = .ok text → unit'.outline = unit.outline := by
  obtain ⟨text, s', h, _⟩ := exists_returns (s := Session.empty) (f := fun _ => ()) (b := ())
    (x := build { namePrefix := "" } "return_" [.byteArray ⟨.w32, false⟩] .void droppedByte (some 1))
    (by decide +kernel)
  obtain ⟨_, _, hcompile, houtline⟩ := exists_returns (s := Session.empty) (f := CFunction.outline)
    (b := droppedByteOutline)
    (x := compile { namePrefix := "" } "return_" [.byteArray ⟨.w32, false⟩] .void droppedByte (some 1))
    (by decide +kernel)
  obtain ⟨unit, s₁, hunit, hdetermines⟩ := build_determines_outline h
  obtain ⟨rfl, rfl⟩ := hcompile.unique hunit
  exact ⟨text, s', h, _, _, houtline, hunit, hdetermines⟩

end Script

end GuardedC
