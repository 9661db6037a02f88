import GuardedC.Proofs.CText.Rendering
import GuardedC.Proofs.Compiled

/-!
# Whose arguments a body names

The value that a script hands back may contain arguments of other frames, and nothing keeps them
from the body of the compiled function. `body_closed_iff_own` says when a body is closed: an
argument in it is one of the function's own exactly if its frame is the one of the trace, and if all
of them are, then every name in the text of the body is declared. Where a script makes no other
frame, this is always so.

The proof follows the arguments in a value. Whatever operations do, they bring in no arguments, so a
property of the arguments that a script starts with is one of all arguments in its registers.
-/

namespace GuardedC

/-! ## Names in the text of values -/

theorem CExpr.name_notMem_ofInt (id : String) (v : Int) : .name id ∉ (ofInt v).tokens := by
  unfold ofInt
  split
  · simp [tokens]
  · split
    · simp [tokens]
    · split <;> simp [tokens]

theorem Expr.exists_leaf_of_name {e : Expr} {id : String} (h : .name id ∈ e.toC.tokens) :
    ∃ a ∈ e.leaves, a.name = id := by
  induction e with
  | lit v => exact absurd h (CExpr.name_notMem_ofInt id v)
  | argument a =>
    simp only [toC, CExpr.tokens, List.mem_singleton, Token.name.injEq] at h
    exact ⟨a, .head _, h.symm⟩
  | binary op l r ihl ihr =>
    simp only [toC, CExpr.parenthesized, CExpr.tokens, List.mem_cons, List.mem_append, reduceCtorEq,
      List.not_mem_nil, or_false, false_or] at h
    simp only [leaves, List.mem_append, or_and_right, exists_or]
    exact h.imp ihl ihr
  | byteIndex source key ihs ihk =>
    simp only [toC, CExpr.tokens, List.mem_cons, List.mem_append, reduceCtorEq, List.not_mem_nil,
      or_false, false_or] at h
    simp only [leaves, List.mem_append, or_and_right, exists_or]
    exact h.imp ihs ihk
  | byteSlice base start length ihb ihs _ =>
    simp only [leaves, List.mem_append, or_and_right, exists_or]
    unfold toC at h
    split at h
    · exact .inl (.inl (ihb h))
    · simp only [CExpr.parenthesized, CExpr.tokens, List.mem_cons, List.mem_append, reduceCtorEq,
        List.not_mem_nil, or_false, false_or] at h
      exact .inl (h.imp ihb ihs)

/-- The text of a value is made of tokens, and the names among them are those of its arguments. -/
theorem Value.lex_render {v : Value} {e : CExpr} (he : v.toC? = some e)
    (h : ∀ a ∈ v.leaves, isIdentifier a.name = true) :
    ∃ tokens, lex e.text.toList = some tokens ∧
      ∀ id, .name id ∈ tokens → ∃ a ∈ v.leaves, a.name = id := by
  cases v with
  | nothing => cases he
  | int x =>
    cases he
    exact ⟨_, lex_text (Expr.spelled_toC h), fun id hid => Expr.exists_leaf_of_name hid⟩
  | bytes b =>
    cases he
    exact ⟨_, lex_text (Expr.spelled_toC h), fun id hid => Expr.exists_leaf_of_name hid⟩
  | cond c =>
    cases he
    cases c with
    | known b => exact ⟨_, lex_constant _ false, by simp⟩
    | symbolic x => exact ⟨_, lex_text (Expr.spelled_toC h), fun id hid => Expr.exists_leaf_of_name hid⟩

/-! ## Bodies -/

/-- The expression in a body. -/
def Body.expr? : Body → Option String
  | result expr => some expr
  | evaluate expr => some expr
  | empty => none

theorem Body.exists_toC {returns : Ty} {value : Value} {body : Body} {text : String}
    (h : Body.ofValue returns value = .ok body) (htext : body.expr? = some text) :
    ∃ e, value.toC? = some e ∧ text = e.text := by
  cases value with
  | nothing =>
    cases returns with
    | void =>
      cases h
      cases htext
    | _ => cases h
  | int e =>
    refine ⟨e.toC, rfl, ?_⟩
    cases returns with
    | byteArray length => cases h
    | _ =>
      cases h
      cases htext
      rfl
  | bytes b =>
    refine ⟨b.expr.toC, rfl, ?_⟩
    cases returns with
    | integer type => cases h
    | _ =>
      cases h
      cases htext
      rfl
  | cond c =>
    refine ⟨c.toC, rfl, ?_⟩
    cases returns with
    | byteArray length => cases h
    | _ =>
      cases h
      cases htext
      rfl

/-- The names in the text of the body are those of some arguments, and these are declared. -/
def CFunction.BodyNames (f : CFunction) (args : List Argument) : Prop :=
  ∀ text, f.body.expr? = some text → ∃ tokens, lex text.toList = some tokens ∧
    ∀ id, .name id ∈ tokens → ∃ a ∈ args, a.name = id ∧ a.declaration ∈ f.arguments

namespace Script

/-- A step that makes no frame. -/
def Step.Domestic : Step → Prop
  | openFrame _ | foreign _ _ => False
  | op _ | query _ | ranges _ | dropFrame _ => True

section

variable {P : Argument → Prop} {id : FrameId} {step : Step}

theorem Step.Domestic.keeps_over (h : step.Domestic) : step.Keeps (Expr.Over P) (Bytes.Over P) id := by
  cases step with
  | op o => exact .inr closedRaw_over
  | openFrame types => exact h.elim
  | foreign types index => exact h.elim
  | _ => trivial

/-- Any step will do, if arguments of later frames have the property. -/
theorem Step.keeps_over (hP : ∀ a : Argument, id < a.frame → P a) (step : Step) :
    step.Keeps (Expr.Over P) (Bytes.Over P) id := by
  have hforeign : Foreign (Value.All (Expr.Over P) (Bytes.Over P)) id := by
    intro new tys slots hnew hlayout p hp
    refine (hlayout.params_in p hp).over ?_
    intro a ha
    exact hP a (by rwa [hlayout.signature.frame a ha])
  cases step with
  | op o => exact .inr closedRaw_over
  | openFrame types => exact hforeign
  | foreign types index => exact hforeign
  | _ => trivial

variable {name : String} {params : List Ty} {steps : List Step} {result : Option Nat} {s s' : Session}
  {t : Trace} {value : Value}

theorem over_of_trace (h : Returns (takeTrace name params steps) s t s')
    (hvalue : t.env.result result = .ok value) (hown : ∀ a ∈ t.frame.arguments, P a)
    (hkeeps : ∀ step ∈ steps, step.Keeps (Expr.Over P) (Bytes.Over P) t.id) :
    ∀ a ∈ value.leaves, P a := by
  obtain ⟨hregisters, _⟩ := all_of_trace h closed_over hkeeps (fun p hp => hp.over hown) fun _ _ => trivial
  cases result with
  | none =>
    cases hvalue
    simp [Value.leaves]
  | some n => exact (hregisters value (Env.mem_registers_of_value hvalue)).over

/-- Of the arguments in a result, those that name the frame of the trace are its arguments. -/
theorem mem_arguments_iff_frame (h : Returns (takeTrace name params steps) s t s')
    (hvalue : t.env.result result = .ok value) :
    ∀ a ∈ value.leaves, (a ∈ t.frame.arguments ↔ a.frame = t.id) := by
  have hsig := signature_of_trace h
  refine over_of_trace h hvalue (fun a ha => iff_of_true ha (hsig.frame a ha)) ?_
  intro step _
  refine step.keeps_over ?_
  -- an argument of a later frame is on neither side
  intro a hlater
  have hne : a.frame ≠ t.id := Nat.ne_of_gt hlater
  exact iff_of_false (fun ha => hne (hsig.frame a ha)) hne

/-- A script that makes no frame returns values of its own arguments. -/
theorem frame_eq_of_domestic (h : Returns (takeTrace name params steps) s t s')
    (hvalue : t.env.result result = .ok value) (hdomestic : ∀ step ∈ steps, step.Domestic) :
    ∀ a ∈ value.leaves, a.frame = t.id :=
  over_of_trace h hvalue (signature_of_trace h).frame fun step hstep => (hdomestic step hstep).keeps_over

end

/-- An argument in the body of a compiled function is an argument of the function exactly if it
belongs to the frame of the trace. If all of them do, the names in the body are those of declared
arguments; and all of them do, if no other frame was made. -/
theorem body_closed_iff_own {options : Options} {name : String} {params : List Ty} {returns : Ty}
    {steps : List Step} {result : Option Nat} {s s' : Session} {unit : CFunction}
    (h : Returns (compile options name params returns steps result) s unit s') :
    ∃ t s₁ value, Returns (takeTrace name params steps) s t s₁ ∧ t.env.result result = .ok value ∧
      Body.ofValue returns value = .ok unit.body ∧
      (∀ a ∈ value.leaves, (a ∈ t.frame.arguments ↔ a.frame = t.id)) ∧
      ((∀ a ∈ value.leaves, a.frame = t.id) → unit.BodyNames t.frame.arguments) ∧
      ((∀ step ∈ steps, step.Domestic) → ∀ a ∈ value.leaves, a.frame = t.id) := by
  obtain ⟨t, s₁, value, htrace, hvalue, hcompiled⟩ := compiled_of_returns h
  have hmem := mem_arguments_iff_frame htrace hvalue
  refine ⟨t, s₁, value, htrace, hvalue, hcompiled.body, hmem, ?_, frame_eq_of_domestic htrace hvalue⟩
  intro hown text htext
  have hargs : ∀ a ∈ value.leaves, a ∈ t.frame.arguments := fun a ha => (hmem a ha).2 (hown a ha)
  obtain ⟨e, he, rfl⟩ := Body.exists_toC hcompiled.body htext
  obtain ⟨tokens, hlex, hnames⟩ :=
    Value.lex_render he fun a ha => (signature_of_trace htrace).identifier a (hargs a ha)
  refine ⟨tokens, hlex, ?_⟩
  intro id hid
  obtain ⟨a, ha, hname⟩ := hnames id hid
  refine ⟨a, hargs a ha, hname, ?_⟩
  rw [hcompiled.arguments]
  exact List.mem_map_of_mem (hargs a ha)

/-- A parameter is added to one of another frame, which has the same name. -/
def ownAndForeign : List Step :=
  [.op (.int 0 .given), .foreign [.named "u8"] 0, .op (.arith .add (.register 0) (.register 1))]

theorem body_closed_iff_own_ownAndForeign :
    ∃ unit s', Returns (compile {} "f" [.integer ⟨.w8, false⟩] (.integer ⟨.w8, false⟩) ownAndForeign
        (some 2)) Session.empty unit s' ∧
      unit.body = .result "(arg_0 + arg_0)" ∧
      ∃ t s₁ value, Returns (takeTrace "f" [.integer ⟨.w8, false⟩] ownAndForeign) Session.empty t s₁ ∧
        t.env.result (some 2) = .ok value ∧ Body.ofValue (.integer ⟨.w8, false⟩) value = .ok unit.body ∧
        (∀ a ∈ value.leaves, (a ∈ t.frame.arguments ↔ a.frame = t.id)) ∧
        ((∀ a ∈ value.leaves, a.frame = t.id) → unit.BodyNames t.frame.arguments) ∧
        ((∀ step ∈ ownAndForeign, step.Domestic) → ∀ a ∈ value.leaves, a.frame = t.id) := by
  obtain ⟨unit, s', h, hbody⟩ := exists_returns (s := Session.empty) (f := CFunction.body)
    (b := .result "(arg_0 + arg_0)")
    (x := compile {} "f" [.integer ⟨.w8, false⟩] (.integer ⟨.w8, false⟩) ownAndForeign (some 2))
    (by decide +kernel)
  exact ⟨unit, s', h, hbody, body_closed_iff_own h⟩

/-- A function without parameters returns a parameter of another frame. -/
theorem foreign_body_not_closed :
    ∃ unit s', Returns (compile {} "f" [] (.integer ⟨.w8, false⟩) [.foreign [.named "u8"] 0] (some 0))
        Session.empty unit s' ∧
      unit.arguments = [] ∧ unit.body = .result "arg_0" ∧
      ∃ t s₁ value, Returns (takeTrace "f" [] [.foreign [.named "u8"] 0]) Session.empty t s₁ ∧
        t.env.result (some 0) = .ok value ∧ ∃ a ∈ value.leaves, a ∉ t.frame.arguments := by
  obtain ⟨unit, s', h, hunit⟩ := exists_returns (s := Session.empty)
    (f := fun unit => (unit.arguments, unit.body)) (b := ([], .result "arg_0"))
    (x := compile {} "f" [] (.integer ⟨.w8, false⟩) [.foreign [.named "u8"] 0] (some 0))
    (by decide +kernel)
  let a : Argument := ⟨0, "arg_0", .integer ⟨.w8, false⟩, 1⟩
  obtain ⟨t, s₁, htrace, ht⟩ := exists_returns (s := Session.empty)
    (f := fun t => (t.env.registers, t.frame.arguments)) (b := ([some (.int (.argument a))], []))
    (x := takeTrace "f" [] [.foreign [.named "u8"] 0]) (by decide +kernel)
  obtain ⟨harguments, hbody⟩ := Prod.mk.inj hunit
  obtain ⟨hregisters, hnone⟩ := Prod.mk.inj ht
  refine ⟨unit, s', h, harguments, hbody, t, s₁, .int (.argument a), htrace, ?_, a, .head _, ?_⟩
  · rw [Env.result, Env.value, hregisters]
    rfl
  · rw [hnone]
    exact List.not_mem_nil

end Script

end GuardedC
