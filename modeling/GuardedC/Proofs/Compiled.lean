import GuardedC.Proofs.GuardText
import GuardedC.Proofs.OwnFrame

/-!
# What is known of a compiled function

Whatever steps a script has, a function that was compiled from it is tied to the frame of its trace:
the guard says that every integer argument satisfies the facts about it (`Compiled.guard`), and
these facts can be satisfied (`Compiled.satisfiable`). Facts about other arguments are not spoken
of.
-/

namespace GuardedC

/-! ## Names -/

/-- The values of the arguments, by their names. -/
def Assignment.names (σ : Assignment) (args : List Argument) (name : String) : Option Int :=
  (args.find? fun a => a.name == name).map σ.value

theorem Signature.names_eq {id : FrameId} {args : List Argument} (h : Signature id args) {a : Argument}
    (ha : a ∈ args) (σ : Assignment) : σ.names args a.name = some (σ.value a) := by
  simp [Assignment.names, h.find?_name ha]

/-- Arguments at the same position are the same. -/
theorem Signature.eq_of_index {id : FrameId} {args : List Argument} (h : Signature id args) {a b : Argument}
    (ha : a ∈ args) (hb : b ∈ args) (hindex : a.index = b.index) : a = b := by
  obtain ⟨i, hi⟩ := List.mem_iff_getElem?.1 ha
  obtain ⟨j, hj⟩ := List.mem_iff_getElem?.1 hb
  have hij : i = j := (h.index i a hi).symm.trans (hindex.trans (h.index j b hj))
  rw [hij, hj] at hi
  cases hi
  rfl

/-! ## Guards and facts -/

/-- The value satisfies all facts about an argument. -/
def Frame.Admits (f : Frame) (a : Argument) (v : Int) : Prop := ∀ fact ∈ f.factsAt a.index, fact.Admits v

/-- Every integer argument satisfies the facts about it. -/
def Frame.Satisfied (f : Frame) (σ : Assignment) : Prop :=
  ∀ a ∈ f.arguments, ∀ type, a.ty = .integer type → f.Admits a (σ.value a)

theorem Frame.RowsOf.satisfied_iff {f : Frame} {rows : List ArgumentRange} (h : f.RowsOf f.arguments rows)
    {σ : Assignment} (hσ : σ.Represents f.arguments) :
    (∀ r ∈ rows, σ.value r.argument ∈ r.range) ↔ f.Satisfied σ := by
  constructor
  · intro hrows a ha type htype
    obtain ⟨r, hr, rfl⟩ := h.exists_row a ha type htype
    exact (((h.exact r hr).refines.mem _).1 (hrows r hr)).2
  · intro hfacts r hr
    obtain ⟨type, htype, hpossible⟩ := (h.exact r hr).typed
    have hmem := h.argument_mem r hr
    refine ((h.exact r hr).refines.mem _).2 ⟨?_, hfacts _ hmem type htype⟩
    rw [hpossible]
    exact hσ _ hmem type htype

namespace Script

/-- What ties a compiled function to the trace it was made from. -/
structure Compiled (t : Trace) (returns : Ty) (value : Value) (unit : CFunction) : Prop where
  complex : t.frame.complex = []
  satisfiable : ∀ a ∈ t.frame.arguments, ∀ type, a.ty = .integer type →
    ∃ v ∈ type.values, t.frame.Admits a v
  guard : ∃ guard, CExpr.parse unit.guard = some guard ∧
    ∀ σ : Assignment, σ.Represents t.frame.arguments →
      Decides (guard.eval? (σ.names t.frame.arguments)) (t.frame.Satisfied σ)
  body : Body.ofValue returns value = .ok unit.body
  arguments : unit.arguments = t.frame.arguments.map Argument.declaration

/-- Facts that were turned into a guard compare with known integers. -/
theorem Compiled.literal {t : Trace} {returns : Ty} {value : Value} {unit : CFunction}
    (h : Compiled t returns value unit) {a : Argument} (ha : a ∈ t.frame.arguments) {type : IntegerType}
    (htype : a.ty = .integer type) : ∀ fact ∈ t.frame.factsAt a.index, ∃ w, fact.operand = .lit w := by
  intro fact hfact
  obtain ⟨v, _, hadmits⟩ := h.satisfiable a ha type htype
  obtain ⟨w, hw, _⟩ := hadmits fact hfact
  exact ⟨w, hw⟩

theorem compiled_of_returns {options : Options} {name : String} {params : List Ty} {returns : Ty}
    {steps : List Step} {result : Option Nat} {s s' : Session} {unit : CFunction}
    (h : Returns (compile options name params returns steps result) s unit s') :
    ∃ t s₁ value, Returns (takeTrace name params steps) s t s₁ ∧ t.env.result result = .ok value ∧
      Compiled t returns value unit := by
  obtain ⟨t, s₁, value, htrace, hvalue, hwrite⟩ := returns_compile.1 h
  obtain ⟨rows, hranges, hcomplex, hbody, hguard, harguments⟩ := returns_toCFunction hwrite
  have hsig := signature_of_trace htrace
  have hrows : t.frame.RowsOf t.frame.arguments rows := Frame.rowsOf_of_rangesOf hranges
  refine ⟨t, s₁, value, htrace, hvalue, hcomplex, ?_, ?_, hbody, harguments⟩
  · -- a function with an empty range is not compiled, so each row has a member
    intro a ha type htype
    obtain ⟨r, hr, rfl⟩ := hrows.exists_row a ha type htype
    have hexact := hrows.exact r hr
    obtain ⟨v, hv⟩ := hexact.exists_mem
    obtain ⟨hpossible, hfacts⟩ := (hexact.refines.mem v).1 hv
    obtain ⟨type', htype', hvalues⟩ := hexact.typed
    rw [htype, Ty.integer.injEq] at htype'
    rw [hvalues, ← htype'] at hpossible
    exact ⟨v, hpossible, hfacts⟩
  · obtain ⟨tree, hparse, heval⟩ :=
      (readable_guard fun r hr => hsig.identifier _ (hrows.argument_mem r hr)).parse
    refine ⟨tree, hguard ▸ hparse, ?_⟩
    intro σ hσ
    rw [heval]
    refine (decides_guard (fun r => σ.value r.argument) ?_ ?_ ?_).congr (hrows.satisfied_iff hσ)
    · intro r hr
      exact hsig.names_eq (hrows.argument_mem r hr) σ
    · intro r hr
      obtain ⟨type, htype, hvalues⟩ := (hrows.exact r hr).typed
      rw [hvalues]
      exact hσ _ (hrows.argument_mem r hr) type htype
    · intro r hr
      exact (hrows.exact r hr).exists_mem

end Script

end GuardedC
