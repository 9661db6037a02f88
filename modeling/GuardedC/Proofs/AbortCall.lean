import GuardedC.Proofs.EmittedText
import GuardedC.Proofs.NewFrames

/-!
# Where the abort call goes

A function whose guard fails calls a routine that the C runtime supplies. The call names the
routine, and what a name means inside a function depends on what the function declares. The names
come from three sides: the options give the routine, the options and the caller give the function,
and the layout of the frame gives the parameters. That each of them is a name in C is checked
(`isIdentifier_iff`), that they differ is not: `abort_call_outside_iff` says exactly when the call
leaves the function.
-/

namespace GuardedC

/-! ## Names in C -/

def IsLetter (c : Char) : Prop := ('A' ≤ c ∧ c ≤ 'Z') ∨ ('a' ≤ c ∧ c ≤ 'z')

def IsDecimalDigit (c : Char) : Prop := '0' ≤ c ∧ c ≤ '9'

/-- The names that match `[A-Za-z_][A-Za-z0-9_]*`. -/
def IsCName (name : String) : Prop :=
  ∃ first rest, name.toList = first :: rest ∧ (IsLetter first ∨ first = '_') ∧
    ∀ c ∈ rest, IsLetter c ∨ IsDecimalDigit c ∨ c = '_'

theorem isAlpha_iff {c : Char} : c.isAlpha = true ↔ IsLetter c := by
  change (decide (c.val ≥ 'A'.val ∧ c.val ≤ 'Z'.val) ||
    (decide (c.val ≥ 'a'.val) && decide (c.val ≤ 'z'.val))) = true
    ↔ _
  rw [Bool.or_eq_true, decide_eq_true_eq, Bool.and_eq_true, decide_eq_true_eq, decide_eq_true_eq]
  rfl

theorem isAlphanum_iff {c : Char} : c.isAlphanum = true ↔ IsLetter c ∨ IsDecimalDigit c := by
  change (c.isAlpha || (decide (c.val ≥ '0'.val) && decide (c.val ≤ '9'.val))) = true ↔ _
  rw [Bool.or_eq_true, isAlpha_iff, Bool.and_eq_true, decide_eq_true_eq, decide_eq_true_eq]
  rfl

/-- The check of a name accepts the names in C and no others. -/
theorem isIdentifier_iff {name : String} : isIdentifier name = true ↔ IsCName name := by
  unfold isIdentifier IsCName
  cases name.toList with
  | nil => simp
  | cons first rest =>
    simp only [Bool.and_eq_true, Bool.or_eq_true, beq_iff_eq, List.all_eq_true, isAlpha_iff, isAlphanum_iff,
      List.cons.injEq]
    constructor
    · rintro ⟨hfirst, hrest⟩
      refine ⟨first, rest, ⟨rfl, rfl⟩, hfirst.symm, fun c hc => ?_⟩
      rw [← or_assoc]
      exact (hrest c hc).symm
    · rintro ⟨_, _, ⟨rfl, rfl⟩, hfirst, hrest⟩
      refine ⟨hfirst.symm, fun c hc => ?_⟩
      have hc' := hrest c hc
      rw [← or_assoc] at hc'
      exact hc'.symm

/-! ## What a name stands for -/

/-- What a name stands for inside a function. -/
inductive Referent where
  /-- The parameter that is declared at this place. -/
  | parameter (index : Nat)
  | itself
  /-- Whatever the rest of the program declares. -/
  | outside
deriving Repr, DecidableEq

namespace Outline

/-- The names that the signature declares. -/
def parameterNames (o : Outline) : List String :=
  o.arguments.filterMap fun declaration => (readDeclaration declaration.toList).map Prod.snd

/-- A name is looked for among the parameters first, and then among what the file declares, where
the function stands itself. -/
def referent (o : Outline) (name : String) : Referent :=
  match o.parameterNames.idxOf? name with
  | some index => .parameter index
  | none => if name = o.name then .itself else .outside

theorem referent_eq_outside {o : Outline} {name : String} :
    o.referent name = .outside ↔ name ≠ o.name ∧ name ∉ o.parameterNames := by
  unfold referent
  cases hindex : o.parameterNames.idxOf? name with
  | some index =>
    have hmem : name ∈ o.parameterNames := by
      by_contra hnone
      rw [List.idxOf?_eq_none_iff.2 hnone] at hindex
      cases hindex
    simp [hmem]
  | none =>
    have hnone : name ∉ o.parameterNames := List.idxOf?_eq_none_iff.1 hindex
    by_cases hname : name = o.name
    · simp [hname]
    · simp [hname, hnone]

end Outline

/-- The names of declared arguments are read back from their declarations. -/
theorem parameterNames_outline {unit : CFunction} {args : List Argument}
    (harguments : unit.arguments = args.map Argument.declaration)
    (hnames : ∀ a ∈ args, isIdentifier a.name = true) :
    unit.outline.parameterNames = args.map Argument.name := by
  show unit.arguments.filterMap _ = _
  rw [harguments, List.filterMap_map, ← List.filterMap_eq_map]
  refine List.filterMap_congr fun a ha => ?_
  show (Outline.readDeclaration (a.ty.declare a.name).toList).map Prod.snd = some a.name
  rw [Outline.readDeclaration_declare a.ty (hnames a ha)]
  rfl

theorem Layout.map_name {id : FrameId} {tys : List Ty} {slots : List Slot} (h : Layout id 0 0 tys slots) :
    (slots.flatMap Slot.arguments).map Argument.name = (declarations tys).map Declaration.name := by
  rw [h.arguments_eq, List.map_map]
  show ((declarations tys).zipIdx 0).map (Declaration.name ∘ Prod.fst) = _
  rw [← List.map_map, List.zipIdx_map_fst]

/-- All parameters are named alike, so a name that begins in another way is none of theirs. -/
theorem toList_of_mem_declarations {tys : List Ty} {name : String}
    (h : name ∈ (declarations tys).map Declaration.name) :
    ∃ rest, name.toList = 'a' :: 'r' :: 'g' :: '_' :: rest := by
  obtain ⟨d, hd, rfl⟩ := List.mem_map.1 h
  obtain ⟨⟨ty, position⟩, _, hd⟩ := List.mem_flatMap.1 hd
  have hnamed : d.name = argumentName position ∨ d.name = lengthName position := by
    cases ty with
    | integer type =>
      obtain rfl := List.mem_singleton.1 hd
      exact .inl rfl
    | byteArray length =>
      rcases List.mem_cons.1 hd with rfl | hd
      · exact .inl rfl
      · obtain rfl := List.mem_singleton.1 hd
        exact .inr rfl
    | void => cases hd
  rcases hnamed with hname | hname
  · exact ⟨_, by rw [hname, toList_argumentName]⟩
  · exact ⟨_, by rw [hname, toList_lengthName, toList_argumentName]; rfl⟩

namespace Script

variable {options : Options} {name : String} {params : List Ty} {returns : Ty} {steps : List Step}
  {result : Option Nat} {s s' : Session} {text : String}

/-- The names in an emitted text: those that were asked for, and those of the layout. -/
theorem names_of_build (h : Returns (build options name params returns steps result) s text s') :
    ∃ o, Outline.read text = some o ∧ o.name = options.namePrefix ++ name ∧
      o.abortRoutine = options.abortRoutine ∧
        o.parameterNames = (declarations params).map Declaration.name ∧
      IsCName o.name ∧ IsCName o.abortRoutine := by
  obtain ⟨unit, s₁, hcompile, htext, _⟩ := returns_build.1 h
  have hlegible := legible_of_returns hcompile htext
  obtain ⟨t, s₂, value, htrace, _, hwrite⟩ := returns_compile.1 hcompile
  obtain ⟨rows, body, _, _, _, hunit⟩ := (exists_returns_toCFunction s₂).1 ⟨s₁, hwrite⟩
  obtain ⟨slots, hlayout, harguments⟩ := layout_of_trace htrace
  refine ⟨unit.outline, Outline.read_text hlegible htext, ?_, ?_, ?_, isIdentifier_iff.1 hlegible.name,
    isIdentifier_iff.1 hlegible.abortRoutine⟩
  · rw [hunit]
    rfl
  · rw [hunit]
    rfl
  · have hdeclared : unit.arguments = t.frame.arguments.map Argument.declaration := by rw [hunit]
    rw [parameterNames_outline hdeclared (signature_of_trace htrace).identifier, harguments,
      hlayout.map_name]

/-- Under the default options, no parameter and no function is named like the routine. -/
theorem default_abortRoutine_free (name : String) (params : List Ty) :
    ({} : Options).abortRoutine ≠ ({} : Options).namePrefix ++ name ∧
      ({} : Options).abortRoutine ∉ (declarations params).map Declaration.name := by
  constructor
  -- the function begins with `s`
  · intro hsame
    have hlist := congrArg String.toList hsame
    rw [String.toList_append] at hlist
    have hhead := congrArg List.head? hlist
    simp at hhead
  -- a parameter has `r` in the second place
  · intro hmem
    obtain ⟨rest, hrest⟩ := toList_of_mem_declarations hmem
    have hsecond := congrArg (·[1]?) hrest
    simp at hsecond

/-- In an emitted text the function and the abort routine have names in C, as they were asked for.
The abort call leaves the function exactly if the routine is named neither like the function nor
like one of its parameters, which the types of the parameters determine. Under the default options
it always does. -/
theorem abort_call_outside_iff (h : Returns (build options name params returns steps result) s text s') :
    ∃ o, Outline.read text = some o ∧ o.name = options.namePrefix ++ name ∧
      o.abortRoutine = options.abortRoutine ∧
        o.parameterNames = (declarations params).map Declaration.name ∧
      IsCName o.name ∧ IsCName o.abortRoutine ∧
      (o.referent o.abortRoutine = .outside ↔ options.abortRoutine ≠ options.namePrefix ++ name ∧
        options.abortRoutine ∉ (declarations params).map Declaration.name) ∧
      (options = {} → o.referent o.abortRoutine = .outside) := by
  obtain ⟨o, hread, hname, habort, hnames, hcname, hcabort⟩ := names_of_build h
  have houtside : o.referent o.abortRoutine = .outside ↔ options.abortRoutine ≠ options.namePrefix ++ name ∧
      options.abortRoutine ∉ (declarations params).map Declaration.name := by
    rw [Outline.referent_eq_outside, habort, hname, hnames]
  refine ⟨o, hread, hname, habort, hnames, hcname, hcabort, houtside, ?_⟩
  rintro rfl
  exact houtside.2 (default_abortRoutine_free name params)

/-- An integer below a bound. -/
def belowFive : List Step :=
  [.op (.int 0 .given), .op (.compare .lt (.register 0) (.lit 5)), .op (.assert (.register 1))]

/-- A routine named like a parameter that there is not. -/
theorem abort_call_outside_iff_nextParameter :
    ∃ text s', Returns (build { abortRoutine := "arg_1" } "f" [.integer ⟨.w8, false⟩] .void belowFive none)
        Session.empty text s' ∧
      ∃ o, Outline.read text = some o ∧ o.name = "sya_f" ∧ o.abortRoutine = "arg_1" ∧
        o.parameterNames = ["arg_0"] ∧ IsCName o.name ∧ IsCName o.abortRoutine ∧
        o.referent o.abortRoutine = .outside := by
  obtain ⟨text, s', h, _⟩ := exists_returns (s := Session.empty) (f := fun _ => ()) (b := ())
    (x := build { abortRoutine := "arg_1" } "f" [.integer ⟨.w8, false⟩] .void belowFive none)
      (by decide +kernel)
  obtain ⟨o, hread, hname, habort, hnames, hcname, hcabort, houtside, _⟩ := abort_call_outside_iff h
  refine ⟨text, s', h, o, hread, hname, habort, ?_, hcname, hcabort, houtside.2 (by decide +kernel)⟩
  rw [hnames]
  decide +kernel

/-- The outline of a compiled function is read from the text, where there is one. -/
theorem exists_read {o : Outline}
    (hcompile : ((compile options name params returns steps result).run.run s).1.toOption.map
      CFunction.outline = some o)
    (hbuild : ((build options name params returns steps result).run.run s).1.toOption.isSome = true) :
    ∃ text s', Returns (build options name params returns steps result) s text s' ∧
      Outline.read text = some o := by
  obtain ⟨unit, _, hunit, rfl⟩ := exists_returns hcompile
  obtain ⟨text, htext⟩ := Option.isSome_iff_exists.1 hbuild
  obtain ⟨_, s', h, rfl⟩ := exists_returns (f := id) (Option.map_id_apply.trans htext)
  obtain ⟨_, _, hcompiled, hprinted, _⟩ := returns_build.1 h
  obtain ⟨rfl, rfl⟩ := hunit.unique hcompiled
  exact ⟨_, s', h, Outline.read_text (legible_of_returns hunit hprinted) hprinted⟩

/-- A function that calls itself where its guard fails. -/
def selfCalling : Outline where
  returns := "void"
  name := "sya_f"
  arguments := ["uint8_t arg_0"]
  guard := "arg_0 < 5"
  abortRoutine := "sya_f"
  body := .empty

/-- A function that calls the length of its array where its guard fails. -/
def lengthCalling : Outline where
  returns := "void"
  name := "sya_f"
  arguments := ["uint8_t *arg_0", "uint32_t arg_0_len"]
  guard := "arg_0_len >= 4"
  abortRoutine := "arg_0_len"
  body := .evaluate "(arg_0[3])"

/-- A routine may be named like the function that calls it, or like a parameter of it. -/
theorem abort_call_captured :
    ((∃ text s', Returns
        (build { abortRoutine := "sya_f" } "f" [.integer ⟨.w8, false⟩] .void belowFive none)
        Session.empty text s' ∧ Outline.read text = some selfCalling) ∧
      selfCalling.referent selfCalling.abortRoutine = .itself) ∧
    (∃ text s', Returns
        (build { abortRoutine := "arg_0_len" } "f" [.byteArray ⟨.w32, false⟩] .void droppedByte
        (some 1)) Session.empty text s' ∧ Outline.read text = some lengthCalling) ∧
      lengthCalling.referent lengthCalling.abortRoutine = .parameter 1 := by
  refine ⟨⟨?_, by decide +kernel⟩, ?_, by decide +kernel⟩
  · exact exists_read (by decide +kernel) (by decide +kernel)
  · exact exists_read (by decide +kernel) (by decide +kernel)

end Script

end GuardedC
