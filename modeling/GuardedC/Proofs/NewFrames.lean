import GuardedC.Proofs.CompileOutcome

/-!
# Frames when they are made

What a frame looks like before anything is traced in it, told from the types of its parameters
alone.

* `declarations` lists the arguments that the parameters ask for, in order. A byte array asks for
  two, so the position of a parameter, after which its arguments are named, and the index of an
  argument drift apart.
* `Frame.MadeFor` says that a frame has these arguments, that each parameter stands for its own
  ones, and that nothing is known but that lengths are not negative.
* `openFrame_outcome` says that such a frame is made, unless a parameter cannot have its type.
-/

namespace GuardedC

/-! ## What parameters ask for -/

/-- An argument that a parameter asks for, with what is known of it from the start. -/
structure Declaration where
  name : String
  ty : Ty
  facts : List Fact
deriving Repr, DecidableEq

/-- The declaration as an argument of a frame. -/
def Declaration.argument (d : Declaration) (index : Nat) (frame : FrameId) : Argument :=
  ⟨index, d.name, d.ty, frame⟩

/-- What the parameter at a position asks for. A byte array is followed by its length. -/
def Ty.declarations (position : Nat) : Ty → List Declaration
  | integer type => [⟨argumentName position, .integer type, []⟩]
  | byteArray length =>
    [⟨argumentName position, .byteArray length, []⟩,
     ⟨lengthName position, .integer length, [⟨.ge, .lit 0⟩]⟩]
  | void => []

/-- What parameters ask for, where the first has the given position. -/
def declarationsFrom (position : Nat) (tys : List Ty) : List Declaration :=
  (tys.zipIdx position).flatMap fun x => x.1.declarations x.2

/-- What all parameters of a function ask for. -/
def declarations (tys : List Ty) : List Declaration := declarationsFrom 0 tys

theorem declarationsFrom_cons (position : Nat) (ty : Ty) (tys : List Ty) :
    declarationsFrom position (ty :: tys) =
      ty.declarations position ++ declarationsFrom (position + 1) tys := by
  simp [declarationsFrom, List.zipIdx_cons]

/-- The argument is named after the parameter at a position. -/
def Argument.belongsTo (position : Nat) (a : Argument) : Bool :=
  a.name == argumentName position || a.name == lengthName position

theorem Argument.belongsTo_of_name {a : Argument} {position n : Nat}
    (h : a.name = argumentName position ∨ a.name = lengthName position) :
    a.belongsTo n = decide (n = position) := by
  have harg : argumentName position = argumentName n ↔ n = position :=
    ⟨fun heq => (argumentName_injective heq).symm, fun heq => by rw [heq]⟩
  have hlength : lengthName position = lengthName n ↔ n = position :=
    ⟨fun heq => (lengthName_injective heq).symm, fun heq => by rw [heq]⟩
  rw [Bool.eq_iff_iff]
  rcases h with h | h
  · simp [belongsTo, h, harg, argumentName_ne_lengthName]
  · simp [belongsTo, h, hlength, (argumentName_ne_lengthName _ _).symm]

/-- What a traced function is given for a parameter with these arguments: an integer stands for
itself, and a byte array for all of its bytes. -/
def Ty.GivenAs (own : List Argument) : Ty → Param → Prop
  | .integer _, .int e => ∃ a, own = [a] ∧ e = .argument a
  | .byteArray _, .bytes b => ∃ data size, own = [data, size] ∧ b = .array data size
  | _, _ => False

/-! ## Arguments and parameters -/

namespace Layout

variable {id : FrameId} {position index : Nat} {tys : List Ty} {slots : List Slot}

theorem arguments_eq (h : Layout id position index tys slots) :
    slots.flatMap Slot.arguments =
      ((declarationsFrom position tys).zipIdx index).map fun x => x.1.argument x.2 id := by
  induction h with
  | nil => rfl
  | integer harg _ ih =>
    rw [declarationsFrom_cons, List.flatMap_cons, ih, harg]
    rfl
  | byteArray _ hdata hsize _ ih =>
    rw [declarationsFrom_cons, List.flatMap_cons, ih, hdata, hsize]
    rfl

theorem length_params (h : Layout id position index tys slots) :
    (slots.map Slot.param).length = tys.length := by
  induction h with
  | nil => rfl
  | integer _ _ ih => simpa using ih
  | byteArray _ _ _ _ ih => simpa using ih

/-- Arguments are named after their own parameter and no other. -/
theorem filter_belongsTo_of_lt (h : Layout id position index tys slots) {n : Nat} (hn : n < position) :
    (slots.flatMap Slot.arguments).filter (·.belongsTo n) = [] := by
  rw [List.filter_eq_nil_iff]
  intro a ha
  have harg := (h.argumentName_ne hn a ha).symm
  have hlength := (h.lengthName_ne hn a ha).symm
  simp [Argument.belongsTo, harg, hlength]

/-- Every parameter is given as the arguments that are named after it. -/
theorem givenAs (h : Layout id position index tys slots) :
    ∀ (k : Nat) (ty : Ty), tys[k]? = some ty → ∃ p, (slots.map Slot.param)[k]? = some p ∧
      ty.GivenAs ((slots.flatMap Slot.arguments).filter (·.belongsTo (position + k))) p := by
  -- along the layout: the first parameter owns what is named after `position`, and nothing behind
  -- it is
  induction h with
  | nil => simp
  | @integer position _ type arg _ slots harg rest ih =>
    have hown : ∀ n, arg.belongsTo n = decide (n = position) :=
      fun n => Argument.belongsTo_of_name (.inl (by rw [harg]))
    intro k ty hty
    cases k with
    | zero =>
      cases hty
      refine ⟨_, rfl, arg, ?_, rfl⟩
      simp [hown, rest.filter_belongsTo_of_lt]
    | succ k =>
      obtain ⟨p, hp, hgiven⟩ := ih k ty hty
      refine ⟨p, hp, ?_⟩
      rw [Nat.add_assoc, Nat.add_comm 1] at hgiven
      simpa [hown] using hgiven
  | @byteArray position _ length data size _ slots hlength hdata hsize rest ih =>
    have hdataOwn : ∀ n, data.belongsTo n = decide (n = position) :=
      fun n => Argument.belongsTo_of_name (.inl (by rw [hdata]))
    have hsizeOwn : ∀ n, size.belongsTo n = decide (n = position) :=
      fun n => Argument.belongsTo_of_name (.inr (by rw [hsize]))
    intro k ty hty
    cases k with
    | zero =>
      cases hty
      refine ⟨_, rfl, data, size, ?_, rfl⟩
      simp [hdataOwn, hsizeOwn, rest.filter_belongsTo_of_lt]
    | succ k =>
      obtain ⟨p, hp, hgiven⟩ := ih k ty hty
      refine ⟨p, hp, ?_⟩
      rw [Nat.add_assoc, Nat.add_comm 1] at hgiven
      simpa [hdataOwn, hsizeOwn] using hgiven

/-! ## Facts -/

theorem filterMap_factAt?_of_lt (h : Layout id position index tys slots) {i : Nat} (hi : i < index) :
    (lengthEntries slots).filterMap (FrameEntry.factAt? i) = [] := by
  rw [List.filterMap_eq_nil_iff]
  intro x hx
  obtain ⟨k, hk⟩ := List.mem_iff_getElem?.1 (h.argument_of_mem_lengthEntries x hx)
  have hindex : x.argument.index = index + k := h.index_eq k _ hk
  cases x with
  | fact a fact =>
    have hne : a.index ≠ i := by
      rw [show a.index = index + k from hindex]
      omega
    exact if_neg hne
  | complex a fact => rfl

/-- The facts that a frame starts with are those of its declarations. -/
theorem filterMap_factAt? (h : Layout id position index tys slots) (k : Nat) :
    (lengthEntries slots).filterMap (FrameEntry.factAt? (index + k)) =
      ((declarationsFrom position tys)[k]?.map Declaration.facts).getD [] := by
  induction h generalizing k with
  | nil => rfl
  | @integer _ index _ _ _ slots _ rest ih =>
    rw [declarationsFrom_cons]
    show (lengthEntries slots).filterMap _ = _
    cases k with
    | zero => exact rest.filterMap_factAt?_of_lt (Nat.lt_succ_self index)
    | succ k =>
      rw [← Nat.add_assoc, Nat.add_right_comm]
      exact ih k
  | @byteArray _ index _ _ size _ slots _ _ hsize rest ih =>
    -- the fact belongs to the second of the two arguments, the length
    have hhead : ∀ i, FrameEntry.factAt? i (.fact size ⟨.ge, .lit 0⟩) =
        if index + 1 = i then some ⟨.ge, .lit 0⟩ else none := by
      intro i
      rw [hsize]
      rfl
    rw [declarationsFrom_cons]
    show (FrameEntry.fact size ⟨.ge, .lit 0⟩ :: lengthEntries slots).filterMap _ = _
    rw [List.filterMap_cons, hhead]
    rcases k with _ | _ | k
    · have hnone := rest.filterMap_factAt?_of_lt (i := index) (by omega)
      simpa [Ty.declarations] using hnone
    · have hnone := rest.filterMap_factAt?_of_lt (i := index + 1) (by omega)
      simpa [Ty.declarations] using hnone
    · have hlater := ih k
      rw [Nat.add_right_comm] at hlater
      simpa [Ty.declarations, Nat.add_assoc] using hlater

end Layout

/-! ## Frames -/

/-- The frame of this number, as it is when it was made for parameters of the given types. -/
structure Frame.MadeFor (f : Frame) (id : FrameId) (tys : List Ty) : Prop where
  arguments : f.arguments = (declarations tys).zipIdx.map fun x => x.1.argument x.2 id
  index : ∀ (k : Nat) (a : Argument), f.arguments[k]? = some a → a.index = k
  names : f.arguments.Pairwise fun a b => a.name ≠ b.name
  identifiers : ∀ a ∈ f.arguments, isIdentifier a.name = true
  arity : f.params.length = tys.length
  params : ∀ (k : Nat) (ty : Ty), tys[k]? = some ty →
    ∃ p, f.params[k]? = some p ∧ ty.GivenAs (f.arguments.filter (·.belongsTo k)) p
  facts : f.facts = (declarations tys).map Declaration.facts
  complex : f.complex = []

namespace Session.Opened

variable {tys : List Ty} {slots : List Slot} {s s' : Session} {id : FrameId}

theorem facts_eq (h : Session.Opened tys slots s s' id) :
    ((Frame.ofSlots slots).enterAll (lengthEntries slots)).facts =
      (declarations tys).map Declaration.facts := by
  have hsame : (slots.flatMap Slot.arguments).length = (declarations tys).length := by
    rw [h.layout.arguments_eq, List.length_map, List.length_zipIdx]
    rfl
  refine List.ext_getElem ?_ fun k hk hk' => ?_
  · rw [List.length_map, ← hsame]
    exact h.layout.tabled.trans (by rw [Frame.arguments_enterAll]; rfl)
  · have hat := Frame.factsAt_ofSlots_enterAll slots (lengthEntries slots) k
    have hentries := h.layout.filterMap_factAt? k
    rw [Nat.zero_add] at hentries
    have hlt : k < (declarationsFrom 0 tys).length := by rwa [List.length_map] at hk'
    rw [Frame.factsAt, List.getElem?_eq_getElem hk, hentries, List.getElem?_eq_getElem hlt] at hat
    rw [List.getElem_map]
    exact hat

theorem madeFor (h : Session.Opened tys slots s s' id) :
    ((Frame.ofSlots slots).enterAll (lengthEntries slots)).MadeFor id tys := by
  have hsig := h.layout.signature
  have hargs : ((Frame.ofSlots slots).enterAll (lengthEntries slots)).arguments =
      slots.flatMap Slot.arguments :=
    Frame.arguments_enterAll _ _
  have hparams : ((Frame.ofSlots slots).enterAll (lengthEntries slots)).params = slots.map Slot.param :=
    Frame.params_enterAll _ _
  refine ⟨?_, ?_, ?_, ?_, ?_, ?_, h.facts_eq, ?_⟩
  · rw [hargs]
    exact h.layout.arguments_eq
  · rw [hargs]
    exact hsig.index
  · rw [hargs]
    exact hsig.names
  · rw [hargs]
    exact hsig.identifier
  · rw [hparams]
    exact h.layout.length_params
  · intro k ty hty
    rw [hargs, hparams]
    simpa using h.layout.givenAs k ty hty
  -- what is known of the lengths are facts, so no conditions are kept aside
  · rw [Frame.complex_enterAll]
    refine List.filterMap_eq_nil_iff.2 fun x hx => ?_
    obtain ⟨p, _, hentry⟩ := List.mem_filterMap.1 hx
    cases p with
    | int e => cases hentry
    | bytes b =>
      cases hentry
      rfl

end Session.Opened

theorem Ty.isParameter_eq_false_iff {ty : Ty} :
    ty.isParameter = false ↔ ty = .void ∨ ∃ length, ty = .byteArray length ∧ length.signed = true := by
  cases ty with
  | integer type => simp [isParameter]
  | byteArray length => simp [isParameter]
  | void => simp [isParameter]

/-- Making a frame fails with the error of the first parameter that cannot have its type, if there
is one. Otherwise the frame is made, with the arguments, the parameters and the facts that the types
ask for. -/
theorem openFrame_outcome (tys : List Ty) (s : Session) :
    ((∃ e, Fails (openFrame tys) s e) ↔
      ∃ ty ∈ tys, ty = .void ∨ ∃ length, ty = .byteArray length ∧ length.signed = true) ∧
    (∀ e, Fails (openFrame tys) s e ↔ RefusedFor 0 tys e) ∧
    ((∃ e, Fails (openFrame tys) s e) ∨ ∃ f s', Returns (openFrame tys) s s.frames.length s' ∧
      s'.frame? s.frames.length = some f ∧ f.MadeFor s.frames.length tys) := by
  refine ⟨?_, fun e => fails_openFrame, ?_⟩
  · simp only [fails_openFrame, ← Ty.isParameter_eq_false_iff]
    have hall : (∀ ty ∈ tys, ty.isParameter = true) ↔ ∀ e, ¬ RefusedFor 0 tys e := forall_isParameter_iff 0
    constructor
    · rintro ⟨e, hrefused⟩
      by_contra hnone
      refine hall.1 (fun ty hty => ?_) e hrefused
      cases hparameter : ty.isParameter with
      | true => rfl
      | false => exact absurd ⟨ty, hty, hparameter⟩ hnone
    · rintro ⟨ty, hty, hfalse⟩
      by_contra hnone
      have htrue := hall.2 (fun e hrefused => hnone ⟨e, hrefused⟩) ty hty
      rw [hfalse] at htrue
      cases htrue
  · rcases returns_or_fails (openFrame tys) s with ⟨id, s', hopen⟩ | hfails
    · obtain ⟨slots, hopened⟩ := opened_of_returns hopen
      obtain rfl := hopened.id_eq
      exact .inr ⟨_, s', hopen, hopened.frame, hopened.madeFor⟩
    · exact .inl hfails

example :
    (declarations [.integer ⟨.w8, false⟩, .byteArray ⟨.w16, false⟩, .integer ⟨.w64, true⟩]).map (·.name) =
      ["arg_0", "arg_1", "arg_1_len", "arg_2"] := by
  decide +kernel

end GuardedC
