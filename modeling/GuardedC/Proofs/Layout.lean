import GuardedC.CFunction
import GuardedC.Proofs.ByteViews
import GuardedC.Proofs.Recording

/-!
# The layout of a frame

The arguments of a frame stand in the order of its parameters, each byte array followed by its
length. This module says what a frame looks like when it is made:

* `Layout` is the layout as a relation, with one case for each type a parameter may have, and
  `Slot.layout_eq_ok` ties it to the function that computes it;
* `Signature` gathers what all later proofs need of the arguments: their frame, their positions, and
  that their names are distinct identifiers;
* `returns_openFrame` says that making a frame adds it to the session, with one fact for each
  length, and `Session.Opened` what this means for each frame.
-/

namespace GuardedC

/-! ## Names -/

/-- The name of the parameter at a position. -/
def argumentName (position : Nat) : String := s!"arg_{position}"

/-- The name of the length of the byte array at a position. -/
def lengthName (position : Nat) : String := argumentName position ++ "_len"

theorem toList_argumentName (n : Nat) :
    (argumentName n).toList = 'a' :: 'r' :: 'g' :: '_' :: Nat.toDigits 10 n := by
  simp [argumentName, toString]

theorem toList_lengthName (n : Nat) :
    (lengthName n).toList = (argumentName n).toList ++ ['_', 'l', 'e', 'n'] := by
  simp [lengthName]

/-- Numbers are told apart by their digits. -/
theorem toDigits_injective {m n : Nat} (h : Nat.toDigits 10 m = Nat.toDigits 10 n) : m = n := by
  have hvalue := congrArg (fun ds => Nat.ofDigitChars 10 ds 0) h
  simpa using hvalue

theorem argumentName_injective {m n : Nat} (h : argumentName m = argumentName n) : m = n := by
  have hlist := congrArg String.toList h
  rw [toList_argumentName, toList_argumentName] at hlist
  simp only [List.cons.injEq, true_and] at hlist
  exact toDigits_injective hlist

theorem lengthName_injective {m n : Nat} (h : lengthName m = lengthName n) : m = n := by
  have hlist := congrArg String.toList h
  rw [toList_lengthName, toList_lengthName] at hlist
  have hname := List.append_cancel_right hlist
  exact argumentName_injective (String.toList_inj.1 hname)

/-- There is no underscore among digits, so no length is named like a parameter. -/
theorem argumentName_ne_lengthName (m n : Nat) : argumentName m ≠ lengthName n := by
  intro h
  have hlist := congrArg String.toList h
  rw [toList_lengthName, toList_argumentName, toList_argumentName] at hlist
  simp only [List.cons_append, List.cons.injEq, true_and] at hlist
  have hmem : '_' ∈ Nat.toDigits 10 m := by
    rw [hlist]
    simp
  exact Nat.underscore_not_in_toDigits hmem

theorem isIdentifier_argumentName (n : Nat) : isIdentifier (argumentName n) = true := by
  unfold isIdentifier
  rw [toList_argumentName]
  have hdigits : ∀ c ∈ Nat.toDigits 10 n, (c == '_' || c.isAlphanum) = true := by
    intro c hc
    have hdigit := Nat.isDigit_of_mem_toDigits (by decide) (by decide) hc
    simp [Char.isAlphanum, hdigit]
  simpa using hdigits

theorem isIdentifier_append {s t : String} (hs : isIdentifier s = true)
    (ht : ∀ c ∈ t.toList, (c == '_' || c.isAlphanum) = true) : isIdentifier (s ++ t) = true := by
  unfold isIdentifier at hs ⊢
  rw [String.toList_append]
  cases hlist : s.toList with
  | nil => simp [hlist] at hs
  | cons c cs =>
    simp only [hlist, Bool.and_eq_true, List.all_eq_true] at hs
    simp only [List.cons_append, Bool.and_eq_true, List.all_append, List.all_eq_true]
    exact ⟨hs.1, hs.2, ht⟩

theorem isIdentifier_lengthName (n : Nat) : isIdentifier (lengthName n) = true :=
  isIdentifier_append (isIdentifier_argumentName n) (List.all_eq_true.1 (by decide))

/-! ## Layouts as a relation -/

/-- The slots of parameters of the given types, where the first has the given position and index. -/
inductive Layout (id : FrameId) : (position index : Nat) → List Ty → List Slot → Prop where
  | nil {position index : Nat} : Layout id position index [] []
  | integer {position index : Nat} {type : IntegerType} {arg : Argument} {tys : List Ty}
      {slots : List Slot} (harg : arg = ⟨index, argumentName position, .integer type, id⟩)
      (rest : Layout id (position + 1) (index + 1) tys slots) :
      Layout id position index (.integer type :: tys) (⟨[arg], .int (.argument arg)⟩ :: slots)
  | byteArray {position index : Nat} {length : IntegerType} {data size : Argument} {tys : List Ty}
      {slots : List Slot} (hlength : length.signed = false)
      (hdata : data = ⟨index, argumentName position, .byteArray length, id⟩)
      (hsize : size = ⟨index + 1, lengthName position, .integer length, id⟩)
      (rest : Layout id (position + 1) (index + 2) tys slots) :
      Layout id position index (.byteArray length :: tys)
        (⟨[data, size], .bytes (.array data size)⟩ :: slots)

theorem Slot.layout_eq_ok {id : FrameId} {position index : Nat} {tys : List Ty} {slots : List Slot} :
    Slot.layout id position index tys = .ok slots ↔ Layout id position index tys slots := by
  constructor
  · intro h
    induction tys generalizing position index slots with
    | nil =>
      cases h
      exact .nil
    | cons ty tys ih =>
      simp only [Slot.layout, except_bind_ok, except_pure_ok] at h
      obtain ⟨slot, hslot, rest, hrest, rfl⟩ := h
      cases ty with
      | integer type =>
        cases hslot
        exact .integer rfl (ih hrest)
      | byteArray length =>
        by_cases hsigned : length.signed
        · simp [Slot.ofTy, hsigned] at hslot
        · simp only [Slot.ofTy, hsigned, Bool.false_eq_true, if_false, Except.ok.injEq] at hslot
          subst hslot
          exact .byteArray (by simpa using hsigned) rfl rfl (ih hrest)
      | void => cases hslot
  · intro h
    induction h with
    | nil => rfl
    | @integer _ _ _ arg _ slots harg _ ih =>
      simp only [Slot.layout, except_bind_ok, except_pure_ok]
      refine ⟨⟨[arg], .int (.argument arg)⟩, ?_, slots, ih, rfl⟩
      rw [harg]
      rfl
    | @byteArray _ _ _ data size _ slots hlength hdata hsize _ ih =>
      simp only [Slot.layout, except_bind_ok, except_pure_ok]
      refine ⟨⟨[data, size], .bytes (.array data size)⟩, ?_, slots, ih, rfl⟩
      simp only [Slot.ofTy, hlength, hdata, hsize, Bool.false_eq_true, if_false]
      rfl

/-! ## The arguments of a frame -/

/-- `size` holds the length of the array that `data` points to, and follows it in the signature. -/
structure ArrayIn (args : List Argument) (data size : Argument) : Prop where
  adjacent : [data, size] <:+: args
  typed : ∃ type : IntegerType, type.signed = false ∧ data.ty = .byteArray type ∧ size.ty = .integer type
  named : size.name = data.name ++ "_len"

namespace ArrayIn

variable {args : List Argument} {data size : Argument}

theorem data_mem (h : ArrayIn args data size) : data ∈ args :=
  h.adjacent.subset (.head _)

theorem size_mem (h : ArrayIn args data size) : size ∈ args :=
  h.adjacent.subset (.tail _ (.head _))

theorem append_left (h : ArrayIn args data size) (front : List Argument) :
    ArrayIn (front ++ args) data size :=
  ⟨h.adjacent.trans (List.suffix_append front args).isInfix, h.typed, h.named⟩

end ArrayIn

/-- What a parameter stands for: an integer argument, or a byte array with its length. -/
def Param.In (args : List Argument) : Param → Prop
  | .int e => ∃ a ∈ args, (∃ type, a.ty = .integer type) ∧ e = .argument a
  | .bytes b => ∃ data size, ArrayIn args data size ∧ b = .array data size

theorem Param.In.append_left {args : List Argument} {p : Param} (h : p.In args)
    (front : List Argument) : p.In (front ++ args) := by
  cases p with
  | int e =>
    obtain ⟨a, ha, htype, he⟩ := h
    exact ⟨a, List.mem_append_right front ha, htype, he⟩
  | bytes b =>
    obtain ⟨data, size, harray, hb⟩ := h
    exact ⟨data, size, harray.append_left front, hb⟩

theorem Param.In.sourceLength_mem {args : List Argument} {b : Bytes} (h : (Param.bytes b).In args) :
    b.sourceLength ∈ args := by
  obtain ⟨data, size, harray, rfl⟩ := h
  exact harray.size_mem

/-- The arguments of a function: they belong to one frame, know their positions, and have distinct
identifiers for names. -/
structure Signature (id : FrameId) (args : List Argument) : Prop where
  frame : ∀ a ∈ args, a.frame = id
  index : ∀ (k : Nat) (a : Argument), args[k]? = some a → a.index = k
  names : args.Pairwise fun a b => a.name ≠ b.name
  identifier : ∀ a ∈ args, isIdentifier a.name = true

/-- An argument stands where its index says. -/
theorem Signature.getElem?_index {id : FrameId} {args : List Argument} (h : Signature id args)
    {a : Argument} (ha : a ∈ args) : args[a.index]? = some a := by
  rcases List.mem_iff_getElem?.1 ha with ⟨k, hk⟩
  rw [h.index k a hk]
  exact hk

/-- An argument is found by its name. -/
theorem Signature.find?_name {id : FrameId} {args : List Argument} (h : Signature id args) {a : Argument}
    (ha : a ∈ args) : (args.find? fun b => b.name == a.name) = some a := by
  have hnames := h.names
  clear h
  induction args with
  | nil => cases ha
  | cons b args ih =>
    rcases List.pairwise_cons.1 hnames with ⟨hfirst, hrest⟩
    rcases List.mem_cons.1 ha with rfl | ha
    · simp
    · have hne : b.name ≠ a.name := hfirst a ha
      rw [List.find?_cons_of_neg (by simpa using hne)]
      exact ih ha hrest

namespace Layout

variable {id : FrameId} {position index : Nat} {tys : List Ty} {slots : List Slot}

/-- Arguments know their frame, and their names tell the position of their parameter. -/
theorem of_mem (h : Layout id position index tys slots) :
    ∀ a ∈ slots.flatMap Slot.arguments, a.frame = id ∧
      ∃ n, position ≤ n ∧ (a.name = argumentName n ∨ a.name = lengthName n) := by
  induction h with
  | nil => simp
  | @integer position _ _ _ _ _ harg _ ih =>
    simp only [List.flatMap_cons, List.mem_append, List.mem_singleton]
    rintro a (rfl | ha)
    · subst harg
      exact ⟨rfl, position, Nat.le_refl _, .inl rfl⟩
    · obtain ⟨hframe, n, hn, hname⟩ := ih a ha
      exact ⟨hframe, n, by omega, hname⟩
  | @byteArray position _ _ _ _ _ _ _ hdata hsize _ ih =>
    simp only [List.flatMap_cons, List.mem_append, List.mem_cons, List.not_mem_nil, or_false]
    rintro a ((rfl | rfl) | ha)
    · subst hdata
      exact ⟨rfl, position, Nat.le_refl _, .inl rfl⟩
    · subst hsize
      exact ⟨rfl, position, Nat.le_refl _, .inr rfl⟩
    · obtain ⟨hframe, n, hn, hname⟩ := ih a ha
      exact ⟨hframe, n, by omega, hname⟩

/-- Arguments are numbered as they stand. -/
theorem index_eq (h : Layout id position index tys slots) :
    ∀ (k : Nat) (a : Argument), (slots.flatMap Slot.arguments)[k]? = some a → a.index = index + k := by
  induction h with
  | nil => simp
  | integer harg _ ih =>
    intro k a ha
    cases k with
    | zero =>
      cases ha
      rw [harg]
      rfl
    | succ k =>
      have hindex := ih k a ha
      omega
  | byteArray _ hdata hsize _ ih =>
    intro k a ha
    match k with
    | 0 =>
      cases ha
      rw [hdata]
      rfl
    | 1 =>
      cases ha
      rw [hsize]
    | k + 2 =>
      have hindex := ih k a ha
      omega

theorem argumentName_ne (h : Layout id position index tys slots) {n : Nat} (hn : n < position) :
    ∀ a ∈ slots.flatMap Slot.arguments, argumentName n ≠ a.name := by
  intro a ha hname
  obtain ⟨_, m, hm, hm' | hm'⟩ := h.of_mem a ha
  · have := argumentName_injective (hname.trans hm')
    omega
  · exact argumentName_ne_lengthName n m (hname.trans hm')

theorem lengthName_ne (h : Layout id position index tys slots) {n : Nat} (hn : n < position) :
    ∀ a ∈ slots.flatMap Slot.arguments, lengthName n ≠ a.name := by
  intro a ha hname
  obtain ⟨_, m, hm, hm' | hm'⟩ := h.of_mem a ha
  · exact argumentName_ne_lengthName m n (hname.trans hm').symm
  · have := lengthName_injective (hname.trans hm')
    omega

theorem pairwise_name_ne (h : Layout id position index tys slots) :
    (slots.flatMap Slot.arguments).Pairwise fun a b => a.name ≠ b.name := by
  induction h with
  | nil => exact .nil
  | integer harg rest ih =>
    refine List.Pairwise.cons ?_ ih
    intro b hb
    rw [harg]
    exact rest.argumentName_ne (by omega) b hb
  | byteArray _ hdata hsize rest ih =>
    refine List.Pairwise.cons ?_ (List.Pairwise.cons ?_ ih)
    · intro b hb
      rw [hdata]
      rcases List.mem_cons.1 hb with rfl | hb
      · rw [hsize]
        exact argumentName_ne_lengthName _ _
      · exact rest.argumentName_ne (by omega) b hb
    · intro b hb
      rw [hsize]
      exact rest.lengthName_ne (by omega) b hb

theorem signature (h : Layout id 0 0 tys slots) : Signature id (slots.flatMap Slot.arguments) where
  frame a ha := (h.of_mem a ha).1
  index k a ha := by simpa using h.index_eq k a ha
  names := h.pairwise_name_ne
  identifier a ha := by
    obtain ⟨_, n, _, hname | hname⟩ := h.of_mem a ha
    · rw [hname]
      exact isIdentifier_argumentName n
    · rw [hname]
      exact isIdentifier_lengthName n

/-- Every parameter stands for its own arguments. -/
theorem params_in (h : Layout id position index tys slots) :
    ∀ p ∈ slots.map Slot.param, p.In (slots.flatMap Slot.arguments) := by
  induction h with
  | nil => simp
  | @integer _ _ type arg _ slots harg _ ih =>
    intro p hp
    rcases List.mem_cons.1 hp with rfl | hp
    · exact ⟨arg, .head _, ⟨type, by rw [harg]⟩, rfl⟩
    · exact (ih p hp).append_left [arg]
  | @byteArray _ _ length data size _ slots hlength hdata hsize _ ih =>
    intro p hp
    rcases List.mem_cons.1 hp with rfl | hp
    · refine ⟨data, size, ⟨?_, ⟨length, hlength, by rw [hdata], by rw [hsize]⟩, ?_⟩, rfl⟩
      · exact (List.prefix_append [data, size] _).isInfix
      · rw [hdata, hsize]
        rfl
    · exact (ih p hp).append_left [data, size]

end Layout

/-! ## Making a frame -/

/-- The fact that a length is not negative. -/
def Param.lengthEntry? : Param → Option FrameEntry
  | .int _ => none
  | .bytes b => some (.fact b.sourceLength ⟨.ge, .lit 0⟩)

/-- The facts that a frame starts with. -/
def lengthEntries (slots : List Slot) : List FrameEntry :=
  (slots.map Slot.param).filterMap Param.lengthEntry?

theorem Layout.entriesOf?_lengthConditions {id : FrameId} {position index : Nat} {tys : List Ty}
    {slots : List Slot} (h : Layout id position index tys slots) :
    entriesOf? (Frame.ofSlots slots).lengthConditions = some (lengthEntries slots) := by
  unfold Frame.lengthConditions Frame.ofSlots lengthEntries
  induction h with
  | nil => rfl
  | integer _ _ ih => exact ih
  | byteArray _ _ _ _ ih =>
    simp only [List.map_cons, List.filterMap_cons, entriesOf?, ih, Param.lengthEntry?]
    rfl

section

variable {id : FrameId} {position index : Nat} {tys : List Ty} {slots : List Slot}

theorem Layout.argument_of_mem_lengthEntries (h : Layout id position index tys slots) :
    ∀ x ∈ lengthEntries slots, x.argument ∈ slots.flatMap Slot.arguments := by
  intro x hx
  obtain ⟨p, hp, hentry⟩ := List.mem_filterMap.1 hx
  cases p with
  | int e => cases hentry
  | bytes b =>
    cases hentry
    exact (h.params_in _ hp).sourceLength_mem

theorem Layout.frame_of_mem_lengthEntries (h : Layout id position index tys slots) :
    ∀ x ∈ lengthEntries slots, x.argument.frame = id :=
  fun x hx => (h.of_mem _ (h.argument_of_mem_lengthEntries x hx)).1

theorem Layout.tabled (h : Layout id 0 0 tys slots) :
    ((Frame.ofSlots slots).enterAll (lengthEntries slots)).Tabled := by
  have hempty : (Frame.ofSlots slots).Tabled := List.length_map _
  refine hempty.enterAll ?_
  intro x hx
  have hplace := h.signature.getElem?_index (h.argument_of_mem_lengthEntries x hx)
  exact (List.getElem?_eq_some_iff.1 hplace).1

end

theorem Session.frame?_addFrame (s : Session) (f : Frame) (j : FrameId) :
    (s.addFrame f).frame? j = if j = s.frames.length then some f else s.frame? j := by
  unfold addFrame frame?
  by_cases hj : j = s.frames.length
  · simp [hj]
  · rw [if_neg hj, List.getElem?_append]
    split
    · rfl
    · rename_i hge
      have hle : s.frames.length ≤ j := Nat.le_of_not_lt hge
      have hpast : [some f].length ≤ j - s.frames.length :=
        Nat.sub_pos_of_lt (Nat.lt_of_le_of_ne hle (Ne.symm hj))
      rw [List.getElem?_eq_none hpast, List.getElem?_eq_none hle]

/-- Making a frame succeeds if its parameters can be laid out. It adds the frame, with the facts
about lengths. -/
theorem returns_openFrame {tys : List Ty} {s s' : Session} {id : FrameId} :
    Returns (openFrame tys) s id s' ↔
      id = s.frames.length ∧ ∃ slots, Layout id 0 0 tys slots ∧
        s' = ((s.addFrame (.ofSlots slots)).enterAll (lengthEntries slots)).write
          (.frame slots.length (slots.flatMap Slot.arguments).length) := by
  simp only [openFrame, returns_bind, returns_get, returns_except, returns_modify, returns_assertAll,
    returns_say, returns_pure, Slot.layout_eq_ok]
  constructor
  · rintro ⟨_, _, ⟨rfl, rfl⟩, slots, _, ⟨hlayout, rfl⟩, _, _, rfl, _, _, ⟨es, hes, _, rfl⟩, _, _, rfl,
      rfl, rfl⟩
    rw [hlayout.entriesOf?_lengthConditions, Option.some.injEq] at hes
    subst hes
    refine ⟨rfl, slots, hlayout, ?_⟩
    simp [Frame.ofSlots]
  · rintro ⟨rfl, slots, hlayout, rfl⟩
    refine ⟨_, _, ⟨rfl, rfl⟩, slots, _, ⟨hlayout, rfl⟩, (), _, rfl, (), _,
      ⟨_, hlayout.entriesOf?_lengthConditions, ?_, rfl⟩, (), _, rfl, rfl, ?_⟩
    · intro x hx
      rw [hlayout.frame_of_mem_lengthEntries x hx, Session.frame?_addFrame, if_pos rfl]
      rfl
    · simp [Frame.ofSlots]

/-- `s'` is `s` with one more frame, of the number `id`. -/
structure Session.Opened (tys : List Ty) (slots : List Slot) (s s' : Session) (id : FrameId) : Prop where
  id_eq : id = s.frames.length
  layout : Layout id 0 0 tys slots
  length : s'.frames.length = id + 1
  frame : s'.frame? id = some ((Frame.ofSlots slots).enterAll (lengthEntries slots))
  others : ∀ j, j ≠ id → s'.frame? j = s.frame? j

theorem opened_of_returns {tys : List Ty} {s s' : Session} {id : FrameId}
    (h : Returns (openFrame tys) s id s') : ∃ slots, Session.Opened tys slots s s' id := by
  obtain ⟨rfl, slots, hlayout, rfl⟩ := returns_openFrame.1 h
  have hown := hlayout.frame_of_mem_lengthEntries
  refine ⟨slots, rfl, hlayout, ?_, ?_, ?_⟩
  · simp [Session.write, Session.addFrame]
  · rw [Session.frame?_write, Session.frame?_enterAll, Session.frame?_addFrame, if_pos rfl,
      List.filter_eq_self.2 fun x hx => decide_eq_true (hown x hx)]
    rfl
  · intro j hj
    have hnone : (lengthEntries slots).filter (fun x => x.argument.frame = j) = [] := by
      rw [List.filter_eq_nil_iff]
      intro x hx
      rw [hown x hx, decide_eq_true_eq]
      exact fun h => hj h.symm
    rw [Session.frame?_write, Session.frame?_enterAll, Session.frame?_addFrame, if_neg hj, hnone]
    exact Option.map_id'

namespace Session.Opened

variable {tys : List Ty} {slots : List Slot} {s s' : Session} {id : FrameId}

theorem frameOf (h : Session.Opened tys slots s s' id) :
    s'.frameOf id = (Frame.ofSlots slots).enterAll (lengthEntries slots) := by
  rw [Session.frameOf, h.frame]
  rfl

theorem params_frameOf (h : Session.Opened tys slots s s' id) :
    (s'.frameOf id).params = slots.map Slot.param := by
  rw [h.frameOf, Frame.params_enterAll]
  rfl

theorem arguments_frameOf (h : Session.Opened tys slots s s' id) :
    (s'.frameOf id).arguments = slots.flatMap Slot.arguments := by
  rw [h.frameOf, Frame.arguments_enterAll]
  rfl

end Session.Opened

end GuardedC
