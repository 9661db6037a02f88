import GuardedC.Proofs.GuardText
import GuardedC.Proofs.Leaves

/-!
# The text of expressions

An expression is written with parentheses around every operation, so its text says how it is built.
This module reads the text back:

* `CTree` is a C expression without its parentheses, and `CTree.read` makes one of a text, if the
  text is an expression of C and each constant in it has a type;
* `Expr.erasure` is what C can know of an expression: names in place of arguments, and pointers in
  place of slices;
* `Expr.read_render`, the main statement, says that the text of an expression is read as its
  erasure. So expressions that are written alike have the same erasure.
-/

namespace GuardedC

/-! ## C expressions without parentheses -/

inductive CTree where
  | name (id : String)
  /-- A decimal constant, `unsigned long long` if marked so. -/
  | constant (value : Nat) (ull : Bool)
  | negate (operand : CTree)
  | binary (op : Operator) (lhs rhs : CTree)
  | index (array key : CTree)
deriving Repr, DecidableEq

/-- The greatest value of C's widest unsigned type. -/
def CExpr.unsignedMax : Nat := 18446744073709551615

/-- The integer is a value of C's widest signed or widest unsigned type: it lies in
`[-2 ^ 63, 2 ^ 64)`. -/
def CExpr.InWidest (v : Int) : Prop := -longMax - 1 ≤ v ∧ v ≤ unsignedMax

instance : DecidablePred CExpr.InWidest := fun _ => inferInstanceAs (Decidable (_ ∧ _))

/-- Every integer of a type is one of the widest types. -/
theorem IntegerType.inWidest {type : IntegerType} {v : Int} (hlow : type.low ≤ v) (hhigh : v < type.high) :
    CExpr.InWidest v := by
  have hbounds : -(CExpr.longMax : Int) - 1 ≤ type.low ∧ type.high ≤ CExpr.unsignedMax + 1 := by
    rcases type with ⟨width, signed⟩
    cases width <;> cases signed <;> decide
  exact ⟨by omega, by omega⟩

/-- A constant has a type only if its value is one of the widest type that its suffix admits. -/
def CExpr.HasType (value : Nat) (ull : Bool) : Prop := value ≤ if ull then unsignedMax else longMax

instance (value : Nat) (ull : Bool) : Decidable (CExpr.HasType value ull) :=
  inferInstanceAs (Decidable (_ ≤ _))

/-- The tree without its parentheses, if every constant in it has a type. -/
def CExpr.tree? : CExpr → Option CTree
  | name id => some (.name id)
  | constant value ull => if HasType value ull then some (.constant value ull) else none
  | negate e => do
    let t ← e.tree?
    return .negate t
  | binary op l r => do
    let t ← l.tree?
    let u ← r.tree?
    return .binary op t u
  | index a k => do
    let t ← a.tree?
    let u ← k.tree?
    return .index t u
  | paren e => e.tree?

/-- Reads an expression, with C's precedence. -/
def CTree.read (text : String) : Option CTree := do
  let e ← CExpr.parse text
  e.tree?

/-- An integer as C has it. Negative integers are constants with a sign, but the least value of the
widest signed type is no constant with a sign. -/
def CTree.ofInt (v : Int) : CTree :=
  if v = -CExpr.longMax - 1 then
    .binary Arith.sub (.negate (.constant CExpr.longMax false)) (.constant 1 false)
  else if v < 0 then .negate (.constant v.natAbs false)
  else .constant v.toNat (decide (v > CExpr.longMax))

/-! ## What is left of an expression -/

/-- The expression as C can know it. Operators, the order of operands and their nesting are those of
the expression; an argument is its name, and a slice the pointer to its first byte. -/
def Expr.erasure : Expr → CTree
  | lit v => .ofInt v
  | argument a => .name a.name
  | binary op l r => .binary op l.erasure r.erasure
  | byteIndex source key => .index source.erasure key.erasure
  | byteSlice base start _ =>
    if start = lit 0 then base.erasure else .binary Arith.add base.erasure start.erasure

/-- All integers known in an expression. -/
def Expr.literals : Expr → List Int
  | lit v => [v]
  | argument _ => []
  | binary _ l r => l.literals ++ r.literals
  | byteIndex source key => source.literals ++ key.literals
  | byteSlice base start length => base.literals ++ start.literals ++ length.literals

/-- Bytes are read from nodes of the graph, and a known integer is none. -/
def Expr.ReadsNodes : Expr → Prop
  | lit _ | argument _ => True
  | binary _ l r => l.ReadsNodes ∧ r.ReadsNodes
  | byteIndex source key => source.isLiteral = false ∧ source.ReadsNodes ∧ key.ReadsNodes
  | byteSlice base start length =>
    base.isLiteral = false ∧ base.ReadsNodes ∧ start.ReadsNodes ∧ length.ReadsNodes

/-- The argument belongs to a frame that was laid out for some parameters. -/
def Argument.OfFrame (a : Argument) : Prop :=
  ∃ id tys slots, Slot.layout id 0 0 tys = .ok slots ∧ a ∈ (Frame.ofSlots slots).arguments

theorem Layout.ofFrame {id : FrameId} {tys : List Ty} {slots : List Slot} (h : Layout id 0 0 tys slots) :
    ∀ a ∈ slots.flatMap Slot.arguments, a.OfFrame :=
  fun _ ha => ⟨id, tys, slots, Slot.layout_eq_ok.2 h, ha⟩

/-- An expression over arguments of frames and over the integers of C's widest types. -/
structure Expr.Expressible (e : Expr) : Prop where
  nodes : e.ReadsNodes
  arguments : e.Over Argument.OfFrame
  literals : ∀ v ∈ e.literals, CExpr.InWidest v

theorem Argument.OfFrame.isIdentifier {a : Argument} (h : a.OfFrame) : isIdentifier a.name = true := by
  rcases h with ⟨id, tys, slots, hlayout, ha⟩
  have hsig := (Slot.layout_eq_ok.1 hlayout).signature
  exact hsig.identifier a ha

/-! ## Spelling -/

theorem CExpr.spelled_ofInt (v : Int) : (ofInt v).Spelled := (operand_ofInt v).1.spelled

/-- Every node but a name and a constant is written with its own marks around its parts. -/
theorem Expr.spelled_toC {e : Expr} (h : e.Over fun a => isIdentifier a.name = true) : e.toC.Spelled := by
  induction e with
  | lit v => exact CExpr.spelled_ofInt v
  | argument a => exact over_argument.1 h
  | binary op l r ihl ihr =>
    obtain ⟨hl, hr⟩ := over_binary.1 h
    exact ⟨ihl hl, ihr hr⟩
  | byteIndex source key ihs ihk =>
    obtain ⟨hs, hk⟩ := over_byteIndex.1 h
    exact ⟨ihs hs, ihk hk⟩
  | byteSlice base start length ihb ihs _ =>
    -- the length is not written
    obtain ⟨hb, hs, _⟩ := over_byteSlice.1 h
    unfold toC
    split
    · exact ihb hb
    · exact ⟨ihb hb, ihs hs⟩

/-! ## Reading back -/

namespace CExpr

/-- A tree that the reader takes for one operand and leaves as it is. -/
structure Settled (e : CExpr) : Prop where
  grouped : e.Grouped
  chain : e.chain = (e, [])

theorem Settled.reading {e : CExpr} (h : e.Settled) : e.reading = e := by
  unfold CExpr.reading
  rw [h.chain]
  rfl

theorem settled_name (id : String) : (name id).Settled := ⟨trivial, rfl⟩

theorem settled_constant (value : Nat) (ull : Bool) : (constant value ull).Settled := ⟨trivial, rfl⟩

theorem settled_negate (value : Nat) (ull : Bool) : (negate (constant value ull)).Settled := ⟨trivial, rfl⟩

theorem Settled.reading_binary {l r : CExpr} (hl : l.Settled) (hr : r.Settled) (op : Operator) :
    (CExpr.binary op l r).reading = CExpr.binary op l r := by
  have htight : l.RootTight op.level := by
    have hfirst := l.rootTight_chain op.level
    rwa [hl.chain] at hfirst
  rw [CExpr.reading_binary, hl.reading, hr.chain, attach_of_rootTight htight]
  rfl

/-- Between parentheses an operation of two operands is read as it was written, whatever its
operator is. -/
theorem Settled.parenthesized {l r : CExpr} (hl : l.Settled) (hr : r.Settled) (op : Operator) :
    (parenthesized op l r).Settled := by
  refine ⟨⟨hl.grouped, hr.grouped⟩, ?_⟩
  show (CExpr.paren (CExpr.binary op l r).reading, []) = _
  rw [hl.reading_binary hr]
  rfl

theorem Settled.paren_index {a k : CExpr} (ha : a.Settled) (hprimary : a.Primary) (hk : k.Settled) :
    (CExpr.paren (CExpr.index a k)).Settled := by
  refine ⟨⟨hprimary, ha.grouped, hk.grouped⟩, ?_⟩
  show (CExpr.paren (CExpr.index a.reading k.reading), []) = _
  rw [ha.reading, hk.reading]

theorem settled_ofInt (v : Int) : (ofInt v).Settled := by
  unfold ofInt
  split
  · exact settled_constant _ _
  · split
    · exact (settled_negate _ _).parenthesized (settled_constant _ _) Arith.sub
    · split
      · exact settled_negate _ _
      · exact settled_constant _ _

theorem tree?_ofInt {v : Int} (h : InWidest v) : (ofInt v).tree? = some (CTree.ofInt v) := by
  rcases h with ⟨hlow, hhigh⟩
  unfold ofInt CTree.ofInt
  by_cases hunsigned : v > longMax
  · -- beyond the signed type the constant is marked
    have hleast : ¬ v = -longMax - 1 := by omega
    have hneg : ¬ v < 0 := by omega
    have htype : HasType v.toNat true := by
      show v.toNat ≤ unsignedMax
      omega
    simp [hunsigned, hleast, hneg, tree?, htype]
  · by_cases hleast : v = -longMax - 1
    · rw [if_neg hunsigned, if_pos hleast, if_pos hleast]
      rfl
    · by_cases hneg : v < 0
      · have htype : HasType v.natAbs false := by
          show v.natAbs ≤ longMax
          omega
        simp [hunsigned, hleast, hneg, tree?, htype]
      · have htype : HasType v.toNat false := by
          show v.toNat ≤ longMax
          omega
        simp [hunsigned, hleast, hneg, tree?, htype]

end CExpr

namespace Expr

/-- What is no known integer is written as a name or between parentheses. -/
theorem primary_toC {e : Expr} (hnode : e.isLiteral = false) (h : e.ReadsNodes) : e.toC.Primary := by
  induction e with
  | lit v => cases hnode
  | argument a => trivial
  | binary op l r _ _ => trivial
  | byteIndex source key _ _ => trivial
  | byteSlice base start length ihb _ _ =>
    unfold toC
    split
    · exact ihb h.1 h.2.1
    · trivial

theorem settled_toC {e : Expr} (h : e.ReadsNodes) : e.toC.Settled := by
  induction e with
  | lit v => exact CExpr.settled_ofInt v
  | argument a => exact CExpr.settled_name a.name
  | binary op l r ihl ihr => exact (ihl h.1).parenthesized (ihr h.2) op
  | byteIndex source key ihs ihk =>
    rcases h with ⟨hnode, hsource, hkey⟩
    exact (ihs hsource).paren_index (primary_toC hnode hsource) (ihk hkey)
  | byteSlice base start length ihb ihs _ =>
    rcases h with ⟨_, hbase, hstart, _⟩
    unfold toC
    split
    · exact ihb hbase
    · exact (ihb hbase).parenthesized (ihs hstart) Arith.add

theorem tree?_toC {e : Expr} (h : ∀ v ∈ e.literals, CExpr.InWidest v) : e.toC.tree? = some e.erasure := by
  induction e with
  | lit v => exact CExpr.tree?_ofInt (h v (.head _))
  | argument a => rfl
  | binary op l r ihl ihr =>
    simp only [literals, List.mem_append, or_imp, forall_and] at h
    have hl := ihl h.1
    have hr := ihr h.2
    simp [toC, CExpr.parenthesized, CExpr.tree?, hl, hr, erasure]
  | byteIndex source key ihs ihk =>
    simp only [literals, List.mem_append, or_imp, forall_and] at h
    have hsource := ihs h.1
    have hkey := ihk h.2
    simp [toC, CExpr.tree?, hsource, hkey, erasure]
  | byteSlice base start length ihb ihs _ =>
    simp only [literals, List.mem_append, or_imp, forall_and] at h
    have hbase := ihb h.1.1
    have hstart := ihs h.1.2
    unfold toC erasure
    split
    · exact hbase
    · simp [CExpr.parenthesized, CExpr.tree?, hbase, hstart]

theorem Expressible.read {e : Expr} (h : e.Expressible) : CTree.read e.render = some e.erasure := by
  have hspelled : e.toC.Spelled := spelled_toC fun a ha => (h.arguments a ha).isIdentifier
  have hsettled := settled_toC h.nodes
  have hparse : CExpr.parse e.toC.text = some e.toC := by
    rw [CExpr.parse_text hspelled hsettled.grouped, hsettled.reading]
  unfold CTree.read render
  rw [hparse]
  exact tree?_toC h.literals

/-- A byte of a slice is compared with the greatest integer of C, at a position that takes the least
one. -/
def extremes : Expr :=
  let array : Argument := ⟨0, "arg_0", .byteArray ⟨.w32, false⟩, 0⟩
  let size : Argument := ⟨1, "arg_0_len", .integer ⟨.w32, false⟩, 0⟩
  .binary Comparison.eq
    (.byteIndex (.byteSlice (.argument array) (.lit 2) (.lit 8))
      (.binary Arith.sub (.argument size) (.lit (-9223372036854775808))))
    (.lit 18446744073709551615)

end Expr

end GuardedC
