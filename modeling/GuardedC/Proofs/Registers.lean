import GuardedC.Proofs.ByteViews
import GuardedC.Proofs.Returns
import GuardedC.Script

/-!
# Invariants of registers

Every value that a script computes is built from its parameters by a handful of operations. A
property of values that these operations keep therefore holds of every register. `Closed` says what
there is to show, and `Op.keeps` that it is enough.

The operations assert conditions, and what they compute may be as it should only where these hold.
So a property is kept under an assumption `H` on the conditions, and `Provided.Keeps` carries both
along.

`SortedClosed` is the same for a property of integers and a property of conditions that differ;
checked operations keep the two apart (`Op.keeps_sorted`).
-/

namespace GuardedC

/-! ## Properties of values -/

def Cond.All (I : Expr → Prop) : Cond → Prop
  | known _ => True
  | symbolic e => I e

/-- A property for each kind of value: integers, conditions and byte views. -/
def Value.Sorted (I C : Expr → Prop) (B : Bytes → Prop) : Value → Prop
  | nothing => True
  | int e => I e
  | bytes b => B b
  | cond c => c.All C

/-- One property for integers and conditions. -/
abbrev Value.All (I : Expr → Prop) (B : Bytes → Prop) : Value → Prop := Value.Sorted I I B

theorem Value.Sorted.imp {I I' C C' : Expr → Prop} {B B' : Bytes → Prop} {v : Value} (h : v.Sorted I C B)
    (hI : ∀ e, I e → I' e) (hC : ∀ e, C e → C' e) (hB : ∀ b, B b → B' b) : v.Sorted I' C' B' := by
  cases v with
  | nothing => trivial
  | int e => exact hI e h
  | bytes b => exact hB b h
  | cond c =>
    cases c with
    | known b => trivial
    | symbolic e => exact hC e h

/-- What has to be shown of a property of expressions and a property of byte views, for values made
by checked operations. -/
structure Closed (H : Cond → Prop) (I : Expr → Prop) (B : Bytes → Prop) : Prop where
  lit : ∀ v, I (.lit v)
  binary : ∀ {op l r}, I l → I r → I (.binary op l r)
  arrayLength : ∀ {b}, B b → I b.arrayLength
  bounds : ∀ {b}, B b → I b.start ∧ I b.length
  byteAt : ∀ {b key}, B b → I (b.position key) → (∀ c ∈ (b.byteAt key).conditions, H c) →
    I (b.byteAt key).value
  slice : ∀ {b start stop}, B b → I (b.slice start stop).value.start →
    I (b.slice start stop).value.length → (∀ c ∈ (b.slice start stop).conditions, H c) →
      B (b.slice start stop).value

/-- What has to be shown of a property of integers, one of conditions and one of byte views, for
values made by checked operations. -/
structure SortedClosed (H : Cond → Prop) (I C : Expr → Prop) (B : Bytes → Prop) : Prop where
  lit : ∀ v, I (.lit v)
  arith : ∀ {op l r}, I l → I r → I (.arith op l r)
  compare : ∀ {op l r}, I l → I r → (l.compare op r).All C
  connect : ∀ {op : Connective} {l r}, C l → C r → C (.binary op l r)
  arrayLength : ∀ {b}, B b → I b.arrayLength
  bounds : ∀ {b}, B b → I b.start ∧ I b.length
  byteAt : ∀ {b key}, B b → I (b.position key) → (∀ c ∈ (b.byteAt key).conditions, H c) →
    I (b.byteAt key).value
  slice : ∀ {b start stop}, B b → I (b.slice start stop).value.start →
    I (b.slice start stop).value.length → (∀ c ∈ (b.slice start stop).conditions, H c) →
      B (b.slice start stop).value

/-- What has to be shown for nodes made by hand. -/
structure ClosedRaw (I : Expr → Prop) (B : Bytes → Prop) : Prop where
  expr : ∀ {b}, B b → I b.expr
  byteIndex : ∀ {source key}, I source → I key → I (.byteIndex source key)
  byteSlice : ∀ {base start length}, I base → I start → I length → I (.byteSlice base start length)

/-- If the conditions are met, they are of the right kind, and so is the value. -/
def Provided.Keeps {α : Type} (H : Cond → Prop) (C : Expr → Prop) (Q : α → Prop) (x : Provided α) : Prop :=
  (∀ c ∈ x.conditions, H c) → (∀ c ∈ x.conditions, c.All C) ∧ Q x.value

section

variable {H : Cond → Prop} {I C : Expr → Prop} {B : Bytes → Prop} {α β : Type}

namespace Provided

theorem Keeps.pure {Q : α → Prop} {a : α} (h : Q a) : (Pure.pure a : Provided α).Keeps H C Q :=
  fun _ => ⟨by simp, h⟩

theorem Keeps.bind {P : α → Prop} {Q : β → Prop} {x : Provided α} {f : α → Provided β}
    (hx : x.Keeps H C P) (hf : ∀ a, P a → (f a).Keeps H C Q) : (x >>= f).Keeps H C Q := by
  intro hH
  simp only [conditions_bind, List.mem_append, or_imp, forall_and] at hH ⊢
  obtain ⟨hfirst, hvalue⟩ := hx hH.1
  obtain ⟨hsecond, hresult⟩ := hf x.value hvalue hH.2
  exact ⟨⟨hfirst, hsecond⟩, hresult⟩

theorem Keeps.map {P : α → Prop} {Q : β → Prop} {x : Provided α} {g : α → β} (hx : x.Keeps H C P)
    (hg : ∀ a, P a → Q (g a)) : (g <$> x).Keeps H C Q :=
  hx.bind fun a ha => Keeps.pure (hg a ha)

end Provided

namespace SortedClosed

variable (h : SortedClosed H I C B)

include h

/-! ## Expressions and conditions -/

/-- A known condition decides a connective or leaves it to the other one. -/
theorem connectCond (op : Connective) {c d : Cond} (hc : c.All C) (hd : d.All C) :
    (Cond.connect op c d).All C := by
  cases op with
  | and =>
    show (Cond.and c d).All C
    unfold Cond.and
    split
    · trivial
    · trivial
    · exact hd
    · exact hc
    · exact h.connect hc hd
  | or =>
    show (Cond.or c d).All C
    unfold Cond.or
    split
    · trivial
    · trivial
    · exact hd
    · exact hc
    · exact h.connect hc hd

theorem shift {e offset : Expr} (he : I e) (ho : I offset) : I (e.shift offset) := by
  unfold Expr.shift
  split
  · exact he
  · exact h.arith he ho

/-! ## Byte views -/

variable {b : Bytes} (hb : B b)

include hb

theorem length : I b.length := (h.bounds hb).2

theorem position {e : Expr} (he : I e) : I (b.position e) := by
  unfold Bytes.position
  split
  · exact h.shift he (h.bounds hb).1
  · exact he

omit hb in
theorem keyInside {key size : Expr} (hkey : I key) (hsize : I size) :
    ∀ c ∈ Bytes.keyInside key size, c.All C := by
  simp only [Bytes.keyInside, List.mem_cons, List.not_mem_nil, or_false, forall_eq_or_imp, forall_eq]
  exact ⟨h.compare hkey (h.lit 0), h.compare hkey hsize⟩

omit hb in
theorem partInside {start stop size : Expr} (hstart : I start) (hstop : I stop) (hsize : I size) :
    ∀ c ∈ Bytes.partInside start stop size, c.All C := by
  simp only [Bytes.partInside, List.mem_cons, List.not_mem_nil, or_false, forall_eq_or_imp, forall_eq]
  exact ⟨h.compare hstart (h.lit 0), h.compare hstop hstart, h.compare hstop hsize⟩

theorem keeps_byteAt {key : Expr} (hkey : I key) : (b.byteAt key).Keeps H C I := by
  intro hH
  refine ⟨?_, h.byteAt hb (h.position hb hkey) hH⟩
  intro c hc
  rcases List.mem_append.1 hc with hc | hc
  · exact h.keyInside hkey (h.length hb) c hc
  · split at hc
    · exact h.keyInside (h.position hb hkey) (h.arrayLength hb) c hc
    · cases hc

theorem keeps_slice {start stop : Expr} (hstart : I start) (hstop : I stop) :
    (b.slice start stop).Keeps H C B := by
  intro hH
  have hfirst := h.position hb hstart
  have hlast := h.position hb hstop
  refine ⟨?_, h.slice hb hfirst (h.arith hlast hfirst) hH⟩
  intro c hc
  rcases List.mem_append.1 hc with hc | hc
  · exact h.partInside hstart hstop (h.length hb) c hc
  · split at hc
    · exact h.partInside hfirst hlast (h.arrayLength hb) c hc
    · cases hc

/-- The bytes are read one after the other; the condition on those before is carried along. -/
theorem keeps_eqBytesFrom {bytes : List UInt8} {i : Nat} {all : Cond} (hall : all.All C) :
    (b.eqBytesFrom i all bytes).Keeps H C (Cond.All C) := by
  induction bytes generalizing i all with
  | nil => exact .pure hall
  | cons byte bytes ih =>
    refine (h.keeps_byteAt hb (h.lit i)).bind ?_
    intro read hread
    exact ih (h.connectCond .and hall (h.compare hread (h.lit byte.toNat)))

theorem keeps_eqBytes (bytes : List UInt8) : (b.eqBytes bytes).Keeps H C (Cond.All C) := by
  have hlength : (⟨[b.length.compare .eq (.lit bytes.length)], ()⟩ : Provided Unit).Keeps H C
      fun _ => True := by
    intro _
    simp only [List.mem_singleton, forall_eq, and_true]
    exact h.compare (h.length hb) (h.lit _)
  exact hlength.bind fun _ _ => h.keeps_eqBytesFrom hb trivial

omit hb in
theorem keeps_readHalves {order : ByteOrder} {size : Nat} {read : Expr → Provided Expr}
    (hread : ∀ e, I e → (read e).Keeps H C I) {offset : Expr} (ho : I offset) :
    (Bytes.readHalves order size read offset).Keeps H C I := by
  have hafter : I (.arith .add offset (.lit size)) := h.arith ho (h.lit _)
  have hword : ∀ low, I low → ∀ high, I high →
      (pure (Expr.arith .bitOr low (.arith .shl high (.lit (8 * size)))) : Provided Expr).Keeps H C I :=
    fun low hlow high hhigh => .pure (h.arith hlow (h.arith hhigh (h.lit _)))
  cases order with
  | little => exact (hread _ ho).bind fun low hlow => (hread _ hafter).bind (hword low hlow)
  | big => exact (hread _ hafter).bind fun low hlow => (hread _ ho).bind (hword low hlow)

theorem keeps_read (what : Script.Read) {offset : Expr} (ho : I offset) :
    (what.eval b offset).Keeps H C I := by
  have hbyte : ∀ e, I e → (b.byteAt e).Keeps H C I := fun e he => h.keeps_byteAt hb he
  have hword16 : ∀ order e, I e → (b.read16 order e).Keeps H C I :=
    fun _ _ he => h.keeps_readHalves hbyte he
  have hword32 : ∀ order e, I e → (b.read32 order e).Keeps H C I :=
    fun order _ he => h.keeps_readHalves (hword16 order) he
  cases what with
  | byte => exact hbyte offset ho
  | word16 order => exact hword16 order offset ho
  | word32 order => exact hword32 order offset ho
  | word64 order => exact h.keeps_readHalves (hword32 order) ho

end SortedClosed

namespace Closed

theorem arith (h : Closed H I B) {op : Arith} {l r : Expr} (hl : I l) (hr : I r) : I (.arith op l r) := by
  unfold Expr.arith
  split
  · cases op.eval? _ _ with
    | none => exact h.binary hl hr
    | some v => exact h.lit v
  · exact h.binary hl hr

theorem compare (h : Closed H I B) {op : Comparison} {l r : Expr} (hl : I l) (hr : I r) :
    (l.compare op r).All I := by
  unfold Expr.compare
  split
  · trivial
  · exact h.binary hl hr

/-- Integers and conditions may have the same property. -/
theorem sorted (h : Closed H I B) : SortedClosed H I I B where
  lit := h.lit
  arith := h.arith
  compare := h.compare
  connect := h.binary
  arrayLength := h.arrayLength
  bounds := h.bounds
  byteAt := h.byteAt
  slice := h.slice

end Closed

end

theorem Cond.known_of_decided {c : Cond} {b : Bool} (h : c.decided = .ok b) : c = .known b := by
  cases c with
  | known b' =>
    cases h
    rfl
  | symbolic e => cases h

/-! ## Operations -/

namespace Script

/-- An operation that builds no node by hand. -/
def Op.isChecked : Op → Bool
  | asInt _ | asCond _ | rawBinary _ _ _ | rawIndex _ _ | rawSlice _ _ _ => false
  | _ => true

/-- A value of the right kind, or none that a register could hold. -/
def Answer.All (V : Value → Prop) : Answer → Prop
  | .value v => V v
  | .truth _ => True
  | _ => False

/-- Everything that an operation can refer to is of the right kind. -/
structure Env.All (V : Value → Prop) (env : Env) (s : Session) : Prop where
  registers : ∀ v, some v ∈ env.registers → V v
  params : ∀ source ps, env.params s source = .ok ps → ∀ p ∈ ps, V p.toValue

/-! ### What an operation looks at -/

def IntArg.registers : IntArg → List Nat
  | lit _ => []
  | register n => [n]

def CondArg.registers : CondArg → List Nat
  | known _ => []
  | register n => [n]

/-- The registers that an operation looks at. Of two integers to select from it is one. -/
def Op.registers (env : Env) : Op → List Nat
  | int _ _ | bytes _ _ | param _ _ | lit _ => []
  | arith _ l r | compare _ l r | rawBinary _ l r => l.registers ++ r.registers
  | cond c | assert c | decide c => c.registers
  | connect _ l r => l.registers ++ r.registers
  | select c yes no =>
    c.registers ++
      match env.cond c with
      | .ok (.known b) => (if b then yes else no).registers
      | _ => []
  | length view | eqBytes view _ => [view]
  | read _ view offset => view :: offset.registers
  | slice view start stop _ => view :: (start.registers ++ stop.registers)
  | eqView l r => [l, r]
  | asInt arg | asCond arg => [arg]
  | rawIndex source key => source :: key.registers
  | rawSlice base start size => base :: (start.registers ++ size.registers)

/-- Whose parameters an operation looks at. -/
def Op.source? : Op → Option Source
  | int _ source | bytes _ source | param _ source => some source
  | _ => none

/-- Of the session, an operation looks at the parameters of its source only. -/
theorem Op.eval_congr {env : Env} {s s' : Session} {o : Op}
    (h : ∀ source, o.source? = some source → env.params s source = env.params s' source) :
    o.eval env s = o.eval env s' := by
  cases o with
  | int index source => simp only [Op.eval, h source rfl]
  | bytes index source => simp only [Op.eval, h source rfl]
  | param index source => simp only [Op.eval, h source rfl]
  | _ => rfl

/-- The registers hold values of the right kind, as far as they hold any. -/
def Env.AllAt (V : Value → Prop) (env : Env) (ns : List Nat) : Prop :=
  ∀ n ∈ ns, ∀ v, env.value n = .ok v → V v

/-- What an operation looks at is of the right kind. -/
structure Op.Sees (V : Value → Prop) (env : Env) (s : Session) (o : Op) : Prop where
  registers : env.AllAt V (o.registers env)
  params : ∀ source, o.source? = some source → ∀ ps, env.params s source = .ok ps → ∀ p ∈ ps, V p.toValue

section

variable {H : Cond → Prop} {I C : Expr → Prop} {B : Bytes → Prop} {V : Value → Prop} {env : Env}
  {s : Session}

theorem Env.value_eq_ok {n : Nat} {v : Value} : env.value n = .ok v ↔ env.registers[n]?.join = some v := by
  unfold Env.value
  cases env.registers[n]?.join <;> simp

theorem Env.mem_registers_of_value {n : Nat} {v : Value} (h : env.value n = .ok v) :
    some v ∈ env.registers :=
  List.mem_of_getElem? (Option.join_eq_some_iff.1 (Env.value_eq_ok.1 h))

/-- One more register changes nothing for those before it. -/
theorem Env.forall_registers_push (h : ∀ v, some v ∈ env.registers → V v) {x : Option Value}
    (hx : ∀ v, x = some v → V v) : ∀ v, some v ∈ env.registers ++ [x] → V v := by
  intro v hv
  rcases List.mem_append.1 hv with hv | hv
  · exact h v hv
  · exact hx v (List.mem_singleton.1 hv).symm

/-- Parameters are those given, or those of a frame that has a number. -/
theorem Env.of_params_ok {source : Source} {ps : Params} (h : env.params s source = .ok ps) :
    (source = .given ∧ env.given = some ps) ∨
      ∃ number j f, source = .frame number ∧ env.frames[number]? = some j ∧ s.frame? j = some f ∧
        ps = f.params := by
  cases source with
  | given =>
    simp only [Env.params] at h
    split at h
    · rename_i given hgiven
      cases h
      exact .inl ⟨rfl, hgiven⟩
    · cases h
  | frame number =>
    simp only [Env.params, Env.frame, except_bind_ok, except_pure_ok] at h
    rcases h with ⟨f, hf, rfl⟩
    split at hf
    · rename_i g hg
      cases hf
      rcases Option.bind_eq_some_iff.1 hg with ⟨j, hj, hframe⟩
      exact .inr ⟨number, j, f, rfl, hj, hframe, rfl⟩
    · cases hf

theorem Env.All.sees (henv : env.All V s) (o : Op) : o.Sees V env s where
  registers _ _ v hv := henv.registers v (mem_registers_of_value hv)
  params source _ := henv.params source

namespace Env.AllAt

theorem append {ns ms : List Nat} (h : env.AllAt V (ns ++ ms)) : env.AllAt V ns ∧ env.AllAt V ms :=
  List.forall_mem_append.1 h

theorem cons {n : Nat} {ns : List Nat} (h : env.AllAt V (n :: ns)) : env.AllAt V [n] ∧ env.AllAt V ns :=
  append h

theorem value {n : Nat} (hn : env.AllAt V [n]) {v : Value} (h : env.value n = .ok v) : V v :=
  hn n (.head _) v h

theorem int {a : IntArg} (ha : env.AllAt (Value.Sorted I C B) a.registers) (hlit : ∀ v, I (.lit v))
    {e : Expr} (h : env.int a = .ok e) : I e := by
  cases a with
  | lit v =>
    cases h
    exact hlit v
  | register n =>
    simp only [Env.int, except_bind_ok] at h
    obtain ⟨v, hv, he⟩ := h
    have hall := ha.value hv
    cases v with
    | int e' =>
      cases he
      exact hall
    | _ => cases he

theorem cond {a : CondArg} (ha : env.AllAt (Value.Sorted I C B) a.registers) {c : Cond}
    (h : env.cond a = .ok c) : c.All C := by
  cases a with
  | known b =>
    cases h
    trivial
  | register n =>
    simp only [Env.cond, except_bind_ok] at h
    obtain ⟨v, hv, hc⟩ := h
    have hall := ha.value hv
    cases v with
    | cond c' =>
      cases hc
      exact hall
    | _ => cases hc

theorem bytes {n : Nat} (hn : env.AllAt (Value.Sorted I C B) [n]) {b : Bytes}
    (h : env.bytes n = .ok b) : B b := by
  simp only [Env.bytes, except_bind_ok] at h
  obtain ⟨v, hv, hb⟩ := h
  have hall := hn.value hv
  cases v with
  | bytes b' =>
    cases hb
    exact hall
  | _ => cases hb

theorem node {n : Nat} (hn : env.AllAt (Value.All I B) [n]) (hraw : ClosedRaw I B) {e : Expr}
    (h : env.node n = .ok e) : I e := by
  simp only [Env.node, except_bind_ok] at h
  obtain ⟨v, hv, he⟩ := h
  have hall := hn.value hv
  split at he
  · rename_i e' hnode
    cases he
    cases v with
    | nothing => cases hnode
    | int e' =>
      simp only [Value.node?] at hnode
      split at hnode
      · cases hnode
      · cases hnode
        exact hall
    | bytes b =>
      cases hnode
      exact hraw.expr hall
    | cond c =>
      cases c with
      | known b => cases hnode
      | symbolic e' =>
        cases hnode
        exact hall
  · cases he

end Env.AllAt

theorem getElem?_of_param {ps : Params} {index : Nat} {q : Param} (h : ps.param index = .ok q) :
    ps[index]? = some q := by
  unfold Params.param at h
  split at h
  · rename_i found hfound
    cases h
    exact hfound
  · cases h

theorem param_mem {ps : Params} {index : Nat} {p : Param} (h : ps.param index = .ok p) : p ∈ ps :=
  List.mem_of_getElem? (getElem?_of_param h)

theorem int_mem {ps : Params} {index : Nat} {e : Expr} (h : ps.int index = .ok e) : .int e ∈ ps := by
  simp only [Params.int, except_bind_ok] at h
  obtain ⟨p, hp, he⟩ := h
  cases p with
  | int e' =>
    cases he
    exact param_mem hp
  | bytes b => cases he

theorem getElem?_of_bytes {ps : Params} {index : Nat} {b : Bytes} (h : ps.bytes index = .ok b) :
    ps[index]? = some (.bytes b) := by
  simp only [Params.bytes, except_bind_ok] at h
  rcases h with ⟨q, hq, hb⟩
  cases q with
  | int e => cases hb
  | bytes b' =>
    cases hb
    exact getElem?_of_param hq

theorem bytes_mem {ps : Params} {index : Nat} {b : Bytes} (h : ps.bytes index = .ok b) : .bytes b ∈ ps :=
  List.mem_of_getElem? (getElem?_of_bytes h)

/-- Values made by checked operations are of the right kind, and so are the conditions that are
asserted. -/
theorem Op.keeps_sorted (hclosed : SortedClosed H I C B) {o : Op} (ho : o.isChecked = true)
    (hsees : o.Sees (Value.Sorted I C B) env s) {result : Provided Answer} (h : o.eval env s = .ok result) :
    result.Keeps H C (Answer.All (Value.Sorted I C B)) := by
  have hall := hsees.registers
  cases o with
  | int index source =>
    simp only [Op.eval, except_bind_ok, except_pure_ok, except_mapError_ok] at h
    obtain ⟨ps, hps, e, he, rfl⟩ := h
    exact .pure (hsees.params source rfl ps hps _ (int_mem he))
  | bytes index source =>
    simp only [Op.eval, except_bind_ok, except_pure_ok, except_mapError_ok] at h
    obtain ⟨ps, hps, b, hb, rfl⟩ := h
    exact .pure (hsees.params source rfl ps hps _ (bytes_mem hb))
  | param index source =>
    simp only [Op.eval, except_bind_ok, except_pure_ok, except_mapError_ok] at h
    obtain ⟨ps, hps, p, hp, rfl⟩ := h
    exact .pure (hsees.params source rfl ps hps _ (param_mem hp))
  | lit v =>
    cases h
    exact .pure (hclosed.lit v)
  | arith op lhs rhs =>
    simp only [Op.eval, except_bind_ok, except_pure_ok] at h
    obtain ⟨l, hl, r, hr, rfl⟩ := h
    obtain ⟨hlhs, hrhs⟩ := Env.AllAt.append hall
    exact .pure (hclosed.arith (hlhs.int hclosed.lit hl) (hrhs.int hclosed.lit hr))
  | compare op lhs rhs =>
    simp only [Op.eval, except_bind_ok, except_pure_ok] at h
    obtain ⟨l, hl, r, hr, rfl⟩ := h
    obtain ⟨hlhs, hrhs⟩ := Env.AllAt.append hall
    exact .pure (hclosed.compare (hlhs.int hclosed.lit hl) (hrhs.int hclosed.lit hr))
  | cond arg =>
    simp only [Op.eval, except_bind_ok, except_pure_ok] at h
    obtain ⟨c, hc, rfl⟩ := h
    exact .pure (Env.AllAt.cond hall hc)
  | connect op lhs rhs =>
    simp only [Op.eval, except_bind_ok, except_pure_ok] at h
    obtain ⟨l, hl, r, hr, rfl⟩ := h
    obtain ⟨hlhs, hrhs⟩ := Env.AllAt.append hall
    exact .pure (hclosed.connectCond op (hlhs.cond hl) (hrhs.cond hr))
  | assert arg =>
    simp only [Op.eval, except_bind_ok, except_pure_ok] at h
    obtain ⟨c, hc, rfl⟩ := h
    intro _
    exact ⟨by simpa using Env.AllAt.cond hall hc, trivial⟩
  | decide arg =>
    simp only [Op.eval, except_bind_ok, except_pure_ok, except_mapError_ok] at h
    obtain ⟨c, _, b, _, rfl⟩ := h
    exact .pure trivial
  | select arg yes no =>
    simp only [Op.eval, except_bind_ok, except_pure_ok, except_mapError_ok] at h
    obtain ⟨c, hc, b, hb, e, he, rfl⟩ := h
    -- only the integer that is selected was looked at
    rw [Cond.known_of_decided hb] at hc
    simp only [Op.registers, hc] at hall
    exact .pure (hall.append.2.int hclosed.lit he)
  | length view =>
    simp only [Op.eval, except_bind_ok, except_pure_ok] at h
    obtain ⟨b, hb, rfl⟩ := h
    exact .pure (hclosed.length (Env.AllAt.bytes hall hb))
  | read what view offset =>
    simp only [Op.eval, except_bind_ok, except_pure_ok] at h
    obtain ⟨b, hb, e, he, rfl⟩ := h
    obtain ⟨hview, hoffset⟩ := Env.AllAt.cons hall
    exact (hclosed.keeps_read (hview.bytes hb) what (hoffset.int hclosed.lit he)).map fun _ hword => hword
  | slice view start stop step =>
    simp only [Op.eval, except_bind_ok, except_pure_ok, except_mapError_ok] at h
    obtain ⟨b, hb, first, hfirst, last, hlast, part, hpart, rfl⟩ := h
    obtain ⟨hview, hbounds⟩ := Env.AllAt.cons hall
    obtain ⟨hstart, hstop⟩ := hbounds.append
    unfold Bytes.sliceStep at hpart
    split at hpart
    · cases hpart
      have hslice := hclosed.keeps_slice (hview.bytes hb) (hstart.int hclosed.lit hfirst)
        (hstop.int hclosed.lit hlast)
      exact hslice.map fun _ hview => hview
    · cases hpart
  | eqBytes view wanted =>
    simp only [Op.eval, except_bind_ok, except_pure_ok] at h
    obtain ⟨b, hb, rfl⟩ := h
    exact (hclosed.keeps_eqBytes (Env.AllAt.bytes hall hb) wanted).map fun _ hcond => hcond
  | eqView lhs rhs =>
    simp only [Op.eval, except_bind_ok, except_mapError_ok] at h
    obtain ⟨_, _, _, _, _, hview, _⟩ := h
    cases hview
  | _ => cases ho

/-- The same for all operations. Nodes made by hand need more than those that are checked. -/
theorem Op.keeps_seen (hclosed : Closed H I B) {o : Op} (ho : o.isChecked = true ∨ ClosedRaw I B)
    (hsees : o.Sees (Value.All I B) env s) {result : Provided Answer} (h : o.eval env s = .ok result) :
    result.Keeps H I (Answer.All (Value.All I B)) := by
  rcases ho with hchecked | hraw
  · exact keeps_sorted hclosed.sorted hchecked hsees h
  have hall := hsees.registers
  cases o with
  | asInt arg =>
    simp only [Op.eval, except_bind_ok, except_pure_ok] at h
    obtain ⟨e, he, rfl⟩ := h
    exact .pure (Env.AllAt.node hall hraw he)
  | asCond arg =>
    simp only [Op.eval, except_bind_ok, except_pure_ok] at h
    obtain ⟨e, he, rfl⟩ := h
    exact .pure (Env.AllAt.node hall hraw he)
  | rawBinary op lhs rhs =>
    simp only [Op.eval, except_bind_ok, except_pure_ok] at h
    obtain ⟨l, hl, r, hr, rfl⟩ := h
    obtain ⟨hlhs, hrhs⟩ := Env.AllAt.append hall
    exact .pure (hclosed.binary (hlhs.int hclosed.lit hl) (hrhs.int hclosed.lit hr))
  | rawIndex source key =>
    simp only [Op.eval, except_bind_ok, except_pure_ok] at h
    obtain ⟨e, he, k, hk, rfl⟩ := h
    obtain ⟨hsource, hkey⟩ := Env.AllAt.cons hall
    exact .pure (hraw.byteIndex (hsource.node hraw he) (hkey.int hclosed.lit hk))
  | rawSlice base start size =>
    simp only [Op.eval, except_bind_ok, except_pure_ok] at h
    obtain ⟨e, he, first, hfirst, n, hn, rfl⟩ := h
    obtain ⟨hbase, hbounds⟩ := Env.AllAt.cons hall
    obtain ⟨hstart, hsize⟩ := hbounds.append
    exact .pure (hraw.byteSlice (hbase.node hraw he) (hstart.int hclosed.lit hfirst)
      (hsize.int hclosed.lit hn))
  | _ => exact keeps_sorted hclosed.sorted rfl hsees h

theorem Op.keeps (hclosed : Closed H I B) {o : Op} (ho : o.isChecked = true ∨ ClosedRaw I B)
    (henv : env.All (Value.All I B) s) {result : Provided Answer} (h : o.eval env s = .ok result) :
    result.Keeps H I (Answer.All (Value.All I B)) :=
  keeps_seen hclosed ho (henv.sees o) h

end

end Script

end GuardedC
