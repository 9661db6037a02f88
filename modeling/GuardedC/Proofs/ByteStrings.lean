import GuardedC.Proofs.Conjuncts
import GuardedC.Proofs.Words

/-!
# Comparing views with byte strings

A view is compared with known bytes one byte after the other, and the comparisons are joined to one
condition.

* `Reached.backing`: in every state of a script, a window whose bounds lead to no other frame lies
  in its array wherever the facts of this frame hold. A slice may have been taken long ago, but what
  it asserted is still there.
* `decides_eqBytesFrom`: where all the bytes can be read, the condition is true or false, and it is
  true exactly if the view goes on with the bytes in question.
* `entries?_eqBytesFrom`: what asserting the condition records, one complex fact for each byte.

`eqBytes_decides` puts them together.
-/

namespace GuardedC

/-! ## Windows lie in their arrays -/

section

variable {P : Argument → Prop} {s s₁ : Session} {σ : Assignment} {id : FrameId} {f : Frame}
  {es : List FrameEntry}

/-- An operation has the arguments of its operands, also where it was carried out: then there are
none. -/
theorem Expr.over_of_arith {op : Arith} {l r : Expr} (h : (Expr.arith op l r).Over P) :
    l.Over P ∧ r.Over P := by
  rcases Expr.arith_cases op l r with ⟨a, b, _, rfl, rfl, _⟩ | hbinary
  · exact ⟨Expr.over_lit a, Expr.over_lit b⟩
  · rw [hbinary] at h
    exact Expr.over_binary.1 h

theorem Frame.FactsHold.of_enterAll (h : (f.enterAll es).FactsHold σ) : f.FactsHold σ := by
  constructor
  · intro a ha fact hfact
    apply h.facts a
    · rw [f.arguments_enterAll]
      exact ha
    · rw [f.factsAt_enterAll]
      exact List.mem_append_left _ hfact
  · intro fact hfact
    apply h.complex
    rw [f.complex_enterAll]
    exact List.mem_append_left _ hfact

/-- A condition on one frame holds wherever the facts of the frame do. -/
def Session.Enforces (s : Session) (c : Cond) : Prop :=
  ∀ id f σ, s.frame? id = some f → f.FactsHold σ → c.All (Expr.Over fun a => a.frame = id) → c.Holds σ

/-- Conditions that were asserted are enforced from then on, each by what it left in its own
frame. -/
theorem Session.Laid.enforces {cs : List Cond} (hs : s.Laid) (hcs : ∀ c ∈ cs, c.All (Expr.Over s.Issued))
    (hes : entriesOf? cs = some es) (hholding : s.Holding es) : ∀ c ∈ cs, (s.enterAll es).Enforces c := by
  intro c hc id f' σ hf' hfacts hover
  rcases mem_entriesOf? hes hc with ⟨xs, hxs, hsub⟩
  have hissued : ∀ x ∈ es, s.Issued x.argument := recorded_over.of_entries hcs hes
  have hown : ∀ x ∈ xs, x.argument.frame = id := by
    have hone : entriesOf? [c] = some xs := by simp [entriesOf?, hxs]
    exact (recorded_over (P := fun a => a.frame = id)).of_entries (by simpa using hover) hone
  rw [Cond.holds_iff_entries hxs]
  intro x hx
  rcases Option.isSome_iff_exists.1 (hholding x (hsub hx)) with ⟨f, hf⟩
  rw [hown x hx] at hf
  exact (hs.newFactsHold_frame hissued hf hf').1 (hfacts.newFactsHold _) x (hsub hx) (hown x hx)

/-- A window whose bounds lead to no other frame lies in its array, wherever the facts of the frame
hold. -/
structure Bytes.Backed (s : Session) (b : Bytes) : Prop where
  consistent : b.Consistent
  inside : b.isWindow = true → b.Over (fun a => a.frame = b.source.frame) →
    ∀ f σ, s.frame? b.source.frame = some f → f.FactsHold σ →
      ∃ start length, b.start.eval? σ = some start ∧ b.length.eval? σ = some length ∧
        0 ≤ start ∧ 0 ≤ length ∧ start + length ≤ σ.value b.sourceLength

abbrev Session.Backs (s : Session) : Value → Prop := Value.All (fun _ => True) (Bytes.Backed s)

/-- The checks against the array are all that is needed, so it does not matter what is known of the
view that the slice is taken of. -/
theorem closed_backed : Closed s.Enforces (fun _ => True) (Bytes.Backed s) where
  lit _ := trivial
  binary _ _ := trivial
  arrayLength _ := trivial
  bounds _ := ⟨trivial, trivial⟩
  byteAt _ _ _ := trivial
  slice {b start stop} hb _ _ hH := by
    refine ⟨hb.consistent.slice _ _, ?_⟩
    intro _ hown f σ hf hfacts
    have hfirst : (b.position start).Over fun a => a.frame = b.source.frame := hown.start
    have hlast : (b.position stop).Over fun a => a.frame = b.source.frame :=
      (Expr.over_of_arith hown.length).1
    have hsize : b.arrayLength.Over fun a => a.frame = b.source.frame := hown.arrayLength
    have hholds : ∀ c ∈ Bytes.partInside (b.position start) (b.position stop) b.arrayLength, c.Holds σ := by
      intro c hc
      apply hH c (hb.consistent.partInside_subset start stop hc) b.source.frame f σ hf hfacts
      exact closed_over.sorted.partInside hfirst hlast hsize c hc
    rcases holds_partInside hholds with ⟨x, y, n, hx, hy, hn, hlow, horder, hhigh⟩
    rw [hb.consistent.arrayLength, Expr.eval?_argument, Option.some.injEq] at hn
    subst hn
    refine ⟨x, y - x, hx, Expr.eval?_arith_sub hy hx, hlow, ?_, ?_⟩
    · omega
    · show x + (y - x) ≤ σ.value b.sourceLength
      omega

/-- Facts are only added to, so what they say stays true. -/
theorem Session.Backs.mono {v : Value} (h : s.Backs v) (hv : s.Offers v) (hgrows : s.Grows s₁) :
    s₁.Backs v := by
  cases v with
  | bytes b =>
    refine ⟨h.consistent, ?_⟩
    intro hwindow hown f' σ hf' hfacts
    rcases hgrows.frame b.source.frame hv.issued_source.made f' hf' with ⟨f, es, hf, rfl⟩
    exact h.inside hwindow hown f σ hf hfacts.of_enterAll
  | cond c => cases c <;> trivial
  | _ => trivial

/-- A whole array has no window. -/
theorem Param.In.backs {args : List Argument} {p : Param} (h : p.In args) : s.Backs p.toValue := by
  cases p with
  | int e => trivial
  | bytes b =>
    rcases h with ⟨data, size, _, rfl⟩
    exact ⟨Bytes.consistent_array data size, by simp⟩

theorem Session.Laid.params_in (hs : s.Laid) (hf : s.frame? id = some f) :
    ∀ p ∈ f.params, ∃ args, p.In args := by
  intro p hp
  rcases hs id f hf with ⟨tys, slots, es, hlayout, rfl⟩
  rw [Frame.params_enterAll] at hp
  exact ⟨_, hlayout.params_in p hp⟩

end

namespace Script

/-- All windows that a script has got hold of are backed by facts. -/
structure Backing (env : Env) (s : Session) : Prop where
  registers : ∀ v, some v ∈ env.registers → s.Backs v
  given : ∀ ps, env.given = some ps → ∀ p ∈ ps, ∃ args, p.In args

section

variable {env : Env} {s s₁ : Session}

theorem Backing.all (h : Backing env s₁) (hs : s.Laid) : env.All s₁.Backs s := by
  apply Env.All.of_frames h.registers
  · intro ps hps p hp
    rcases h.given ps hps p hp with ⟨args, hin⟩
    exact hin.backs
  · intro j _ f hf p hp
    rcases hs.params_in hf p hp with ⟨args, hin⟩
    exact hin.backs

theorem Backing.mono (h : Backing env s) (hsound : Sound env s) (hgrows : s.Grows s₁) : Backing env s₁ :=
  ⟨fun v hv => (h.registers v hv).mono (hsound.registers v hv) hgrows, h.given⟩

/-- What is in the last register was returned by the last step. -/
theorem mem_registers_push {step : Step} {v : Value}
    (h : some v ∈ (env.push (step.attempt env s).1).registers) :
    some v ∈ env.registers ∨ Returns (step.run env) s (.value v) (step.attempt env s).2 := by
  rcases hattempt : step.attempt env s with ⟨fault | answer, s'⟩
  · rw [hattempt] at h
    rcases List.mem_append.1 h with h | h
    · exact .inl h
    · cases List.mem_singleton.1 h
  · rw [hattempt] at h
    cases answer with
    | value w =>
      rcases List.mem_append.1 h with h | h
      · exact .inl h
      · cases List.mem_singleton.1 h
        exact .inr hattempt
    | _ =>
      rcases List.mem_append.1 h with h | h
      · exact .inl h
      · cases List.mem_singleton.1 h

theorem Backing.attempt (h : Backing env s) (hsound : Sound env s) (step : Step) :
    Backing (env.push (step.attempt env s).1) (step.attempt env s).2 := by
  have hgrows : s.Grows (step.attempt env s).2 := grows_attempt env s step
  have hgiven : (env.push (step.attempt env s).1).given = env.given := by
    rcases (step.attempt env s).1 with fault | answer
    · rfl
    · cases answer <;> rfl
  refine ⟨?_, hgiven ▸ h.given⟩
  intro v hv
  rcases mem_registers_push hv with hv | hreturns
  · exact (h.mono hsound hgrows).registers v hv
  cases step with
  | op o =>
    rcases returns_op.1 hreturns with ⟨result, hresult, hvalue, es, hes, hholding, hs'⟩
    have hissued := (Op.keeps closed_formed (.inr closedRaw_formed) hsound.all hresult fun _ _ => trivial).1
    rw [hs'] at hgrows ⊢
    -- the windows before this step are backed after it too, and the conditions of the step are
    -- enforced
    have hall : env.All (s.enterAll es).Backs s := (h.mono hsound hgrows).all hsound.laid
    have hkeeps :=
      Op.keeps closed_backed (.inr ⟨fun _ => trivial, fun _ _ => trivial, fun _ _ _ => trivial⟩)
      hall hresult
    have hbacks := (hkeeps (hsound.laid.enforces hissued hes hholding)).2
    rw [← hvalue] at hbacks
    exact hbacks
  | foreign types index =>
    rcases returns_foreign hreturns with ⟨new, tys, slots, s₁, p, hopened, hp, hvalue, _⟩
    cases hvalue
    exact (hopened.layout.params_in p hp).backs
  | query q => exact (returns_query hreturns).1.elim
  | ranges number => exact (returns_ranges hreturns).1.elim
  | dropFrame number => exact (returns_dropFrame hreturns).1.elim
  | openFrame types =>
    rcases returns_openFrameStep hreturns with ⟨new, tys, slots, hanswer, _⟩
    cases hanswer

theorem Reached.backing (h : Reached env s) : Backing env s := by
  induction h with
  | empty =>
    constructor
    · intro v hv
      cases hv
    · intro ps hps
      cases hps
  | said hreached m ih => exact ih.mono hreached.sound (.of_frames rfl)
  | @traced env s s' tys id hreached hopen _ =>
    constructor
    · intro v hv
      cases hv
    · intro ps hps p hp
      cases hps
      rcases opened_of_returns hopen with ⟨slots, hopened⟩
      rw [hopened.frameOf] at hp
      exact (hreached.traced hopen).sound.laid.params_in hopened.frame p hp
  | step hreached step ih => exact ih.attempt hreached.sound step

end

end Script

/-! ## Comparing bytes -/

/-- The value of a condition, once its arguments have values. -/
def Cond.eval? (σ : Assignment) : Cond → Option Int
  | known b => some (truth (b = true))
  | symbolic e => e.eval? σ

/-- What asserting that a byte of the view is a known one records. -/
def Bytes.byteEntry (b : Bytes) (i : Nat) (byte : UInt8) : FrameEntry :=
  .complex b.source ⟨.eq, (b.byteAt (.lit i)).value, .lit byte.toNat⟩

section

variable {σ : Assignment} {b : Bytes} {c : Cond} {e : Expr}

theorem decides_and {P Q : Prop} (hc : Decides (c.eval? σ) P) (he : Decides (e.eval? σ) Q) :
    Decides ((c.and (.symbolic e)).eval? σ) (P ∧ Q) := by
  cases c with
  | known known =>
    rcases hc with ⟨v, hv, hP⟩
    cases hv
    rw [truth_ne_zero] at hP
    cases known with
    | false => exact ⟨0, rfl, by simp [← hP]⟩
    | true => exact he.congr (by simp [← hP])
  | symbolic a =>
    show Decides ((Expr.binary Connective.and a e).eval? σ) _
    rw [Expr.eval?_binary]
    exact hc.connect he .and

theorem entries?_and {xs ys : List FrameEntry} (hc : c.entries? = some xs) (he : e.entries? = some ys) :
    (c.and (.symbolic e)).entries? = some (xs ++ ys) := by
  cases c with
  | known known =>
    cases known with
    | false => cases hc
    | true =>
      cases hc
      exact he
  | symbolic a =>
    have ha : a.entries? = some xs := hc
    show (Expr.binary Connective.and a e).entries? = _
    simp only [Expr.entries?, ha, he, Option.bind_eq_bind, Option.bind_some, Option.pure_def]

/-- Bytes are compared from a position on, in addition to what was found before. The condition on
the bytes before is carried along, and so are its truth value and its entries. -/
theorem decides_eqBytesFrom (hb : b.Consistent) {bytes wanted : List UInt8}
    (hcontent : b.content? σ = some bytes) {i : Nat} {all : Cond} {P : Prop}
    (hall : Decides (all.eval? σ) P)
    (hconditions : ∀ c ∈ (b.eqBytesFrom i all wanted).conditions, c.Holds σ) :
    Decides ((b.eqBytesFrom i all wanted).value.eval? σ) (P ∧ wanted <+: bytes.drop i) := by
  induction wanted generalizing i all P with
  | nil => exact hall.congr (by simp)
  | cons byte wanted ih =>
    have hread : ∀ c ∈ (b.byteAt (.lit i)).conditions, c.Holds σ :=
      fun c hc => hconditions c (List.mem_append_left _ hc)
    rcases hb.content?_byteAt hcontent hread with ⟨k, found, hk, hfound, hvalue⟩
    rw [Expr.eval?_lit, Option.some.injEq, Nat.cast_inj] at hk
    subst hk
    have hbyte : Decides ((Expr.binary Comparison.eq (b.byteAt (.lit i)).value (.lit byte.toNat)).eval? σ)
        (byte = found) := by
      rw [Expr.eval?_binary, hvalue, Expr.eval?_lit]
      refine (decides_compare _ _ _).congr ?_
      rw [Comparison.Holds, Nat.cast_inj, UInt8.toNat_inj, eq_comm]
    have hdrop : bytes.drop i = found :: bytes.drop (i + 1) := by
      rw [List.drop_eq_getElem?_toList_append, hfound]
      rfl
    refine (ih (decides_and hall hbyte) fun c hc => hconditions c (List.mem_append_right _ hc)).congr ?_
    rw [hdrop, List.cons_prefix_cons, and_assoc]

theorem entries?_eqBytesFrom (hb : b.Consistent) {wanted : List UInt8} {i : Nat} {all : Cond}
    {xs : List FrameEntry} (hall : all.entries? = some xs) :
    (b.eqBytesFrom i all wanted).value.entries? =
      some (xs ++ wanted.mapIdx fun j => b.byteEntry (i + j)) := by
  induction wanted generalizing i all xs with
  | nil =>
    rw [List.mapIdx_nil, List.append_nil]
    exact hall
  | cons byte wanted ih =>
    have hbyte : (Expr.binary Comparison.eq (b.byteAt (.lit i)).value (.lit byte.toNat)).entries? =
        some [b.byteEntry i byte] := by
      rw [Bytes.byteEntry, hb.value_byteAt]
      rfl
    refine (ih (entries?_and hall hbyte)).trans ?_
    simp [List.mapIdx_cons, Nat.add_assoc, Nat.add_comm 1]

end

/-! ## Equality -/

section

variable {s s₁ : Session} {σ : Assignment} {b : Bytes} {wanted : List UInt8} {es : List FrameEntry}

/-- A window whose length is compared with a known integer has known bounds. -/
theorem Bytes.Formed.known_of_length (hb : b.Formed s) {test : Comparison} {n : Int}
    (h : (b.length.compare test (.lit n)).Recordable) (hw : b.isWindow = true) :
    (∃ start, b.start = .lit start) ∧ ∃ length, b.length = .lit length := by
  rcases hb.window hw with ⟨stop, hlength⟩
  rw [hlength] at h ⊢
  rcases Expr.isLit_of_recordable_left h with ⟨_, start, length, _, hstart, _, hsize⟩
  exact ⟨⟨start, hstart⟩, length, hsize⟩

theorem Bytes.exists_content {start length : Int} (hstart : b.start.eval? σ = some start)
    (hlength : b.length.eval? σ = some length) (hlow : 0 ≤ start) (hsize : 0 ≤ length)
    (hhigh : start + length ≤ (σ.bytes b.source).length) : ∃ bytes, b.content? σ = some bytes := by
  unfold Bytes.content?
  rw [hstart, hlength]
  exact ⟨_, if_pos ⟨hlow, hsize, hhigh⟩⟩

/-- A view whose length is not negative stands for bytes of its array. -/
theorem Bytes.Backed.exists_content (h : b.Backed s) (hwhole : b.Over fun a => a.frame = b.source.frame)
    {f : Frame} (hf : s.frame? b.source.frame = some f) (hfacts : f.FactsHold σ) {n : Nat}
    (hlength : b.length.eval? σ = some (n : Int))
    (hbytes : σ.value b.sourceLength ≤ (σ.bytes b.source).length) :
    ∃ bytes, b.content? σ = some bytes := by
  cases hwindow : b.isWindow with
  | false =>
    have hvalue := hlength
    rw [h.consistent.length_of_array hwindow, Expr.eval?_argument, Option.some.injEq] at hvalue
    have hstart : b.start.eval? σ = some 0 := by
      rw [h.consistent.start_of_array hwindow]
      exact Expr.eval?_lit 0
    apply Bytes.exists_content hstart hlength
    · omega
    · omega
    · omega
  | true =>
    -- the window was checked against the array when it was made
    rcases h.inside hwindow hwhole f σ hf hfacts with ⟨start, length, hstart, hsize, h₁, h₂, h₃⟩
    exact Bytes.exists_content hstart hsize h₁ h₂ (Int.le_trans h₃ hbytes)

/-- The condition of a comparison with known bytes tells whether the view stands for just these. -/
theorem Bytes.Formed.decides_eqBytes (hs : s.Laid) (hb : b.Formed s) (hbacked : b.Backed (s.enterAll es))
    (hes : entriesOf? (b.eqBytes wanted).conditions = some es) (hholding : s.Holding es) {f : Frame}
    (hf : (s.enterAll es).frame? b.source.frame = some f) (hfacts : f.FactsHold σ)
    (hbytes : σ.value b.sourceLength ≤ (σ.bytes b.source).length) :
    b.length.eval? σ = some (wanted.length : Int) ∧
      ∃ bytes, b.content? σ = some bytes ∧ Decides ((b.eqBytes wanted).value.eval? σ) (bytes = wanted) := by
  have hmem : b.length.compare .eq (.lit wanted.length) ∈ (b.eqBytes wanted).conditions := .head _
  have hown : b.Over fun a => s.Issued a ∧ a.frame = b.source.frame :=
    hb.over_of_known fun hw => hb.known_of_length (recordable_of_entriesOf? hes _ hmem) hw
  have hholds : ∀ c ∈ (b.eqBytes wanted).conditions, c.Holds σ := by
    have hkeeps := closed_over.sorted.keeps_eqBytes hown wanted
    exact holds_of_factsHold hs (hkeeps fun _ _ => trivial).1 hes hholding hf hfacts
  have hlength : b.length.eval? σ = some (wanted.length : Int) := by
    rcases Cond.holds_compare.1 (hholds _ hmem) with ⟨x, y, hx, hy, hxy⟩
    rw [Expr.eval?_lit, Option.some.injEq] at hy
    rw [hx, hxy, ← hy]
  have hwhole : b.Over fun a => a.frame = b.source.frame := hown.imp fun a ha => ha.2
  rcases hbacked.exists_content hwhole hf hfacts hlength hbytes with ⟨bytes, hcontent⟩
  refine ⟨hlength, bytes, hcontent, ?_⟩
  have hcount : bytes.length = wanted.length := by
    have hvalue := Bytes.eval?_length hcontent
    rw [hlength, Option.some.injEq, Nat.cast_inj] at hvalue
    exact hvalue.symm
  have htrue : Decides ((Cond.known true).eval? σ) True := ⟨1, rfl, by decide⟩
  have hdecides := decides_eqBytesFrom hb.consistent hcontent htrue fun c hc =>
    hholds c (List.mem_append_right _ hc)
  refine hdecides.congr ?_
  rw [true_and, List.drop_zero]
  constructor
  · intro hleading
    exact (hleading.eq_of_length hcount.symm).symm
  · intro hsame
    rw [hsame]

/-- Without the frame of the array nothing can be read, and its length cannot be asserted: what is
left is to compare a window that is known to be empty with no bytes. -/
theorem Bytes.Formed.eqBytes_of_gone (hb : b.Formed s)
    (hes : entriesOf? (b.eqBytes wanted).conditions = some es) (hholding : s.Holding es)
    (hgone : s.frame? b.source.frame = none) :
    wanted = [] ∧ b.length = .lit 0 ∧ (b.eqBytes wanted).value = .known true := by
  have hnever : ∀ c ∈ (b.eqBytes wanted).conditions, ∀ fact,
      c.entries? ≠ some [.fact b.sourceLength fact] := by
    intro c hc fact hentries
    rcases mem_entriesOf? hes hc with ⟨xs, hxs, hsub⟩
    rw [hentries, Option.some.injEq] at hxs
    subst hxs
    have halive := hholding _ (hsub (.head _))
    rw [FrameEntry.argument, hb.frame_eq, hgone] at halive
    cases halive
  have hmem : b.length.compare .eq (.lit wanted.length) ∈ (b.eqBytes wanted).conditions := .head _
  rcases mem_entriesOf? hes hmem with ⟨xs, hxs, _⟩
  cases hwindow : b.isWindow with
  | false =>
    refine absurd ?_ (hnever _ hmem ⟨.eq, .lit wanted.length⟩)
    rw [hb.consistent.length_of_array hwindow]
    rfl
  | true =>
    rcases hb.known_of_length ⟨xs, hxs⟩ hwindow with ⟨⟨start, hstart⟩, length, hlength⟩
    have hcount : length = wanted.length := by
      rw [hlength] at hxs
      change (Cond.known (decide (length = (wanted.length : Int)))).entries? = some xs at hxs
      by_contra hne
      rw [decide_eq_false hne] at hxs
      cases hxs
    cases wanted with
    | nil => exact ⟨rfl, hlength.trans (congrArg Expr.lit hcount), rfl⟩
    | cons byte wanted =>
      -- the first byte would be checked against the length of the array
      have hsub : (b.byteAt (.lit 0)).conditions ⊆ (b.eqBytes (byte :: wanted)).conditions := by
        intro c hc
        exact List.mem_append_right [_] (List.mem_append_left _ hc)
      have hposition : b.position (.lit 0) = .lit (start + 0) :=
        hb.consistent.position_of_recordable hstart fun c hc =>
          recordable_of_entriesOf? hes c (hsub hc)
      have hcheck := hsub (hb.consistent.keyInside_subset (.lit 0) (.tail _ (.head _)))
      rw [hposition, hb.consistent.arrayLength] at hcheck
      exact absurd rfl (hnever _ hcheck _)

/-- The lengths are compared first. -/
theorem Bytes.attempt_eqBytes_of_length (alive : FrameId → Bool) {n : Int} (hlength : b.length = .lit n)
    (hne : n ≠ wanted.length) :
    attempt alive ((b.eqBytes wanted).conditions.flatMap Cond.demands) = ([], .error .staticallyFalse) := by
  have hfalse : b.length.compare .eq (.lit wanted.length) = .known false := by
    rw [hlength]
    show Cond.known (decide (n = (wanted.length : Int))) = _
    rw [decide_eq_false hne]
  show attempt alive (Cond.demands (b.length.compare .eq (.lit wanted.length)) ++ _) = _
  rw [hfalse]
  rfl

/-- Asserting that a view holds known bytes records one complex fact for each, in their order. -/
theorem Bytes.Consistent.returns_assert_eqBytes (hb : b.Consistent)
    (halive : (s₁.frame? b.source.frame).isSome) :
    Returns (assertThat (b.eqBytes wanted).value) s₁ () (s₁.adding (wanted.mapIdx b.byteEntry)) := by
  have hentries : (b.eqBytes wanted).value.entries? = some (wanted.mapIdx b.byteEntry) := by
    have htrue : (Cond.known true).entries? = some [] := rfl
    refine (entries?_eqBytesFrom hb htrue).trans ?_
    simp
  refine returns_assertThat.2 ⟨_, hentries, ?_, (s₁.enterAll_eq_adding _).symm⟩
  intro x hx
  rcases List.mem_mapIdx.1 hx with ⟨i, hi, rfl⟩
  exact halive

end

namespace Script

/-- Comparing a view with known bytes yields a condition that decides whether they are equal.
Wherever the facts hold that the frame of the array has by then, the view has as many bytes, and the
condition has a value, which is true exactly if they are the same; asserting it records one complex
fact for each byte. Where the frame is gone, the comparison succeeds only between no bytes. A view
of another known length is not compared at all. -/
theorem eqBytes_decides {env : Env} {s : Session} {view : Nat} {b : Bytes} (hreached : Reached env s)
    (hview : env.bytes view = .ok b) (wanted : List UInt8) :
    b.Consistent ∧ (∀ c s', Returns ((Step.op (.eqBytes view wanted)).run env) s (.value (.cond c)) s' →
      (∀ f σ, s'.frame? b.source.frame = some f → f.FactsHold σ →
        σ.value b.sourceLength ≤ (σ.bytes b.source).length →
          b.length.eval? σ = some (wanted.length : Int) ∧
            ∃ bytes, b.content? σ = some bytes ∧ Decides (c.eval? σ) (bytes = wanted)) ∧
      (s'.frame? b.source.frame = none → wanted = [] ∧ b.length = .lit 0 ∧ c = .known true) ∧
      ∀ s₁ : Session, (s₁.frame? b.source.frame).isSome →
        Returns (assertThat c) s₁ () (s₁.adding (wanted.mapIdx b.byteEntry))) ∧
    ∀ n : Int, b.length = .lit n → n ≠ wanted.length →
      (Step.op (.eqBytes view wanted)).attempt env s = (.error (.trace .staticallyFalse), s) := by
  have hsound := hreached.sound
  have hformed := hsound.formed hview
  refine ⟨hformed.consistent, ?_, ?_⟩
  · intro c s' hreturns
    rcases returns_op.1 hreturns with ⟨result, hresult, hvalue, es, hes, hholding, rfl⟩
    simp only [Op.eval, except_bind_ok, except_pure_ok] at hresult
    rcases hresult with ⟨b', hb', rfl⟩
    rw [hview] at hb'
    cases hb'
    cases hvalue
    rw [Provided.conditions_map] at hes
    refine ⟨?_, ?_, ?_⟩
    · intro f σ hf hfacts hbytes
      have hbacked : b.Backed (s.enterAll es) := by
        have hbacking := hreached.backing.mono hsound (.enterAll s es)
        have hregister : env.AllAt (s.enterAll es).Backs [view] := by
          intro n _ v hv
          exact hbacking.registers v (Env.mem_registers_of_value hv)
        exact hregister.bytes hview
      exact hformed.decides_eqBytes hsound.laid hbacked hes hholding hf hfacts hbytes
    · intro hgone
      rw [s.frame?_enterAll, Option.map_eq_none_iff] at hgone
      exact hformed.eqBytes_of_gone hes hholding hgone
    · intro s₁ halive
      exact hformed.consistent.returns_assert_eqBytes halive
  · intro n hlength hne
    have heval : (Op.eqBytes view wanted).eval env s = .ok ((.value ∘ .cond) <$> b.eqBytes wanted) := by
      simp only [Op.eval, hview]
      rfl
    have hstops := Bytes.attempt_eqBytes_of_length s.alive hlength hne
    rw [← Provided.conditions_map] at hstops
    exact attempt_op_ok heval hstops

/-- A window onto three bytes, after the first one. -/
def threeBytes : List Step :=
  [.openFrame [.named "binary"], .op (.bytes 0 (.frame 0)), .op (.slice 1 (.lit 1) (.lit 4) 1)]

def threeBytesWindow : Bytes := (wholeArray.slice (.lit 1) (.lit 4)).value

/-- Five bytes, of which the fourth is given. -/
def tagged (last : UInt8) : Assignment where
  value a := [0, 5][a.index]?.getD 0
  bytes _ := [0, 69, 76, last, 0]

/-- A comparison with three bytes is true or false as it should be, one with a single byte fails. -/
theorem eqBytes_decides_threeBytes :
    let start := after {} Session.empty threeBytes
    let compare := Step.op (.eqBytes 2 [69, 76, 70])
    let c := (threeBytesWindow.eqBytes [69, 76, 70]).value
    Returns (compare.run start.1) start.2 (.value (.cond c)) (compare.attempt start.1 start.2).2 ∧
      c.render = "((((arg_0[1]) == 69) && ((arg_0[2]) == 76)) && ((arg_0[3]) == 70))" ∧
      (∀ last ∈ ([70, 71] : List UInt8), ∃ bytes, threeBytesWindow.content? (tagged last) = some bytes ∧
        Decides (c.eval? (tagged last)) (bytes = [69, 76, 70])) ∧
      threeBytesWindow.content? (tagged 70) = some [69, 76, 70] ∧
      threeBytesWindow.content? (tagged 71) = some [69, 76, 71] ∧
      Returns (assertThat c) start.2 () (start.2.adding ([69, 76, 70].mapIdx threeBytesWindow.byteEntry)) ∧
      (Step.op (.eqBytes 2 [69])).attempt start.1 start.2 =
        (.error (.trace .staticallyFalse), start.2) := by
  intro start compare c
  have hreached : Reached start.1 start.2 := Reached.empty.after _
  have hview : start.1.bytes 2 = .ok threeBytesWindow := by decide +kernel
  have hreturns : Returns (compare.run start.1) start.2 (.value (.cond c))
    (compare.attempt start.1 start.2).2 :=
    Prod.ext (by decide +kernel) rfl
  rcases (eqBytes_decides hreached hview [69, 76, 70]).2.1 c _ hreturns with ⟨hdecides, _, hassert⟩
  have hframe : ∃ f, (compare.attempt start.1 start.2).2.frame? 0 = some f :=
    Option.isSome_iff_exists.1 (by decide +kernel)
  rcases hframe with ⟨f, hf⟩
  have hfacts : ∀ g ∈ (compare.attempt start.1 start.2).2.frame? 0,
      ∀ last ∈ ([70, 71] : List UInt8), g.FactsHold (tagged last) := by
    decide +kernel
  refine ⟨hreturns, by decide +kernel, ?_, by decide +kernel, by decide +kernel,
    hassert _ (by decide +kernel), ?_⟩
  · intro last hlast
    exact (hdecides f (tagged last) hf (hfacts f hf last hlast) (Int.le_refl 5)).2
  · exact (eqBytes_decides hreached hview [69]).2.2 3 (by decide +kernel) (by decide)

end Script

end GuardedC
