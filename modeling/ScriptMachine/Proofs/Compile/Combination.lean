import ScriptMachine.Proofs.Compile.Building
import ScriptMachine.Proofs.Compile.Layout
import ScriptMachine.Proofs.Value.Tags

/-!
# Parts laid out by steps

How the steps of a compilation combine: when each step lays out its part, a sequence of them lays
out the whole. What is laid out is said of every finished body that keeps the code.
-/

namespace ScriptMachine.Compile

open Source Bytecode Evaluation

/-- The scope of a context. -/
def Context.scope (c : Context) : Scope :=
  ⟨c.locals.map fun l => (l.name, l.reg), c.top⟩

/-- The scope of the body under construction. -/
def Builder.scope (b : Builder) : Scope :=
  b.context.scope

theorem reg?_scope (b : Builder) (name : String) :
    b.scope.reg? name = (b.body.local? name).map Local.reg := by
  show (b.body.locals.map fun l => (l.name, l.reg)).lookup name = (b.body.locals.find? _).map _
  induction b.body.locals with
  | nil => rfl
  | cons l rest ih =>
    rw [List.map_cons, List.lookup_cons, ih, List.find?_cons]
    by_cases h : l.name = name
    · simp [h]
    · have hne : (name == l.name) = false := by simpa using fun h' => h h'.symm
      simp [h, hne]

/-! ## Finished bodies -/

/-- The finished code has what the builder has, from the place `n` on. -/
structure Finishes (C : Coding) (n : Nat) (b : Builder) : Prop where
  code : ∀ p, n ≤ p → p < b.next → C.code[p]? = b.body.code[p]?
  slots : b.body.maxSlots ≤ C.slots
  int : ∀ (k : Nat) (m : Int64),
    b.body.constants[k]? = some (.int m) → C.constant k (.int m.toInt)
  text : ∀ (k : Nat) (i : UInt32) (s : String), b.body.constants[k]? = some (.str i) →
    b.strings[i.toNat]? = some s → C.constant k (.text s)
  strings : b.strings.size ≤ 2 ^ 32
  returns : C.returns = b.waiting.isSome

namespace Finishes

variable {C : Coding} {n m : Nat} {b b' : Builder}

/-- What has a later state of the builder has an earlier one, as far as that was kept. -/
theorem of_expands (h : Finishes C n b') (hg : Expands m b b')
    (hcode : ∀ p, n ≤ p → p < b.next → b'.body.code[p]? = b.body.code[p]?) : Finishes C n b where
  code p hn hp := (h.code p hn (Nat.lt_of_lt_of_le hp hg.next)).trans (hcode p hn hp)
  slots := Nat.le_trans hg.slots h.slots
  int k m hk := h.int k m (hg.constants k _ hk)
  text k i s hk hs := h.text k i s (hg.constants k _ hk) (hg.strings _ _ hs)
  strings := Nat.le_trans hg.strings_size h.strings
  returns := by rw [h.returns, hg.waiting]

theorem earlier (h : Finishes C n b') (hg : Grows m b b')
    (hcode : ∀ p, n ≤ p → p < b.next → b'.body.code[p]? = b.body.code[p]?) : Finishes C n b :=
  h.of_expands hg.toExpands hcode

theorem before (h : Finishes C n b') (hg : Grows b.next b b') : Finishes C n b :=
  h.earlier hg fun p _ hp => hg.code p hp

theorem later (h : Finishes C n b) (hm : n ≤ m) : Finishes C m b :=
  { h with code := fun p hp => h.code p (Nat.le_trans hm hp) }

theorem at_of_code (h : Finishes C n b) {i : Nat} {w : Word} (hn : n ≤ i)
    (hw : b.body.code[i]? = some w) : C.At i w := by
  have hlt : i < b.next := (Array.getElem?_eq_some_iff.1 hw).1
  exact (h.code i hn hlt).trans hw

end Finishes

/-- Between two states of the builder code with this property was appended, and the context became
`c`. -/
structure Lays (b b' : Builder) (c : Context) (P : Coding → Prop) : Prop where
  grows : Grows b.next b b'
  context : b'.context = c
  laid : ∀ C, Finishes C b.next b' → P C

/-- A step that appends code with a property, which may depend on the names, the scope, and the
range that the code fills. The context is what it was. -/
def Compiles (step : Building Unit) (P : Coding → Names → Scope → (i j : Nat) → Prop) : Prop :=
  ∀ b b' u, step b = .ok (u, b') → b.Sound → b.context.Nested →
    Lays b b' b.context fun C => P C b.names b.scope b.next b'.next

theorem Builder.Sound.top_le {b : Builder} (h : b.Sound) : b.context.top ≤ b.body.maxSlots :=
  Body.Sound.top_le h

theorem Context.Nested.take {c : Context} (h : c.Nested) : c.take.Nested :=
  h

/-! ## Single instructions -/

theorem compiles_emit {w : Word} {P : Coding → Names → Scope → (i j : Nat) → Prop}
    (h : ∀ C names sc i, C.At i w → P C names sc i (i + 1)) :
    Compiles (updateBody fun f => f.emit w) P := by
  intro b b' u hstep _ _
  obtain ⟨hgrows, hcontext, hnext, hw⟩ := emit_ok hstep (Nat.le_refl b.next)
  refine ⟨hgrows, hcontext, fun C hC => ?_⟩
  rw [hnext]
  exact h C _ _ _ (hC.at_of_code (Nat.le_refl _) hw)

/-- An integer that a payload holds is the one that a constant holds. -/
theorem toInt_ofInt {n : Int} (h : Value.fits n = true) : (Int64.ofInt n).toInt = n := by
  rw [Value.fits_iff] at h
  exact Int64.toInt_ofInt_of_le (by omega) (by omega)

theorem fits_of_literalValue {digits : String} {n : Int} (h : literalValue digits = .ok n) :
    Value.fits n = true := by
  unfold literalValue at h
  simp only at h
  split at h
  · split_ifs at h with hfits
    cases h
    exact hfits
  · split_ifs at h

/-- Loading a constant. -/
theorem lays_constant {k : Constant} {t : Nat} {b b' : Builder} {u : Unit} {d : Datum}
    (h : loadConstant k t b = .ok (u, b')) (hb : b.Sound)
    (hk : Link.constantOk b.strings.size b.prototypes.size k = true)
    (hd : ∀ C i, Grows b.next b b' → Finishes C b.next b' → b'.body.constants[i]? = some k →
      C.constant i d) :
    Lays b b' b.context fun C =>
      ∃ i, C.Holds i d ∧ C.At b.next (.abx .loadConst t i) ∧ b'.next = b.next + 1 := by
  obtain ⟨i, b₁, hindex, h⟩ := bind_eq_ok.1 h
  obtain ⟨hg₁, hc₁, hn₁, hi⟩ := constantIndex_ok hindex hk
  obtain ⟨hg₂, hc₂, hn₂, hw⟩ := emitABx_ok h (Nat.le_of_eq hn₁.symm)
  have hg : Grows b.next b b' := hg₁.trans hg₂
  refine ⟨hg, hc₂.trans hc₁, fun C hC => ⟨i, ⟨?_, hd C i hg hC (hg₂.constants i k hi)⟩, ?_⟩⟩
  · have hsize := (hg₁.sound hb).constants_size
    have hlt := (Array.getElem?_eq_some_iff.1 hi).1
    omega
  · rw [hn₁] at hw hn₂
    exact ⟨hC.at_of_code (Nat.le_refl _) hw, hn₂⟩

/-- Loading what a name stands for. -/
theorem compiles_name (ident : String) (pos : Position) (t : Nat) :
    Compiles (loadName ident pos t) fun C names sc i j => ExprAt C names (.name ident pos) sc t i j := by
  intro b b' u h _ _
  unfold loadName at h
  rw [get_bind_eq_ok] at h
  have hreg := reg?_scope b ident
  cases hlocal : b.body.local? ident with
  | some l =>
    rw [hlocal] at h hreg
    simp only [Option.map_some] at h hreg
    split_ifs at h with ht
    · obtain ⟨-, rfl⟩ := pure_eq_ok.1 h
      exact ⟨.refl _ _, rfl, fun C _ => .here (ht ▸ hreg)⟩
    · obtain ⟨hg, hc, hn, hw⟩ := emitABC_ok h (Nat.le_refl b.next)
      refine ⟨hg, hc, fun C hC => ?_⟩
      rw [hn]
      exact .move hreg (hC.at_of_code (Nat.le_refl _) hw)
  | none =>
    rw [hlocal] at h hreg
    simp only [Option.map_none] at h hreg
    cases hglobal : b.names.global? ident with
    | some g =>
      simp only [hglobal] at h
      obtain ⟨slot, b₂, hwide, h⟩ := bind_eq_ok.1 h
      obtain ⟨rfl, rfl, hslot⟩ := wideOperand_ok hwide
      obtain ⟨hg, hc, hn, hw⟩ := emitABx_ok h (Nat.le_refl b.next)
      refine ⟨hg, hc, fun C hC => ?_⟩
      rw [hn]
      exact .global hreg hglobal hslot (hC.at_of_code (Nat.le_refl _) hw)
    | none =>
      simp only [hglobal] at h
      cases hprimitive : b.names.primitive? ident with
      | none =>
        simp only [hprimitive] at h
        exact (throw_eq_ok.1 h).elim
      | some index =>
        simp only [hprimitive] at h
        obtain ⟨index', b₂, hwide, h⟩ := bind_eq_ok.1 h
        obtain ⟨rfl, rfl, hindex⟩ := wideOperand_ok hwide
        obtain ⟨hg, hc, hn, hw⟩ := emitABx_ok h (Nat.le_refl b.next)
        refine ⟨hg, hc, fun C hC => ?_⟩
        rw [hn]
        exact .primitive hreg hglobal hprimitive hindex (hC.at_of_code (Nat.le_refl _) hw)

/-! ## Combinations -/

/-- What an action lays out, as `Compiles` says it. -/
abbrev Layout :=
  Coding → Names → Scope → (i j : Nat) → Prop

theorem Lays.scope {b b' : Builder} {c : Context} {P : Coding → Prop} (h : Lays b b' c P) :
    b'.scope = c.scope :=
  congrArg Context.scope h.context

theorem Lays.nested {b b' : Builder} {c : Context} {P : Coding → Prop} (h : Lays b b' c P)
    (hc : c.Nested) : b'.context.Nested := by
  rw [h.context]
  exact hc

/-- One step after another. -/
theorem compiles_seq {first second : Building Unit} {P Q : Layout} (hfirst : Compiles first P)
    (hsecond : Compiles second Q) :
    Compiles (first >>= fun _ => second) fun C names sc i j =>
      ∃ k, P C names sc i k ∧ Q C names sc k j := by
  intro b b' u h hb hc
  obtain ⟨u₁, b₁, h₁, h₂⟩ := bind_eq_ok.1 h
  have l₁ := hfirst b b₁ u₁ h₁ hb hc
  have l₂ := hsecond b₁ b' u h₂ (l₁.grows.sound hb) (l₁.nested hc)
  refine ⟨l₁.grows.trans (l₂.grows.weaken l₁.grows.next), l₂.context.trans l₁.context,
    fun C hC => ⟨b₁.next, l₁.laid C (hC.before l₂.grows), ?_⟩⟩
  have hlaid := l₂.laid C (hC.later l₁.grows.next)
  rwa [l₁.grows.names, l₁.scope] at hlaid

theorem Compiles.imp {step : Building Unit} {P Q : Layout} (h : Compiles step P)
    (himp : ∀ C names sc i j, P C names sc i j → Q C names sc i j) : Compiles step Q := by
  intro b b' u hstep hb hc
  have l := h b b' u hstep hb hc
  exact ⟨l.grows, l.context, fun C hC => himp _ _ _ _ _ (l.laid C hC)⟩

/-- What is compiled into a register on top of those in use. -/
theorem lays_above {fill : Nat → Building Unit} {P : Nat → Layout} (hfill : ∀ r, Compiles (fill r) (P r))
    {b b₁ b₂ : Builder} {r : Nat} {u : Unit} (htake : takeReg b = .ok (r, b₁))
    (h : fill r b₁ = .ok (u, b₂)) (hb : b.Sound) (hc : b.context.Nested) :
    r = b.scope.top ∧ Lays b b₂ b.context.take fun C =>
      C.Room b.scope.top ∧ P b.scope.top C b.names b.scope.take b.next b₂.next := by
  obtain ⟨hr, hlt, hg₁, hc₁, hn₁, hslots⟩ := takeReg_ok (n := b.next) htake
  have hn : b.next = b₁.next := hn₁.symm
  have hnested : b₁.context.Nested := by
    rw [hc₁]
    exact hc
  have l := hfill r b₁ b₂ u h (hg₁.sound hb) hnested
  refine ⟨hr, hg₁.trans (hn ▸ l.grows), l.context.trans hc₁, fun C hC => ⟨⟨?_, ?_⟩, ?_⟩⟩
  · show b.context.top < 255
    rw [← hr]
    exact hlt
  · show b.context.top < C.slots
    rw [← hr]
    exact Nat.lt_of_lt_of_le hslots (Nat.le_trans l.grows.slots hC.slots)
  · have hlaid := l.laid C (hn ▸ hC)
    have hscope : b₁.scope = b.scope.take := congrArg Context.scope hc₁
    rwa [hg₁.names, hscope, hn₁, hr] at hlaid

/-- The context after a register was taken and given back. -/
theorem context_of_giveBack {b b' : Builder} {c : Context} (h : b.context = c.take)
    (h' : b'.context = { b.context with top := b.context.top - 1 }) : b'.context = c := by
  rw [h', h]
  rfl

/-- A value in a register on top of those in use, an instruction that takes it from there, and the
register given back. -/
theorem compiles_temporary {fill : Nat → Building Unit} {P : Nat → Layout}
    (hfill : ∀ r, Compiles (fill r) (P r)) (w : Nat → Word) :
    Compiles
      (do
        let r ← takeReg
        fill r
        updateBody fun f => f.emit (w r)
        giveBackReg)
      fun C names sc i j =>
        ∃ k, C.Room sc.top ∧ P sc.top C names sc.take i k ∧ C.At k (w sc.top) ∧ j = k + 1 := by
  intro b b' u h hb hc
  obtain ⟨r, b₁, htake, h⟩ := bind_eq_ok.1 h
  obtain ⟨u₂, b₂, hx, h⟩ := bind_eq_ok.1 h
  obtain ⟨u₃, b₃, hemit, h⟩ := bind_eq_ok.1 h
  obtain ⟨hr, l⟩ := lays_above hfill htake hx hb hc
  obtain ⟨hg₃, hc₃, hn₃, hw⟩ := emit_ok hemit (Nat.le_refl b₂.next)
  have hb₃ : b₃.Sound := hg₃.sound (l.grows.sound hb)
  obtain ⟨hg₄, hc₄, hn₄⟩ := giveBackReg_ok (n := b₂.next + 1) h hb₃.top_le
  have hrest : Grows b₂.next b₂ b' := hg₃.trans (hg₄.weaken (Nat.le_succ _))
  refine ⟨l.grows.trans (hrest.weaken l.grows.next),
    context_of_giveBack (hc₃.trans l.context) hc₄, fun C hC => ?_⟩
  obtain ⟨hroom, hlaid⟩ := l.laid C (hC.before hrest)
  refine ⟨b₂.next, hroom, hlaid, ?_, hn₄.trans hn₃⟩
  refine hC.at_of_code l.grows.next ?_
  rw [hg₄.code _ (Nat.lt_succ_self _), hw, hr]

/-- A value in a register on top of those in use, which is given back. -/
theorem compiles_discarded {fill : Nat → Building Unit} {P : Nat → Layout}
    (hfill : ∀ r, Compiles (fill r) (P r)) :
    Compiles
      (do
        let r ← takeReg
        fill r
        giveBackReg)
      fun C names sc i j => C.Room sc.top ∧ P sc.top C names sc.take i j := by
  intro b b' u h hb hc
  obtain ⟨r, b₁, htake, h⟩ := bind_eq_ok.1 h
  obtain ⟨u₂, b₂, hx, h⟩ := bind_eq_ok.1 h
  obtain ⟨-, l⟩ := lays_above hfill htake hx hb hc
  obtain ⟨hg₃, hc₃, hn₃⟩ := giveBackReg_ok (n := b₂.next) h (l.grows.sound hb).top_le
  refine ⟨l.grows.trans (hg₃.weaken l.grows.next), context_of_giveBack l.context hc₃,
    fun C hC => ?_⟩
  rw [hn₃]
  exact l.laid C (hC.before hg₃)

/-- The right operand of a logical operator stands behind a jump that skips it. -/
theorem compiles_skipped {act : Building Unit} {P : Layout} (hact : Compiles act P) (op : Opcode)
    (t : Nat) :
    Compiles
      (do
        let skip ← jumpAhead op t
        act
        aimJump skip)
      fun C names sc i j => C.At i (.abx op t j) ∧ P C names sc (i + 1) j ∧ j ≤ maxWide := by
  intro b b' u h hb hc
  obtain ⟨skip, b₁, hjump, h⟩ := bind_eq_ok.1 h
  obtain ⟨u₂, b₂, hx, h⟩ := bind_eq_ok.1 h
  obtain ⟨rfl, hg₁, hc₁, hn₁, hw₁⟩ := jumpAhead_ok hjump (Nat.le_refl b.next)
  have hnested : b₁.context.Nested := by
    rw [hc₁]
    exact hc
  have l := hact b₁ b₂ u₂ hx (hg₁.sound hb) hnested
  obtain ⟨hg₃, hc₃, hn₃, hwide, hother, haim⟩ := aimJump_ok h (Nat.le_refl b.next)
  have hlt : b.next < b₁.next := by omega
  have hrest : Grows b.next b₁ b' := (l.grows.weaken (Nat.le_of_lt hlt)).trans hg₃
  refine ⟨hg₁.trans hrest, hc₃.trans (l.context.trans hc₁), fun C hC => ⟨?_, ?_, ?_⟩⟩
  · -- the jump was emitted with the target 0, which the aim has replaced
    refine hC.at_of_code (Nat.le_refl _) ?_
    rw [hn₃]
    exact haim op t 0 ((l.grows.code _ hlt).trans hw₁)
  · -- the aim changed the jump alone, so the operand stands as it was laid
    have hlaid := l.laid C ((hC.later (Nat.le_of_lt hlt)).earlier hg₃ fun p hp _ => hother p (by omega))
    have hscope : b₁.scope = b.scope := congrArg Context.scope hc₁
    rwa [hg₁.names, hscope, hn₁, ← hn₃] at hlaid
  · rw [hn₃]
    exact hwide

/-- A test: its value in a register on top, and a jump behind it that is not aimed yet. -/
theorem lays_test {test : Nat → Building Unit} {P : Nat → Layout}
    (htest : ∀ r, Compiles (test r) (P r)) {b b₁ b₂ b₃ b₄ : Builder} {r pos : Nat} {u v : Unit}
    (htake : takeReg b = .ok (r, b₁)) (h : test r b₁ = .ok (u, b₂))
    (hjump : jumpAhead .jumpIfFalse r b₂ = .ok (pos, b₃)) (hback : giveBackReg b₃ = .ok (v, b₄))
    (hb : b.Sound) (hc : b.context.Nested) :
    pos = b₂.next ∧ b₄.next = pos + 1 ∧ Grows pos b₂ b₄ ∧
      b₄.body.code[pos]? = some (.abx .jumpIfFalse b.scope.top 0) ∧
      Lays b b₄ b.context fun C =>
        C.Room b.scope.top ∧ P b.scope.top C b.names b.scope.take b.next pos := by
  obtain ⟨hr, l⟩ := lays_above htest htake h hb hc
  obtain ⟨rfl, hg₃, hc₃, hn₃, hw⟩ := jumpAhead_ok hjump (Nat.le_refl b₂.next)
  have hb₃ : b₃.Sound := hg₃.sound (l.grows.sound hb)
  obtain ⟨hg₄, hc₄, hn₄⟩ := giveBackReg_ok (n := b₂.next + 1) hback hb₃.top_le
  have hrest : Grows b₂.next b₂ b₄ := hg₃.trans (hg₄.weaken (Nat.le_succ _))
  refine ⟨rfl, hn₄.trans hn₃, hrest, ?_, l.grows.trans (hrest.weaken l.grows.next),
    context_of_giveBack (hc₃.trans l.context) hc₄, fun C hC => l.laid C (hC.before hrest)⟩
  rw [hg₄.code _ (Nat.lt_succ_self _), hw, hr]

/-- A choice between two parts: the test jumps to the second, and the first jumps over it. -/
theorem compiles_choice {test : Nat → Building Unit} {first second : Building Unit}
    {P : Nat → Layout} {Q R : Layout} (htest : ∀ r, Compiles (test r) (P r))
    (hfirst : Compiles first Q) (hsecond : Compiles second R) :
    Compiles
      (do
        let reg ← takeReg
        test reg
        let toSecond ← jumpAhead .jumpIfFalse reg
        giveBackReg
        first
        let toEnd ← jumpAhead .jump 0
        aimJump toSecond
        second
        aimJump toEnd)
      fun C names sc i j => ∃ k m, C.Room sc.top ∧ P sc.top C names sc.take i k ∧
        C.At k (.abx .jumpIfFalse sc.top (m + 1)) ∧ m + 1 ≤ maxWide ∧ Q C names sc (k + 1) m ∧
        C.At m (.abx .jump 0 j) ∧ j ≤ maxWide ∧ R C names sc (m + 1) j := by
  intro b b' u h hb hc
  obtain ⟨r, b₁, h₁, h⟩ := bind_eq_ok.1 h
  obtain ⟨u₂, b₂, h₂, h⟩ := bind_eq_ok.1 h
  obtain ⟨k, b₃, h₃, h⟩ := bind_eq_ok.1 h
  obtain ⟨u₄, b₄, h₄, h⟩ := bind_eq_ok.1 h
  obtain ⟨u₅, b₅, h₅, h⟩ := bind_eq_ok.1 h
  obtain ⟨m, b₆, h₆, h⟩ := bind_eq_ok.1 h
  obtain ⟨u₇, b₇, h₇, h⟩ := bind_eq_ok.1 h
  obtain ⟨u₈, b₈, h₈, h₉⟩ := bind_eq_ok.1 h
  obtain ⟨rfl, hn₄, hg₄, hw₄, l₄⟩ := lays_test htest h₁ h₂ h₃ h₄ hb hc
  have l₅ := hfirst b₄ b₅ u₅ h₅ (l₄.grows.sound hb) (l₄.nested hc)
  have hc₅ : b₅.context = b.context := l₅.context.trans l₄.context
  have hk : b₂.next < b₄.next := by omega
  have hle₅ : b₄.next ≤ b₅.next := l₅.grows.next
  obtain ⟨rfl, hg₆, hc₆, hn₆, hw₆⟩ := jumpAhead_ok h₆ (Nat.le_refl b₅.next)
  obtain ⟨hg₇, hc₇, hn₇, hwide₇, hother₇, haim₇⟩ := aimJump_ok h₇ (Nat.le_refl b₂.next)
  -- code from the first jump on may still change, as that jump is aimed behind the first part
  have hg₅₇ : Grows b₂.next b₅ b₇ := (hg₆.weaken (by omega)).trans hg₇
  have hc₇' : b₇.context = b.context := hc₇.trans (hc₆.trans hc₅)
  have hb₇ : b₇.Sound := hg₅₇.sound (l₅.grows.sound (l₄.grows.sound hb))
  have l₈ := hsecond b₇ b₈ u₈ h₈ hb₇ (by rw [hc₇']; exact hc)
  obtain ⟨hg₉, hc₉, hn₉, hwide₉, hother₉, haim₉⟩ := aimJump_ok h₉ (Nat.le_refl b₅.next)
  have hle₈ : b₇.next ≤ b₈.next := l₈.grows.next
  have hg₅ : Grows b₂.next b₄ b₅ := l₅.grows.weaken (by omega)
  have hg₇₉ : Grows b₅.next b₇ b' := (l₈.grows.weaken (by omega)).trans hg₉
  have hg₅₉ : Grows b₂.next b₅ b' := hg₅₇.trans (hg₇₉.weaken (by omega))
  have hg₄₉ : Grows b₂.next b₄ b' := hg₅.trans hg₅₉
  have hstart : b.next ≤ b₂.next := by
    have := (lays_above htest h₁ h₂ hb hc).2.grows.next
    omega
  refine ⟨l₄.grows.trans (hg₄₉.weaken hstart), hc₉.trans (l₈.context.trans hc₇'), fun C hC => ?_⟩
  have hscope₄ : b₄.scope = b.scope := l₄.scope
  have hscope₇ : b₇.scope = b.scope := congrArg Context.scope hc₇'
  have hnames₇ : b₇.names = b.names := by
    rw [hg₅₇.names, l₅.grows.names, l₄.grows.names]
  obtain ⟨hroom, htested⟩ := (lays_above htest h₁ h₂ hb hc).2.laid C (hC.before (hg₄.trans hg₄₉))
  refine ⟨b₂.next, b₅.next, hroom, htested, ?_, by omega, ?_, ?_, by omega, ?_⟩
  · refine hC.at_of_code hstart ?_
    rw [hother₉ _ (by omega), l₈.grows.code _ (by omega), ← hn₆]
    refine haim₇ _ _ 0 ?_
    rw [hg₆.code _ (by omega), l₅.grows.code _ hk, hw₄]
  · -- both aims are outside the first part: at the jump before it and at the jump behind it
    have hfin : Finishes C b₄.next b₅ := by
      refine (hC.later (Nat.le_of_lt (Nat.lt_of_le_of_lt hstart hk))).earlier hg₅₉ fun p hp hlt => ?_
      rw [hother₉ p (by omega), l₈.grows.code p (by omega), hother₇ p (by omega), hg₆.code p hlt]
    have hlaid := l₅.laid C hfin
    rwa [l₄.grows.names, hscope₄, hn₄] at hlaid
  · refine hC.at_of_code (by omega) ?_
    rw [hn₉]
    refine haim₉ _ _ 0 ?_
    rw [l₈.grows.code _ (by omega), hother₇ _ (by omega), hw₆]
  · have hfin : Finishes C b₇.next b₈ :=
      (hC.later (by omega)).earlier hg₉ fun p hp _ => hother₉ p (by omega)
    have hlaid := l₈.laid C hfin
    rwa [hnames₇, hscope₇, hn₇, hn₆, ← hn₉] at hlaid

/-- A loop: the test jumps behind the body, and the body jumps back to the test. -/
theorem compiles_loop {test body : Nat → Building Unit} {P Q : Nat → Layout}
    (htest : ∀ r, Compiles (test r) (P r)) (hbody : ∀ r, Compiles (body r) (Q r)) :
    Compiles
      (do
        let start ← here
        let reg ← takeReg
        test reg
        let toEnd ← jumpAhead .jumpIfFalse reg
        giveBackReg
        let scratch ← takeReg
        body scratch
        giveBackReg
        updateBody? fun f => f.jumpBack start
        aimJump toEnd)
      fun C names sc i j => ∃ k m, i ≤ maxWide ∧ C.Room sc.top ∧ P sc.top C names sc.take i k ∧
        C.At k (.abx .jumpIfFalse sc.top (m + 1)) ∧ m + 1 ≤ maxWide ∧
        Q sc.top C names sc.take (k + 1) m ∧ C.At m (.abx .jump 0 i) ∧ j = m + 1 := by
  intro b b' u h hb hc
  obtain ⟨start, b₀, h₀, h⟩ := bind_eq_ok.1 h
  obtain ⟨rfl, rfl⟩ := here_ok h₀
  obtain ⟨r, b₁, h₁, h⟩ := bind_eq_ok.1 h
  obtain ⟨u₂, b₂, h₂, h⟩ := bind_eq_ok.1 h
  obtain ⟨k, b₃, h₃, h⟩ := bind_eq_ok.1 h
  obtain ⟨u₄, b₄, h₄, h⟩ := bind_eq_ok.1 h
  obtain ⟨s, b₅, h₅, h⟩ := bind_eq_ok.1 h
  obtain ⟨u₆, b₆, h₆, h⟩ := bind_eq_ok.1 h
  obtain ⟨u₇, b₇, h₇, h⟩ := bind_eq_ok.1 h
  obtain ⟨u₈, b₈, h₈, h₉⟩ := bind_eq_ok.1 h
  obtain ⟨rfl, hn₄, hg₄, hw₄, l₄⟩ := lays_test htest h₁ h₂ h₃ h₄ hb hc
  have hb₄ : b₄.Sound := l₄.grows.sound hb
  obtain ⟨-, l₆⟩ := lays_above hbody h₅ h₆ hb₄ (l₄.nested hc)
  obtain ⟨hg₇, hc₇, hn₇⟩ := giveBackReg_ok (n := b₆.next) h₇ (l₆.grows.sound hb₄).top_le
  have hc₇' : b₇.context = b.context :=
    (context_of_giveBack l₆.context hc₇).trans l₄.context
  obtain ⟨hwide₈, hg₈, hc₈, hn₈, hw₈⟩ := jumpBack_ok h₈ (Nat.le_of_eq hn₇.symm)
  obtain ⟨hg₉, hc₉, hn₉, hwide₉, hother₉, haim₉⟩ := aimJump_ok h₉ (Nat.le_refl b₂.next)
  have hk : b₂.next < b₄.next := by omega
  have hle₆ : b₄.next ≤ b₆.next := l₆.grows.next
  have hg₆₈ : Grows b₆.next b₆ b₈ := hg₇.trans hg₈
  have hg₆₉ : Grows b₂.next b₆ b' := (hg₆₈.weaken (by omega)).trans hg₉
  have hg₄₉ : Grows b₂.next b₄ b' := (l₆.grows.weaken (by omega)).trans hg₆₉
  have hstart : b.next ≤ b₂.next := by
    have := (lays_above htest h₁ h₂ hb hc).2.grows.next
    omega
  refine ⟨l₄.grows.trans (hg₄₉.weaken hstart), hc₉.trans (hc₈.trans hc₇'), fun C hC => ?_⟩
  have hscope₄ : b₄.scope = b.scope := l₄.scope
  obtain ⟨hroom, htested⟩ := (lays_above htest h₁ h₂ hb hc).2.laid C (hC.before (hg₄.trans hg₄₉))
  refine ⟨b₂.next, b₆.next, hwide₈, hroom, htested, ?_, by omega, ?_, ?_, by omega⟩
  · refine hC.at_of_code hstart ?_
    have haimed := haim₉ .jumpIfFalse b.scope.top 0 (by
      rw [hg₆₈.code _ (by omega), l₆.grows.code _ hk, hw₄])
    rwa [hn₈, hn₇] at haimed
  · -- the jump back and the aim are outside the body
    have hfin : Finishes C b₄.next b₆ := by
      refine (hC.later (Nat.le_of_lt (Nat.lt_of_le_of_lt hstart hk))).earlier hg₆₉ fun p hp hlt => ?_
      rw [hother₉ p (by omega), hg₆₈.code p hlt]
    have hlaid := (l₆.laid C hfin).2
    rwa [l₄.grows.names, hscope₄, hn₄] at hlaid
  · refine hC.at_of_code (by omega) ?_
    rw [hother₉ _ (by omega), ← hn₇, hw₈]

/-! ## Calls and blocks -/

/-- Arguments are laid out on top of each other. -/
def CompilesArgs (step : Building Unit) (n : Nat) (P : Layout) : Prop :=
  ∀ b b' u, step b = .ok (u, b') → b.Sound → b.context.Nested →
    Lays b b' (b.context.takeMany n) fun C => P C b.names b.scope b.next b'.next

/-- A call: the callee, the arguments above it, and the instruction. -/
theorem compiles_call {callee : Nat → Building Unit} {args : Building Unit} {n t : Nat}
    {P : Nat → Layout} {Q : Layout} (hcallee : ∀ r, Compiles (callee r) (P r))
    (hargs : CompilesArgs args n Q) :
    Compiles
      (do
        let func ← takeReg
        callee func
        args
        emitABC .call t func n
        giveBackRegs n
        giveBackReg)
      fun C names sc i j => ∃ k m, C.Room sc.top ∧ P sc.top C names sc.take i k ∧
        Q C names sc.take k m ∧ C.At m (.abc .call t sc.top n) ∧ j = m + 1 := by
  intro b b' u h hb hc
  obtain ⟨r, b₁, h₁, h⟩ := bind_eq_ok.1 h
  obtain ⟨u₂, b₂, h₂, h⟩ := bind_eq_ok.1 h
  obtain ⟨u₃, b₃, h₃, h⟩ := bind_eq_ok.1 h
  obtain ⟨u₄, b₄, h₄, h⟩ := bind_eq_ok.1 h
  obtain ⟨u₅, b₅, h₅, h⟩ := bind_eq_ok.1 h
  obtain ⟨hr, l₂⟩ := lays_above hcallee h₁ h₂ hb hc
  have hb₂ : b₂.Sound := l₂.grows.sound hb
  have l₃ := hargs b₂ b₃ u₃ h₃ hb₂ (l₂.nested hc.take)
  have hc₃ : b₃.context = b.context.take.takeMany n := by
    rw [l₃.context, l₂.context]
  obtain ⟨hg₄, hc₄, hn₄, hw₄⟩ := emitABC_ok h₄ (Nat.le_refl b₃.next)
  have hb₄ : b₄.Sound := hg₄.sound (l₃.grows.sound hb₂)
  obtain ⟨hg₅, hc₅, hn₅⟩ := giveBackRegs_ok (n := b₄.next) h₅ hb₄.top_le
  obtain ⟨hg₆, hc₆, hn₆⟩ := giveBackReg_ok (n := b₄.next) h (hg₅.sound hb₄).top_le
  have hback : b₅.context = b.context.take := by
    rw [hc₅, hc₄, hc₃]
    show (⟨_, _, b.context.top + 1 + n - n⟩ : Context) = _
    rw [Nat.add_sub_cancel]
    rfl
  have hg₄₆ : Grows b₄.next b₄ b' := hg₅.trans hg₆
  have hg₃₆ : Grows b₃.next b₃ b' := hg₄.trans (hg₄₆.weaken hg₄.next)
  have hg₂₆ : Grows b₂.next b₂ b' := l₃.grows.trans (hg₃₆.weaken l₃.grows.next)
  have hle₂ := l₂.grows.next
  have hle₃ := l₃.grows.next
  refine ⟨l₂.grows.trans (hg₂₆.weaken hle₂), context_of_giveBack hback hc₆, fun C hC => ?_⟩
  obtain ⟨hroom, hf⟩ := l₂.laid C (hC.before hg₂₆)
  have hlaid := l₃.laid C ((hC.later hle₂).before hg₃₆)
  have hscope : b₂.scope = b.scope.take := congrArg Context.scope l₂.context
  rw [l₂.grows.names, hscope] at hlaid
  refine ⟨b₂.next, b₃.next, hroom, hf, hlaid, ?_, by omega⟩
  refine hC.at_of_code (by omega) ?_
  rw [hg₄₆.code _ (by omega), hw₄, hr]

/-- The statements of a block may add locals to its scope. -/
def CompilesTail (step : Building Unit) (P : Layout) : Prop :=
  ∀ b b' u, step b = .ok (u, b') → b.Sound → b.context.Nested → b.atTopLevel = false →
    ∃ new : List Local, (∀ l ∈ new, l.depth = b.context.depth) ∧
      Lays b b' (b.context.extend new) fun C => P C b.names b.scope b.next b'.next

theorem Compiles.tail {step : Building Unit} {P : Layout} (h : Compiles step P) :
    CompilesTail step P :=
  fun b b' u hstep hb hc _ => ⟨[], by simp, h b b' u hstep hb hc⟩

/-- A block closes its scope. -/
theorem compiles_block {step : Building Unit} {P : Layout} (h : CompilesTail step P) :
    Compiles
      (do
        updateBody Body.beginScope
        step
        updateBody Body.endScope) P := by
  intro b b' u hstep hb hc
  obtain ⟨u₁, b₁, h₁, hstep⟩ := bind_eq_ok.1 hstep
  obtain ⟨u₂, b₂, h₂, h₃⟩ := bind_eq_ok.1 hstep
  obtain ⟨hg₁, hc₁, hn₁⟩ := beginScope_ok (n := b.next) h₁ hb.top_le
  have hb₁ : b₁.Sound := hg₁.sound hb
  have hnested : b₁.context.Nested := by
    rw [hc₁]
    exact fun l hl => Nat.le_succ_of_le (hc l hl)
  have hlevel : b₁.atTopLevel = false := by
    have hdepth : b₁.body.depth = b.body.depth + 1 := congrArg Context.depth hc₁
    rw [Builder.atTopLevel, hdepth]
    simp
  obtain ⟨new, hnew, l⟩ := h b₁ b₂ u₂ h₂ hb₁ hnested hlevel
  have hc₂ : b₂.context = b.context.deepen.extend new := by
    rw [l.context, hc₁]
  have hdeep : ∀ l ∈ new, l.depth = b.context.depth + 1 := by
    intro l hl
    rw [hnew l hl, hc₁]
    rfl
  obtain ⟨hg₃, hc₃, hn₃⟩ := endScope_ok (n := b₂.next) h₃ (l.grows.sound hb₁).top_le hc hdeep hc₂
  have hle : b₁.next ≤ b₂.next := l.grows.next
  have hg₁₂ : Grows b.next b b₂ := hg₁.trans (l.grows.weaken (Nat.le_of_eq hn₁.symm))
  refine ⟨hg₁₂.trans (hg₃.weaken hg₁₂.next), hc₃, fun C hC => ?_⟩
  have hfin : Finishes C b₁.next b₂ := by
    rw [hn₁]
    exact hC.before hg₃
  have hlaid := l.laid C hfin
  have hscope : b₁.scope = b.scope := by
    show b₁.context.scope = b.context.scope
    rw [hc₁]
    rfl
  rwa [hg₁.names, hscope, hn₁, ← hn₃] at hlaid

/-! ## Statements -/

/-- A statement leads from one scope to the next; a plain one declares nothing. -/
def CompilesStmt (step : Building Unit) (plain : Prop)
    (P : Coding → Names → Scope → Scope → (i j : Nat) → Prop) : Prop :=
  ∀ b b' u, step b = .ok (u, b') → b.Sound → b.context.Nested → (b.atTopLevel = true → plain) →
    ∃ new : List Local, (∀ l ∈ new, l.depth = b.context.depth) ∧ (plain → new = []) ∧
      Lays b b' (b.context.extend new) fun C => P C b.names b.scope b'.scope b.next b'.next

/-- A statement followed by others. -/
theorem compilesTail_cons {first rest : Building Unit} {p : Prop}
    {P : Coding → Names → Scope → Scope → (i j : Nat) → Prop} {Q : Layout}
    (hfirst : CompilesStmt first p P) (hrest : CompilesTail rest Q) :
    CompilesTail (first >>= fun _ => rest) fun C names sc i j =>
      ∃ sc' k, P C names sc sc' i k ∧ Q C names sc' k j := by
  intro b b' u h hb hc hlevel
  obtain ⟨u₁, b₁, h₁, h₂⟩ := bind_eq_ok.1 h
  obtain ⟨new₁, hnew₁, -, l₁⟩ := hfirst b b₁ u₁ h₁ hb hc fun ht => by simp [hlevel] at ht
  have hnested : b₁.context.Nested := by
    rw [l₁.context]
    intro l hl
    rcases List.mem_append.1 hl with hl | hl
    · exact Nat.le_of_eq (hnew₁ l hl)
    · exact hc l hl
  have hdepth : b₁.context.depth = b.context.depth := by
    rw [l₁.context]
    rfl
  have hlevel₁ : b₁.atTopLevel = false := (l₁.grows.atTopLevel hdepth).trans hlevel
  obtain ⟨new₂, hnew₂, l₂⟩ := hrest b₁ b' u h₂ (l₁.grows.sound hb) hnested hlevel₁
  refine ⟨new₂ ++ new₁, ?_, l₁.grows.trans (l₂.grows.weaken l₁.grows.next), ?_, fun C hC => ?_⟩
  · intro l hl
    rcases List.mem_append.1 hl with hl | hl
    · rw [hnew₂ l hl, hdepth]
    · exact hnew₁ l hl
  · rw [l₂.context, l₁.context]
    show (⟨new₂ ++ (new₁ ++ b.context.locals), _, b.context.top + new₁.length + new₂.length⟩ :
      Context) = ⟨new₂ ++ new₁ ++ b.context.locals, _, b.context.top + (new₂ ++ new₁).length⟩
    rw [List.append_assoc, List.length_append, Nat.add_assoc, Nat.add_comm new₁.length]
    rfl
  · have hlaid := l₂.laid C (hC.later l₁.grows.next)
    rw [l₁.grows.names] at hlaid
    exact ⟨b₁.scope, b₁.next, l₁.laid C (hC.before l₂.grows), hlaid⟩

end ScriptMachine.Compile
