import ScriptMachine.Proofs.Compile.Functions
import ScriptMachine.Proofs.Compile.Numbering
import Mathlib.Data.List.Forall2

/-!
# Compiled fragments

A fragment that is compiled is laid out, and so is each function that it declares. The functions are
finished in the order of their declarations, and each has a slot of its own.
-/

namespace ScriptMachine.Compile

open Source Bytecode Evaluation

/-! ## Statements at the top level -/

theorem Expands.of_names {b : Builder} {n : Nat} {names : Names} {staged : List Definition} :
    Expands n b { b with names, staged } :=
  ⟨rfl, rfl, rfl, fun _ _ h => h, Nat.le_refl _, fun _ _ h => h, Nat.le_refl _, Nat.le_refl _,
    fun _ _ => rfl, fun h => h⟩

theorem newSlot_ok {name : String} {mutable : Bool} {slot : Nat} {b b' : Builder}
    (h : newSlot name mutable b = .ok (slot, b')) :
    slot = b.names.nextSlot ∧ slot ≤ maxWide ∧
      b' = { b with
        names := b.names.define ⟨name, slot, mutable⟩
        staged := ⟨name, slot, mutable⟩ :: b.staged } := by
  unfold newSlot at h
  simp only at h
  split_ifs at h with hslot
  cases h
  exact ⟨rfl, Nat.le_of_not_lt hslot, rfl⟩

/-- The finished code has what the builder has, and the constants that are functions are those of
the declarations `fs`. -/
structure FinishesTop (C : Coding) (made : Nat → Closure → Prop) (n : Nat) (b : Builder)
    (fs : List Closure) : Prop extends Finishes C n b where
  prototypes : b.prototypes.size ≤ 2 ^ 32
  made : ∀ (k : Nat) (i : UInt32) (f : Closure),
    b.body.constants[k]? = some (.fn i) → fs[i.toNat]? = some f → made k f

/-- From `b` to `b'`, statements at the top level were compiled, which declare these functions. -/
structure Advances (b b' : Builder) (new : List Closure) : Prop where
  expands : Expands b.next b b'
  context : b'.context = b.context
  prototypes : ∃ ps, b'.prototypes.toList = b.prototypes.toList ++ ps ∧
    List.Forall₂ (fun p f => SoundPrototype b'.strings.size b'.prototypes.size p ∧
      ∀ strings, StringsIn b'.strings strings → FunctionAt strings p f) ps new
  staged : ∃ ds, b'.staged = ds.reverse ++ b.staged ∧ b'.names = b.names.commit ds ∧
    InARow b.names.nextSlot ds ∧ ∀ f ∈ new, ∃ es, es <+: ds ∧ f.names = b.names.commit es
  rising : (new.map Closure.slot).Pairwise (· < ·)
  between : ∀ f ∈ new, b.names.nextSlot ≤ f.slot ∧ f.slot < b'.names.nextSlot

namespace Advances

variable {b b₁ b₂ : Builder} {new more : List Closure}

theorem nextSlot (h : Advances b b₁ new) : b.names.nextSlot ≤ b₁.names.nextSlot := by
  obtain ⟨ds, -, hnames, hrow, -⟩ := h.staged
  rw [hnames, Names.nextSlot_commit _ _ hrow]
  exact Nat.le_add_right _ _

theorem of_grows (hg : Grows b.next b b₁) (hc : b₁.context = b.context) : Advances b b₁ [] where
  expands := hg.toExpands
  context := hc
  prototypes := ⟨[], by rw [hg.prototypes, List.append_nil], .nil⟩
  staged := ⟨[], hg.staged, hg.names, trivial, by simp⟩
  rising := List.Pairwise.nil
  between := by simp

theorem size_eq (h : Advances b b₁ new) :
    b₁.prototypes.size = b.prototypes.size + new.length := by
  obtain ⟨ps, hps, hall⟩ := h.prototypes
  rw [← Array.length_toList, hps, List.length_append, hall.length_eq, Array.length_toList]

theorem trans (h₁ : Advances b b₁ new) (h₂ : Advances b₁ b₂ more) :
    Advances b b₂ (new ++ more) where
  expands := h₁.expands.trans (h₂.expands.weaken h₁.expands.next)
  context := h₂.context.trans h₁.context
  prototypes := by
    obtain ⟨ps, hps, hall₁⟩ := h₁.prototypes
    obtain ⟨qs, hqs, hall₂⟩ := h₂.prototypes
    refine ⟨ps ++ qs, by rw [hqs, hps, List.append_assoc], List.rel_append ?_ hall₂⟩
    refine hall₁.imp fun p f hp => ⟨hp.1.mono h₂.expands.strings_size ?_, fun strings hs => ?_⟩
    · have := h₂.size_eq
      omega
    · exact hp.2 strings ⟨fun i s hi => hs.1 i s (h₂.expands.strings i s hi), hs.2⟩
  staged := by
    obtain ⟨ds, hds, hnames₁, hrow₁, hnew⟩ := h₁.staged
    obtain ⟨es, hes, hnames₂, hrow₂, hmore⟩ := h₂.staged
    have hcommit : ∀ es, b₁.names.commit es = b.names.commit (ds ++ es) := fun es => by
      rw [hnames₁, Names.commit_append]
    rw [hnames₁, Names.nextSlot_commit _ _ hrow₁] at hrow₂
    refine ⟨ds ++ es, by rw [hes, hds, List.reverse_append, List.append_assoc],
      hnames₂.trans (hcommit es), hrow₁.append hrow₂, fun f hf => ?_⟩
    rcases List.mem_append.1 hf with hf | hf
    · obtain ⟨fs, hfs, hf⟩ := hnew f hf
      exact ⟨fs, hfs.trans (List.prefix_append ..), hf⟩
    · obtain ⟨fs, hfs, hf⟩ := hmore f hf
      exact ⟨ds ++ fs, (List.prefix_append_right_inj ds).2 hfs, hf.trans (hcommit fs)⟩
  rising := by
    rw [List.map_append, List.pairwise_append]
    refine ⟨h₁.rising, h₂.rising, fun x hx y hy => ?_⟩
    obtain ⟨f, hf, rfl⟩ := List.mem_map.1 hx
    obtain ⟨g, hg, rfl⟩ := List.mem_map.1 hy
    exact Nat.lt_of_lt_of_le (h₁.between f hf).2 (h₂.between g hg).1
  between f hf := by
    rcases List.mem_append.1 hf with hf | hf
    · exact ⟨(h₁.between f hf).1, Nat.lt_of_lt_of_le (h₁.between f hf).2 h₂.nextSlot⟩
    · exact ⟨Nat.le_trans h₁.nextSlot (h₂.between f hf).1, (h₂.between f hf).2⟩

end Advances

/-- What has a later state of the builder has an earlier one. -/
theorem FinishesTop.before {C : Coding} {made : Nat → Closure → Prop} {n : Nat} {b b' : Builder}
    {fs new : List Closure} (h : FinishesTop C made n b' (fs ++ new)) (ha : Advances b b' new) :
    FinishesTop C made n b fs where
  toFinishes := h.of_expands ha.expands fun p _ hp => ha.expands.code p hp
  prototypes := by
    have := ha.size_eq
    have := h.prototypes
    omega
  made k i f hk hf := by
    refine h.made k i f (ha.expands.constants k _ hk) ?_
    rw [List.getElem?_append_left (List.getElem?_eq_some_iff.1 hf).1, hf]

theorem FinishesTop.later {C : Coding} {made : Nat → Closure → Prop} {n m : Nat} {b : Builder}
    {fs : List Closure} (h : FinishesTop C made n b fs) (hm : n ≤ m) :
    FinishesTop C made m b fs :=
  { h with toFinishes := h.toFinishes.later hm }

/-- The builder compiles statements at the top level. -/
structure AtTop (b : Builder) : Prop where
  sound : b.Sound
  context : b.context = ⟨[], 0, 1⟩
  waiting : b.waiting = none

namespace AtTop

variable {b b' : Builder}

theorem scope (h : AtTop b) : b.scope = topScope := by
  show b.context.scope = topScope
  rw [h.context]
  rfl

theorem nested (h : AtTop b) : b.context.Nested := by
  rw [h.context]
  intro l hl
  cases hl

theorem atTopLevel (h : AtTop b) : b.atTopLevel = true := by
  have hdepth : b.body.depth = 0 := congrArg Context.depth h.context
  rw [Builder.atTopLevel, h.waiting, hdepth]
  rfl

theorem advances (h : AtTop b) {new : List Closure} (ha : Advances b b' new) : AtTop b' :=
  ⟨ha.expands.sound h.sound, ha.context.trans h.context, ha.expands.waiting.trans h.waiting⟩

end AtTop

/-- What is compiled of a statement at the top level, before the rest of the fragment. -/
structure LaysTop (b b' : Builder) (stmt : Stmt) : Prop where
  advances : Advances b b' (declared b.names [stmt])
  names : b'.names = namesAfter b.names stmt
  laid : ∀ fs : List Closure, fs.length = b.prototypes.size → ∀ C made after rest j,
    FinishesTop C made b.next b' (fs ++ declared b.names [stmt]) →
      TopAt C made after b'.names rest b'.next j →
        TopAt C made after b.names (stmt :: rest) b.next j

theorem laysTop_expr {e : Expr} {b b' : Builder} {u : Unit} (hb : AtTop b)
    (h : compileStmt (.expr e) b = .ok (u, b')) : LaysTop b b' (.expr e) := by
  simp only [compileStmt] at h
  rw [get_bind_eq_ok, if_pos hb.atTopLevel] at h
  have l := compiles_expr e resultReg b b' u h hb.sound hb.nested
  refine ⟨.of_grows l.grows l.context, l.grows.names, fun fs _ C made after rest j hC hrest => ?_⟩
  have hlaid := l.laid C hC.toFinishes
  rw [hb.scope] at hlaid
  rw [l.grows.names] at hrest
  exact .expr hlaid hrest

theorem declared_plain (names : Names) {stmt : Stmt} (hplain : Plain stmt) :
    declared names [stmt] = [] ∧ namesAfter names stmt = names := by
  cases stmt <;> first | exact ⟨rfl, rfl⟩ | exact hplain.elim

theorem laysTop_plain {stmt : Stmt} (hplain : Plain stmt) {b b' : Builder} {u : Unit}
    (hb : AtTop b) (h : compileStmt stmt b = .ok (u, b')) : LaysTop b b' stmt := by
  obtain ⟨new, -, hnew, l⟩ := compiles_stmt stmt b b' u h hb.sound hb.nested fun _ => hplain
  have hc : b'.context = b.context := by
    rw [l.context, hnew hplain]
    rfl
  obtain ⟨hnone, hafter⟩ := declared_plain b.names hplain
  refine ⟨hnone ▸ .of_grows l.grows hc, l.grows.names.trans hafter.symm,
    fun fs _ C made after rest j hC hrest => ?_⟩
  have hlaid := l.laid C hC.toFinishes
  have hscope : b'.scope = b.scope := congrArg Context.scope hc
  rw [hscope, hb.scope] at hlaid
  rw [l.grows.names] at hrest
  exact .plain hplain hlaid hrest

/-- Without a finished function, a definition is all that advances. -/
theorem Advances.of_definition {b b₁ b' : Builder} {d : Definition} (hg : Grows b.next b b₁)
    (hslot : d.slot = b.names.nextSlot)
    (hg' : Grows b.next { b₁ with names := b₁.names.define d, staged := d :: b₁.staged } b')
    (hc : b'.context = b.context) : Advances b b' [] where
  expands := hg.toExpands.trans (Expands.of_names.trans hg'.toExpands)
  context := hc
  prototypes := ⟨[], by rw [hg'.prototypes, List.append_nil]; exact congrArg _ hg.prototypes, .nil⟩
  staged := by
    refine ⟨[d], ?_, ?_, ⟨hslot, trivial⟩, by simp⟩
    · rw [hg'.staged]
      exact congrArg _ hg.staged
    · rw [hg'.names]
      exact congrArg (Names.define · d) hg.names
  rising := List.Pairwise.nil
  between := by simp

theorem laysTop_bind {mutable : Bool} {name : String} {value : Expr} {pos : Position}
    {b b' : Builder} {u : Unit} (hb : AtTop b)
    (h : compileStmt (.bind mutable name value pos) b = .ok (u, b')) :
    LaysTop b b' (.bind mutable name value pos) := by
  simp only [compileStmt] at h
  obtain ⟨r, b₁, h₁, h⟩ := bind_eq_ok.1 h
  obtain ⟨u₂, b₂, h₂, h₃⟩ := bind_eq_ok.1 h
  obtain ⟨hr, l⟩ := lays_above (compiles_expr value) h₁ h₂ hb.sound hb.nested
  have hlevel : b₂.atTopLevel = true := by
    rw [l.grows.atTopLevel (by rw [l.context]; rfl), hb.atTopLevel]
  unfold bindName at h₃
  rw [get_bind_eq_ok, if_pos hlevel] at h₃
  obtain ⟨slot, b₃, hslot, h₃⟩ := bind_eq_ok.1 h₃
  obtain ⟨u₄, b₄, h₄, h₅⟩ := bind_eq_ok.1 h₃
  obtain ⟨hnext, hwide, rfl⟩ := newSlot_ok hslot
  rw [l.grows.names] at hnext
  subst hnext
  obtain ⟨hg₄, hc₄, hn₄, hw₄⟩ := emitABx_ok h₄ (Nat.le_refl b₂.next)
  have hb₄ : b₄.Sound := hg₄.sound (l.grows.sound hb.sound)
  obtain ⟨hg₅, hc₅, hn₅⟩ := giveBackReg_ok (n := b₂.next + 1) h₅ hb₄.top_le
  have hrest := hg₄.trans (hg₅.weaken (Nat.le_succ _))
  have hc : b'.context = b.context := context_of_giveBack (hc₄.trans l.context) hc₅
  have ha := Advances.of_definition l.grows rfl (hrest.weaken l.grows.next) hc
  have hnames : b'.names = b.names.define ⟨name, b.names.nextSlot, mutable⟩ :=
    hrest.names.trans (congrArg (Names.define · _) l.grows.names)
  refine ⟨ha, hnames, fun fs _ C made after rest j hC hlaid => ?_⟩
  have hfin : Finishes C b.next b₂ :=
    hC.of_expands (Expands.of_names.trans hrest.toExpands) fun p _ hp => hrest.code p hp
  obtain ⟨hroom, he⟩ := l.laid C hfin
  rw [hb.scope] at hroom he
  have hn : b'.next = b₂.next + 1 := hn₅.trans hn₄
  rw [hrest.names, hn, l.grows.names] at hlaid
  refine .bind hroom he hwide ?_ hlaid
  refine hC.at_of_code l.grows.next ?_
  rw [hg₅.code _ (Nat.lt_succ_self _)]
  rw [hr, hb.scope] at hw₄
  exact hw₄

/-- A function that was compiled after its name was defined advances by its definition. -/
theorem Advances.of_function {b b' : Builder} {f : Closure} {index : Nat} {p : Prototype}
    (hslot : f.slot = b.names.nextSlot) (hnames : f.names = b.names.define ⟨f.name, f.slot, false⟩)
    (h : AddsFunction { b with names := f.names, staged := ⟨f.name, f.slot, false⟩ :: b.staged } b'
      index f p) : Advances b b' [f] where
  expands := Expands.of_names.trans h.expands
  context := h.context
  prototypes := by
    refine ⟨[p], by rw [h.prototypes, Array.toList_push], .cons ⟨?_, h.laid⟩ .nil⟩
    refine h.sound.mono (Nat.le_refl _) ?_
    rw [h.prototypes, Array.size_push]
    exact Nat.le_succ _
  staged := by
    refine ⟨[⟨f.name, f.slot, false⟩], h.staged, h.names.trans hnames, ⟨hslot, trivial⟩, ?_⟩
    intro g hg
    rw [List.mem_singleton.1 hg]
    exact ⟨_, List.prefix_rfl, hnames⟩
  rising := List.pairwise_singleton _ _
  between g hg := by
    rw [List.mem_singleton.1 hg, h.names]
    show _ ∧ f.slot < f.names.nextSlot
    rw [hnames, hslot]
    exact ⟨Nat.le_refl _, Nat.le_max_right _ _⟩

/-- Stores a function that was compiled in a global slot. -/
def storeFunction (slot index : Nat) : Building Unit := do
  let k ← constantIndex (.fn (UInt32.ofNat index))
  let reg ← takeReg
  emitABx .loadConst reg k
  emitABx .defGlobal reg slot
  giveBackReg

theorem storeFunction_ok {slot index : Nat} {b b' : Builder} {u : Unit} (hb : AtTop b)
    (hindex : (UInt32.ofNat index).toNat < b.prototypes.size)
    (h : storeFunction slot index b = .ok (u, b')) :
    Grows b.next b b' ∧ b'.context = b.context ∧ b'.next = b.next + 2 ∧ 1 < b'.body.maxSlots ∧
      ∃ k ≤ maxWide, b'.body.constants[k]? = some (.fn (UInt32.ofNat index)) ∧
        b'.body.code[b.next]? = some (.abx .loadConst 1 k) ∧
        b'.body.code[b.next + 1]? = some (.abx .defGlobal 1 slot) := by
  obtain ⟨k, b₁, h₁, h⟩ := bind_eq_ok.1 h
  obtain ⟨r, b₂, h₂, h⟩ := bind_eq_ok.1 h
  obtain ⟨u₃, b₃, h₃, h⟩ := bind_eq_ok.1 h
  obtain ⟨u₄, b₄, h₄, h₅⟩ := bind_eq_ok.1 h
  obtain ⟨hg₁, hc₁, hn₁, hk⟩ := constantIndex_ok (n := b.next) h₁ (decide_eq_true hindex)
  obtain ⟨hr, -, hg₂, hc₂, hn₂, hslots⟩ := takeReg_ok (n := b.next) h₂
  have hstart : b₂.next = b.next := hn₂.trans hn₁
  obtain ⟨hg₃, hc₃, hn₃, hw₃⟩ := emitABx_ok h₃ (Nat.le_of_eq hstart.symm)
  obtain ⟨hg₄, hc₄, hn₄, hw₄⟩ := emitABx_ok h₄ (Nat.le_refl b₃.next)
  have hmiddle : b₃.next = b.next + 1 := by rw [hn₃, hstart]
  have hg : Grows b.next b b₄ :=
    hg₁.trans (hg₂.trans (hg₃.trans (hg₄.weaken (by omega))))
  obtain ⟨hg₅, hc₅, hn₅⟩ := giveBackReg_ok (n := b₄.next) h₅ (hg.sound hb.sound).top_le
  have hone : r = 1 := by rw [hr, hc₁, hb.context]
  rw [hstart, hone] at hw₃
  rw [hmiddle, hone] at hw₄
  refine ⟨hg.trans (hg₅.weaken hg.next), context_of_giveBack (by rw [hc₄, hc₃, hc₂, hc₁]) hc₅,
    by omega, ?_, k, ?_, ?_, ?_, ?_⟩
  · rw [← hone]
    exact Nat.lt_of_lt_of_le hslots
      (Nat.le_trans hg₃.slots (Nat.le_trans hg₄.slots hg₅.slots))
  · have hlimit := (hg₁.sound hb.sound).constants_size
    have hlt := (Array.getElem?_eq_some_iff.1 hk).1
    omega
  · exact hg₅.constants _ _ (hg₄.constants _ _ (hg₃.constants _ _ (hg₂.constants _ _ hk)))
  · rw [hg₅.code _ (by omega), hg₄.code _ (by omega), hw₃]
  · rw [hg₅.code _ (by omega), hw₄]

/-- A declaration at the top level defines its name, compiles the function and stores it. -/
theorem compileStmt_func (name : String) (params : List String) (body : Block) (pos : Position) :
    compileStmt (.func name params body pos) = (do
      if !(← get).atTopLevel then throw (.nestedFunction name pos)
      if params.length > maxArguments then throw .tooManyArguments
      let slot ← newSlot name false
      let index ← compileFunction name params body
      storeFunction slot index) := by
  simp only [compileStmt, compileFunction, functionCode, startFunction, storeFunction, bind_assoc]

theorem laysTop_func {name : String} {params : List String} {body : Block} {pos : Position}
    {b b' : Builder} {u : Unit} (hb : AtTop b)
    (h : compileStmt (.func name params body pos) b = .ok (u, b')) :
    LaysTop b b' (.func name params body pos) := by
  rw [compileStmt_func, get_bind_eq_ok, if_neg (by simp [hb.atTopLevel])] at h
  split_ifs at h with hcount
  · obtain ⟨_, _, hthrow, -⟩ := bind_eq_ok.1 h
    exact (throw_eq_ok.1 hthrow).elim
  obtain ⟨slot, b₁, hslot, h⟩ := bind_eq_ok.1 h
  obtain ⟨index, b₂, hfunction, hstore⟩ := bind_eq_ok.1 h
  obtain ⟨rfl, hwide, rfl⟩ := newSlot_ok hslot
  let f : Closure := ⟨name, params, body, b.names.define ⟨name, b.names.nextSlot, false⟩,
    b.names.nextSlot⟩
  let start : Builder :=
    { b with names := f.names, staged := ⟨name, b.names.nextSlot, false⟩ :: b.staged }
  have hwaiting : start.waiting = none := hb.waiting
  obtain ⟨p, hadds⟩ := lays_function (f := f) hwaiting (Nat.le_of_not_lt hcount) rfl hfunction
  have ha : Advances b b₂ [f] := .of_function rfl rfl hadds
  have hsize : b₂.prototypes.size = b.prototypes.size + 1 := ha.size_eq
  have hindex : index = b.prototypes.size := hadds.index
  have hlt : (UInt32.ofNat index).toNat < b₂.prototypes.size := by
    rw [UInt32.toNat_ofNat']
    exact Nat.lt_of_le_of_lt (Nat.mod_le _ _) (by omega)
  obtain ⟨hg, hc, hn, hroom, k, hk, hconstant, hload, hdef⟩ :=
    storeFunction_ok (hb.advances ha) hlt hstore
  have hnext : b₂.next = b.next := hadds.next
  have hall : Advances b b' ([f] ++ []) := ha.trans (.of_grows hg hc)
  refine ⟨hall, hg.names.trans hadds.names, fun fs hfs C made after rest j hC hrest => ?_⟩
  rw [hnext] at hload hdef
  rw [hg.names, hadds.names, hn, hnext] at hrest
  refine .func ⟨by decide, Nat.lt_of_lt_of_le hroom hC.slots⟩ hk (hC.made k _ _ hconstant ?_)
    (hC.at_of_code (Nat.le_refl _) hload) hwide (hC.at_of_code (Nat.le_succ _) hdef) hrest
  have hfew : b.prototypes.size < 2 ^ 32 := by
    have hlimit := hC.prototypes
    rw [hg.prototypes, hsize] at hlimit
    exact hlimit
  rw [UInt32.toNat_ofNat', hindex, Nat.mod_eq_of_lt hfew, ← hfs,
    List.getElem?_append_right (Nat.le_refl _), Nat.sub_self]
  rfl

theorem laysTop_stmt {stmt : Stmt} {b b' : Builder} {u : Unit} (hb : AtTop b)
    (h : compileStmt stmt b = .ok (u, b')) : LaysTop b b' stmt := by
  cases stmt with
  | expr e => exact laysTop_expr hb h
  | bind mutable name value pos => exact laysTop_bind hb h
  | func name params body pos => exact laysTop_func hb h
  | _ =>
    refine laysTop_plain ?_ hb h
    exact trivial

/-- The statements of a fragment are laid out in order. -/
theorem lays_stmts (stmts : List Stmt) {b b' : Builder} {u : Unit} (hb : AtTop b)
    (h : compileStmts stmts b = .ok (u, b')) :
    Advances b b' (declared b.names stmts) ∧ b'.names = stmts.foldl namesAfter b.names ∧
      ∀ fs : List Closure, fs.length = b.prototypes.size → ∀ C made,
        FinishesTop C made b.next b' (fs ++ declared b.names stmts) →
          TopAt C made b'.names b.names stmts b.next b'.next := by
  induction stmts generalizing b with
  | nil =>
    obtain ⟨-, rfl⟩ := pure_eq_ok.1 h
    exact ⟨.of_grows (.refl _ _) rfl, rfl, fun fs _ C made _ => .nil⟩
  | cons stmt rest ih =>
    obtain ⟨u₁, b₁, h₁, h₂⟩ := bind_eq_ok.1 h
    have hstmt := laysTop_stmt hb h₁
    have ha₁ := hstmt.advances
    obtain ⟨ha₂, hnames₂, hlaid₂⟩ := ih (hb.advances ha₁) h₂
    rw [hstmt.names] at ha₂ hnames₂
    rw [declared_cons]
    refine ⟨ha₁.trans ha₂, hnames₂, fun fs hfs C made hC => ?_⟩
    rw [← List.append_assoc] at hC
    have hlength : (fs ++ declared b.names [stmt]).length = b₁.prototypes.size := by
      rw [List.length_append, hfs, ha₁.size_eq]
    refine hstmt.laid fs hfs C made _ rest _ (hC.before ha₂)
      (hlaid₂ _ hlength C made ?_)
    rw [hstmt.names]
    exact hC.later ha₁.expands.next

/-! ## Fragments -/

/-- The constants of a body that are functions, given the declarations of its program. -/
def Made (p : Prototype) (fs : List Closure) (k : Nat) (f : Closure) : Prop :=
  ∃ i, p.constants[k]? = some (.fn i) ∧ fs[i.toNat]? = some f

/-- A compiled fragment: its functions are those that it declares, each with the names of the
fragment up to its own, and its tables fit the format. -/
structure Compiled.Laid (names : Names) (f : Fragment) (c : Compiled) (fs : List Closure) :
    Prop where
  functions : List.Forall₂ (fun p f =>
    SoundPrototype c.program.strings.size c.program.prototypes.size p ∧
      (c.program.strings.size ≤ 2 ^ 32 → FunctionAt c.program.strings p f))
    c.program.prototypes.toList fs
  main : SoundPrototype c.program.strings.size c.program.prototypes.size c.program.main
  code : c.program.strings.size ≤ 2 ^ 32 → c.program.prototypes.size ≤ 2 ^ 32 →
    MainAt (coding c.program.strings false c.program.main) (Made c.program.main fs) names
      (names.commit c.definitions) f
  row : InARow names.nextSlot c.definitions
  visible : ∀ f ∈ fs, ∃ ds, ds <+: c.definitions ∧ f.names = names.commit ds
  rising : (fs.map Closure.slot).Pairwise (· < ·)
  between : ∀ f ∈ fs, names.nextSlot ≤ f.slot ∧ f.slot < (names.commit c.definitions).nextSlot

/-- Each function of a compiled fragment has a declaration. -/
theorem Compiled.Laid.exists_closure {names : Names} {f : Fragment} {c : Compiled}
    {fs : List Closure} (h : c.Laid names f fs) {p : Prototype}
    (hp : p ∈ c.program.prototypes.toList) :
    ∃ g ∈ fs, SoundPrototype c.program.strings.size c.program.prototypes.size p ∧
      (c.program.strings.size ≤ 2 ^ 32 → FunctionAt c.program.strings p g) := by
  obtain ⟨i, hi, rfl⟩ := List.mem_iff_getElem.1 hp
  have hi' : i < fs.length := h.functions.length_eq ▸ hi
  exact ⟨fs[i], List.getElem_mem hi', h.functions.get hi hi'⟩

/-- How the main body of a fragment is compiled: by `b₁` the result is nil, by `b₂` the statements
have been compiled, and by `b` the result is returned. -/
structure MainSteps (names : Names) (f : Fragment) (b₁ b₂ b : Builder) (fs : List Closure) :
    Prop where
  start : Grows 0 (.new names) b₁
  atTop : AtTop b₁
  stmts : compileStmts f b₁ = .ok ((), b₂)
  first : b₁.next = 1
  clears : b₁.body.code[0]? = some (.abx .loadNil resultReg 0)
  room : 0 < b₁.body.maxSlots
  advances : Advances b₁ b₂ fs
  laid : ∀ C made, FinishesTop C made b₁.next b₂ fs →
    TopAt C made b₂.names b₁.names f b₁.next b₂.next
  last : Grows b₂.next b₂ b
  next : b.next = b₂.next + 1
  returns : b.body.code[b₂.next]? = some (.abc .ret resultReg 0 0)

theorem Builder.sound_new (names : Names) : (Builder.new names).Sound :=
  ⟨Nat.zero_le _, fun k hk => (Array.not_mem_empty k hk).elim, Nat.le_refl _, Nat.zero_le _⟩

theorem steps_of_compileMain {names : Names} {f : Fragment} {b : Builder} {u : Unit}
    (h : compileMain f (.new names) = .ok (u, b)) :
    ∃ b₁ b₂, MainSteps names f b₁ b₂ b (declared names f) := by
  obtain ⟨r, b₀, h₀, h⟩ := bind_eq_ok.1 h
  obtain ⟨u₁, b₁, h₁, h⟩ := bind_eq_ok.1 h
  obtain ⟨u₂, b₂, h₂, h₃⟩ := bind_eq_ok.1 h
  obtain ⟨hr, -, hg₀, hc₀, hn₀, hslots⟩ := takeReg_ok (n := 0) h₀
  obtain ⟨hg₁, hc₁, hn₁, hw₁⟩ := emitABx_ok h₁ (Nat.le_refl b₀.next)
  have hzero : b₀.next = 0 := hn₀
  obtain rfl : r = resultReg := hr
  have hstart : Grows 0 (.new names) b₁ := hg₀.trans (hg₁.weaken (Nat.zero_le _))
  have hcontext : b₁.context = ⟨[], 0, 1⟩ := by
    rw [hc₁, hc₀]
    rfl
  have hb₁ : AtTop b₁ := ⟨hstart.sound (Builder.sound_new names), hcontext, hstart.waiting⟩
  have hnone : b₁.prototypes = #[] := hstart.prototypes
  obtain ⟨ha, -, hlaid⟩ := lays_stmts f hb₁ h₂
  rw [show b₁.names = names from hstart.names] at ha hlaid
  obtain ⟨hg₃, -, hn₃, hw₃⟩ := emitABC_ok h₃ (Nat.le_refl b₂.next)
  rw [hzero] at hw₁
  refine ⟨b₁, b₂, hstart, hb₁, h₂, by rw [hn₁, hzero], hw₁, Nat.lt_of_lt_of_le hslots hg₁.slots, ha,
    fun C made hC => ?_, hg₃, hn₃, hw₃⟩
  rw [show b₁.names = names from hstart.names]
  exact hlaid [] (by rw [hnone]; rfl) C made hC

namespace MainSteps

variable {names : Names} {f : Fragment} {b₁ b₂ b : Builder} {fs : List Closure}

theorem sound (h : MainSteps names f b₁ b₂ b fs) : b.Sound :=
  h.last.sound (h.atTop.advances h.advances).sound

theorem waiting (h : MainSteps names f b₁ b₂ b fs) : b.waiting = none :=
  h.last.waiting.trans (h.atTop.advances h.advances).waiting

/-- The names at the end are those at the start and what the fragment defines. -/
theorem definitions (h : MainSteps names f b₁ b₂ b fs) :
    b₂.names = names.commit b.staged.reverse ∧ InARow names.nextSlot b.staged.reverse ∧
      ∀ g ∈ fs, ∃ ds, ds <+: b.staged.reverse ∧ g.names = names.commit ds := by
  obtain ⟨ds, hds, hnames, hrow, hvisible⟩ := h.advances.staged
  have hnames₁ : b₁.names = names := h.start.names
  have hstaged₁ : b₁.staged = [] := h.start.staged
  have hdefinitions : b.staged.reverse = ds := by
    rw [h.last.staged, hds, hstaged₁, List.append_nil, List.reverse_reverse]
  rw [hnames₁] at hnames hrow hvisible
  rw [hdefinitions]
  exact ⟨hnames, hrow, hvisible⟩

theorem main (h : MainSteps names f b₁ b₂ b fs) :
    SoundPrototype b.strings.size b.prototypes.size b.body.toPrototype := by
  have harity : b.body.arity = 0 := by
    rw [h.last.arity, h.advances.expands.arity]
    exact h.start.arity
  exact soundPrototype_of_body h.sound (harity ▸ Nat.zero_le _)

/-- The functions of the program are those that the fragment declares. -/
theorem functions (h : MainSteps names f b₁ b₂ b fs) :
    List.Forall₂ (fun p f => SoundPrototype b.strings.size b.prototypes.size p ∧
      (b.strings.size ≤ 2 ^ 32 → FunctionAt b.strings p f)) b.prototypes.toList fs := by
  obtain ⟨ps, hps, hall⟩ := h.advances.prototypes
  have hnone : b₁.prototypes = #[] := h.start.prototypes
  have hlist : b.prototypes.toList = ps := by
    rw [h.last.prototypes, hps, hnone]
    rfl
  rw [hlist]
  refine hall.imp fun p f hp => ⟨hp.1.mono h.last.strings_size ?_, fun hfew => ?_⟩
  · rw [h.last.prototypes]
  · exact hp.2 _ ⟨h.last.strings, hfew⟩

/-- The code of the main body is laid out. -/
theorem code (h : MainSteps names f b₁ b₂ b fs) (hstrings : b.strings.size ≤ 2 ^ 32)
    (hprototypes : b.prototypes.size ≤ 2 ^ 32) :
    MainAt (coding b.strings false b.body.toPrototype) (Made b.body.toPrototype fs) names
      (names.commit b.staged.reverse) f := by
  have hfin : Finishes (coding b.strings b.waiting.isSome b.body.toPrototype) 0 b :=
    finishes_coding h.sound ⟨fun _ _ h => h, hstrings⟩ 0
  rw [h.waiting] at hfin
  have hfirst := h.first
  have hlater := h.advances.expands.next
  have hbefore : FinishesTop (coding b.strings false b.body.toPrototype)
      (Made b.body.toPrototype fs) b₁.next b₂ fs := by
    refine ⟨(hfin.later (Nat.zero_le _)).before h.last, ?_, fun k i g hk hg => ⟨i, ?_, hg⟩⟩
    · rw [← h.last.prototypes]
      exact hprototypes
    · exact h.last.constants k _ hk
  have htop := h.laid _ _ hbefore
  rw [show b₁.names = names from h.start.names, hfirst, h.definitions.1] at htop
  refine ⟨hfin.at_of_code (Nat.le_refl _) ?_, ⟨by decide, ?_⟩, b₂.next, htop,
    hfin.at_of_code (Nat.zero_le _) h.returns, h.next⟩
  · rw [h.last.code _ (by omega), h.advances.expands.code _ (by omega)]
    exact h.clears
  · have hslots := Nat.le_trans h.advances.expands.slots h.last.slots
    exact Nat.lt_of_lt_of_le h.room (Nat.le_trans hslots hfin.slots)

end MainSteps

/-- What compiles is laid out, with the functions that it declares. -/
theorem laid_declared {names : Names} {f : Fragment} {c : Compiled}
    (h : compileFragment names f = .ok c) : c.Laid names f (declared names f) := by
  unfold compileFragment at h
  cases hmain : compileMain f (.new names) with
  | error e =>
    rw [hmain] at h
    cases h
  | ok r =>
    obtain ⟨u, b⟩ := r
    rw [hmain] at h
    cases h
    obtain ⟨b₁, b₂, hsteps⟩ := steps_of_compileMain hmain
    obtain ⟨hnames, hrow, hvisible⟩ := hsteps.definitions
    have hnames₁ : b₁.names = names := hsteps.start.names
    have hbetween := hsteps.advances.between
    rw [hnames, hnames₁] at hbetween
    exact ⟨hsteps.functions, hsteps.main, hsteps.code, hrow, hvisible,
      hsteps.advances.rising, hbetween⟩

/-- What compiles is laid out. -/
theorem laid_of_compileFragment {names : Names} {f : Fragment} {c : Compiled}
    (h : compileFragment names f = .ok c) : ∃ fs, c.Laid names f fs :=
  ⟨_, laid_declared h⟩

theorem yieldsValue_eq {names : Names} {f : Fragment} {c : Compiled}
    (h : compileFragment names f = .ok c) : c.yieldsValue = endsInExpr f := by
  unfold compileFragment at h
  split at h
  · cases h
  · cases h
    rfl

end ScriptMachine.Compile
