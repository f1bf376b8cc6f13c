import ScriptMachine.Compile.Lowering
import ScriptMachine.Link.Verify
import ScriptMachine.Proofs.Bytecode.Words
import Mathlib.Tactic.SplitIfs

/-!
# Steps of a compilation

What each step does to the builder: the context, which is what blocks and temporaries push and pop,
changes as the step says, and everything else only grows. Code that was finished before a step
stays as it is.
-/

namespace ScriptMachine.Compile

open Bytecode

/-! ## Sequences of steps -/

section

variable {α β : Type} {b b' : Builder}

theorem bind_eq_ok {act : Building α} {next : α → Building β} {y : β} :
    (act >>= next) b = .ok (y, b') ↔ ∃ x b₁, act b = .ok (x, b₁) ∧ next x b₁ = .ok (y, b') := by
  show (StateT.bind act next b) = _ ↔ _
  unfold StateT.bind
  cases hact : act b with
  | error e =>
    constructor
    · intro h
      cases h
    · rintro ⟨x, b₁, h, -⟩
      cases h
  | ok r =>
    obtain ⟨x, b₁⟩ := r
    constructor
    · intro h
      exact ⟨x, b₁, rfl, h⟩
    · rintro ⟨x', b₁', h, hnext⟩
      cases h
      exact hnext

theorem pure_eq_ok {x y : α} : (pure x : Building α) b = .ok (y, b') ↔ x = y ∧ b = b' := by
  show Except.ok (x, b) = .ok (y, b') ↔ _
  rw [Except.ok.injEq, Prod.mk.injEq]

theorem throw_eq_ok {e : CompileError} {y : α} :
    (throw e : Building α) b = .ok (y, b') ↔ False := by
  show Except.error e = Except.ok (y, b') ↔ False
  rw [iff_false]
  intro h
  cases h

theorem get_bind_eq_ok {next : Builder → Building α} {y : α} :
    ((get : Building Builder) >>= next) b = .ok (y, b') ↔ next b b = .ok (y, b') :=
  Iff.rfl

theorem takeFromBody_eq_ok {take : Body → Except CompileError (α × Body)} {x : α} :
    takeFromBody take b = .ok (x, b') ↔
      ∃ f, take b.body = .ok (x, f) ∧ b' = { b with body := f } := by
  unfold takeFromBody
  cases htake : take b.body with
  | error e =>
    simp only [htake]
    constructor
    · intro h
      cases h
    · rintro ⟨f, h, -⟩
      cases h
  | ok r =>
    obtain ⟨y, f⟩ := r
    simp only [htake]
    constructor
    · intro h
      cases h
      exact ⟨f, rfl, rfl⟩
    · rintro ⟨f', h, rfl⟩
      cases h
      rfl

theorem updateBody?_eq_ok {change : Body → Except CompileError Body} {u : Unit} :
    updateBody? change b = .ok (u, b') ↔
      ∃ f, change b.body = .ok f ∧ b' = { b with body := f } := by
  unfold updateBody?
  cases hchange : change b.body with
  | error e =>
    simp only [hchange]
    constructor
    · intro h
      cases h
    · rintro ⟨f, h, -⟩
      cases h
  | ok f =>
    simp only [hchange]
    constructor
    · intro h
      cases h
      exact ⟨f, rfl, rfl⟩
    · rintro ⟨f', h, rfl⟩
      cases h
      rfl

end

/-! ## Contexts -/

/-- What a body pushes and pops: the locals, the depth of the scope and the registers in use. -/
structure Context where
  locals : List Local
  depth : Nat
  top : Nat

namespace Context

/-- The context with one more register in use. -/
def take (c : Context) : Context :=
  { c with top := c.top + 1 }

/-- The context with `n` more registers in use. -/
def takeMany (c : Context) (n : Nat) : Context :=
  { c with top := c.top + n }

/-- The context in a scope of its own. -/
def deepen (c : Context) : Context :=
  { c with depth := c.depth + 1 }

/-- The context with new locals in the registers on top. -/
def extend (c : Context) (new : List Local) : Context :=
  { c with locals := new ++ c.locals, top := c.top + new.length }

/-- No local is deeper than the scope. -/
def Nested (c : Context) : Prop :=
  ∀ l ∈ c.locals, l.depth ≤ c.depth

end Context

/-- The context of a body. -/
def Body.context (f : Body) : Context :=
  ⟨f.locals, f.depth, f.regTop⟩

/-- The context of the body under construction. -/
def Builder.context (b : Builder) : Context :=
  b.body.context

/-- The position of the next instruction. -/
def Builder.next (b : Builder) : Nat :=
  b.body.here

/-! ## Growth -/

/-- A body keeps to the limits of the format, and its constants mean something in a program with
these tables. -/
structure Body.Sound (strings prototypes : Nat) (f : Body) : Prop where
  constants_size : f.constants.size ≤ maxWide + 1
  constants : ∀ k ∈ f.constants, Link.constantOk strings prototypes k = true
  top_le : f.regTop ≤ f.maxSlots
  slots_le : f.maxSlots ≤ 255

/-- The body under construction is sound. -/
def Builder.Sound (b : Builder) : Prop :=
  b.body.Sound b.strings.size b.prototypes.size

theorem constantOk_mono {s s' p p' : Nat} (hs : s ≤ s') (hp : p ≤ p') {k : Constant}
    (h : Link.constantOk s p k = true) : Link.constantOk s' p' k = true := by
  cases k with
  | str i =>
    simp only [Link.constantOk, decide_eq_true_eq] at h ⊢
    omega
  | fn i =>
    simp only [Link.constantOk, decide_eq_true_eq] at h ⊢
    omega
  | _ => exact h

theorem Body.Sound.mono {s s' p p' : Nat} {f : Body} (h : f.Sound s p) (hs : s ≤ s')
    (hp : p ≤ p') : f.Sound s' p' where
  constants_size := h.constants_size
  constants k hk := constantOk_mono hs hp (h.constants k hk)
  top_le := h.top_le
  slots_le := h.slots_le

/-- From `b` to `b'`, the tables grow, and code before `n` stays as it is. -/
structure Expands (n : Nat) (b b' : Builder) : Prop where
  waiting : b'.waiting = b.waiting
  name : b'.body.name = b.body.name
  arity : b'.body.arity = b.body.arity
  strings : ∀ (i : Nat) (s : String), b.strings[i]? = some s → b'.strings[i]? = some s
  strings_size : b.strings.size ≤ b'.strings.size
  constants : ∀ (i : Nat) (k : Constant),
    b.body.constants[i]? = some k → b'.body.constants[i]? = some k
  slots : b.body.maxSlots ≤ b'.body.maxSlots
  next : b.next ≤ b'.next
  code : ∀ p < n, b'.body.code[p]? = b.body.code[p]?
  sound : b.Sound → b'.Sound

/-- Beside that, no name is defined and no function is finished. -/
structure Grows (n : Nat) (b b' : Builder) : Prop extends Expands n b b' where
  names : b'.names = b.names
  prototypes : b'.prototypes = b.prototypes
  staged : b'.staged = b.staged

namespace Expands

variable {n m : Nat} {b b₁ b₂ : Builder}

theorem refl (n : Nat) (b : Builder) : Expands n b b :=
  ⟨rfl, rfl, rfl, fun _ _ h => h, Nat.le_refl _, fun _ _ h => h, Nat.le_refl _, Nat.le_refl _,
    fun _ _ => rfl, fun h => h⟩

theorem trans (h₁ : Expands n b b₁) (h₂ : Expands n b₁ b₂) : Expands n b b₂ where
  waiting := h₂.waiting.trans h₁.waiting
  name := h₂.name.trans h₁.name
  arity := h₂.arity.trans h₁.arity
  strings i s hs := h₂.strings i s (h₁.strings i s hs)
  strings_size := Nat.le_trans h₁.strings_size h₂.strings_size
  constants i k hk := h₂.constants i k (h₁.constants i k hk)
  slots := Nat.le_trans h₁.slots h₂.slots
  next := Nat.le_trans h₁.next h₂.next
  code p hp := (h₂.code p hp).trans (h₁.code p hp)
  sound h := h₂.sound (h₁.sound h)

theorem weaken (h : Expands n b b₁) (hm : m ≤ n) : Expands m b b₁ :=
  { h with code := fun p hp => h.code p (Nat.lt_of_lt_of_le hp hm) }

end Expands

namespace Grows

variable {n m : Nat} {b b₁ b₂ : Builder}

theorem refl (n : Nat) (b : Builder) : Grows n b b :=
  ⟨.refl n b, rfl, rfl, rfl⟩

theorem trans (h₁ : Grows n b b₁) (h₂ : Grows n b₁ b₂) : Grows n b b₂ :=
  ⟨h₁.toExpands.trans h₂.toExpands, h₂.names.trans h₁.names, h₂.prototypes.trans h₁.prototypes,
    h₂.staged.trans h₁.staged⟩

theorem weaken (h : Grows n b b₁) (hm : m ≤ n) : Grows m b b₁ :=
  ⟨h.toExpands.weaken hm, h.names, h.prototypes, h.staged⟩

/-- A change of the body under construction. -/
theorem of_body {f : Body} (hname : f.name = b.body.name) (harity : f.arity = b.body.arity)
    (hconstants : ∀ (i : Nat) (k : Constant),
      b.body.constants[i]? = some k → f.constants[i]? = some k)
    (hslots : b.body.maxSlots ≤ f.maxSlots) (hnext : b.body.code.size ≤ f.code.size)
    (hcode : ∀ p < n, f.code[p]? = b.body.code[p]?)
    (hsound : b.Sound → f.Sound b.strings.size b.prototypes.size) :
    Grows n b { b with body := f } :=
  ⟨⟨rfl, hname, harity, fun _ _ h => h, Nat.le_refl _, hconstants, hslots, hnext, hcode, hsound⟩,
    rfl, rfl, rfl⟩

theorem atTopLevel (h : Grows n b b₁) (hc : b₁.context.depth = b.context.depth) :
    b₁.atTopLevel = b.atTopLevel := by
  have hdepth : b₁.body.depth = b.body.depth := hc
  rw [Builder.atTopLevel, Builder.atTopLevel, h.waiting, hdepth]

end Grows

/-! ## Registers and scopes -/

section

variable {b b' : Builder} {u : Unit} {r n : Nat}

theorem takeReg_ok (h : takeReg b = .ok (r, b')) :
    r = b.context.top ∧ r < 255 ∧ Grows n b b' ∧ b'.context = b.context.take ∧ b'.next = b.next ∧
      r < b'.body.maxSlots := by
  obtain ⟨f, hf, rfl⟩ := takeFromBody_eq_ok.1 h
  unfold Body.takeReg at hf
  split_ifs at hf with hr
  cases hf
  refine ⟨rfl, Nat.lt_of_not_le hr, .of_body rfl rfl (fun _ _ h => h) (Nat.le_max_left _ _)
    (Nat.le_refl _) (fun _ _ => rfl) ?_, rfl, rfl, ?_⟩
  · rintro ⟨h₁, h₂, h₃, h₄⟩
    exact ⟨h₁, h₂, Nat.le_max_right _ _, Nat.max_le.2 ⟨h₄, by omega⟩⟩
  · exact Nat.lt_of_lt_of_le (Nat.lt_succ_self _) (Nat.le_max_right _ _)

theorem updateBody_ok {change : Body → Body} (h : updateBody change b = .ok (u, b')) :
    b' = { b with body := change b.body } := by
  cases h
  rfl

/-- A change that affects the context only. -/
theorem grows_of_context {f : Body} (hcode : f.code = b.body.code)
    (hconstants : f.constants = b.body.constants) (hslots : f.maxSlots = b.body.maxSlots)
    (hname : f.name = b.body.name) (harity : f.arity = b.body.arity)
    (htop : f.regTop ≤ b.body.maxSlots) : Grows n b { b with body := f } := by
  refine .of_body hname harity ?_ ?_ ?_ ?_ ?_
  · intro i k hk
    rw [hconstants]
    exact hk
  · exact Nat.le_of_eq hslots.symm
  · exact Nat.le_of_eq (congrArg Array.size hcode.symm)
  · intro p hp
    rw [hcode]
  · rintro ⟨h₁, h₂, h₃, h₄⟩
    exact ⟨by rw [hconstants]; exact h₁, by rw [hconstants]; exact h₂, by rw [hslots]; exact htop,
      by rw [hslots]; exact h₄⟩

theorem giveBackRegs_ok (h : giveBackRegs r b = .ok (u, b')) (hb : b.context.top ≤ b.body.maxSlots) :
    Grows n b b' ∧ b'.context = { b.context with top := b.context.top - r } ∧ b'.next = b.next := by
  rw [updateBody_ok h]
  refine ⟨grows_of_context rfl rfl rfl rfl rfl ?_, rfl, rfl⟩
  exact Nat.le_trans (Nat.sub_le _ _) hb

theorem giveBackReg_ok (h : giveBackReg b = .ok (u, b')) (hb : b.context.top ≤ b.body.maxSlots) :
    Grows n b b' ∧ b'.context = { b.context with top := b.context.top - 1 } ∧ b'.next = b.next :=
  giveBackRegs_ok (r := 1) h hb

theorem beginScope_ok (h : updateBody Body.beginScope b = .ok (u, b'))
    (hb : b.context.top ≤ b.body.maxSlots) :
    Grows n b b' ∧ b'.context = b.context.deepen ∧ b'.next = b.next := by
  rw [updateBody_ok h]
  exact ⟨grows_of_context rfl rfl rfl rfl rfl hb, rfl, rfl⟩

/-- When a scope closes, the locals that it has declared go with it. -/
theorem endScope_ok (h : updateBody Body.endScope b = .ok (u, b'))
    (hb : b.context.top ≤ b.body.maxSlots) {c : Context} {new : List Local} (hc : c.Nested)
    (hnew : ∀ l ∈ new, l.depth = c.depth + 1) (hcontext : b.context = c.deepen.extend new) :
    Grows n b b' ∧ b'.context = c ∧ b'.next = b.next := by
  rw [updateBody_ok h]
  refine ⟨grows_of_context rfl rfl rfl rfl rfl ?_, ?_, rfl⟩
  · exact Nat.le_trans (Nat.sub_le _ _) hb
  · have hlocals : b.body.locals = new ++ c.locals := congrArg Context.locals hcontext
    have hdepth : b.body.depth = c.depth + 1 := congrArg Context.depth hcontext
    have htop : b.body.regTop = c.top + new.length := congrArg Context.top hcontext
    have hdeep : ∀ l ∈ new, decide (c.depth < l.depth) = true := by
      intro l hl
      rw [decide_eq_true_iff, hnew l hl]
      omega
    have hstop : c.locals.takeWhile (fun l => decide (c.depth < l.depth)) = [] ∧
        c.locals.dropWhile (fun l => decide (c.depth < l.depth)) = c.locals := by
      cases hl : c.locals with
      | nil => exact ⟨rfl, rfl⟩
      | cons l rest =>
        have hle := hc l (by rw [hl]; exact List.mem_cons_self)
        have hnot : ¬ decide (c.depth < l.depth) = true := by
          rw [decide_eq_true_iff]
          omega
        exact ⟨List.takeWhile_cons_of_neg hnot, List.dropWhile_cons_of_neg hnot⟩
    unfold Builder.context Body.context Body.endScope
    simp only [hlocals, hdepth, htop, Nat.add_sub_cancel,
      List.takeWhile_append_of_pos hdeep, List.dropWhile_append_of_pos hdeep, hstop.1, hstop.2,
      List.append_nil]

theorem declare_ok {name : String} {mutable : Bool}
    (h : updateBody (fun f => f.declare name r mutable) b = .ok (u, b'))
    (hb : b.context.top ≤ b.body.maxSlots) :
    Grows n b b' ∧ b'.next = b.next ∧
      b'.context = { b.context with locals := ⟨name, b.context.depth, r, mutable⟩ :: b.context.locals } := by
  rw [updateBody_ok h]
  exact ⟨grows_of_context rfl rfl rfl rfl rfl hb, rfl, rfl⟩

end

/-! ## Code -/

section

variable {b b' : Builder} {u : Unit} {n : Nat}

theorem emit_ok {w : Word} (h : updateBody (fun f => f.emit w) b = .ok (u, b')) (hn : n ≤ b.next) :
    Grows n b b' ∧ b'.context = b.context ∧ b'.next = b.next + 1 ∧
      b'.body.code[b.next]? = some w := by
  rw [updateBody_ok h]
  refine ⟨.of_body rfl rfl (fun _ _ h => h) (Nat.le_refl _) ?_ ?_ fun h => ⟨h.1, h.2, h.3, h.4⟩,
    rfl, ?_, ?_⟩
  · show b.body.code.size ≤ (b.body.code.push w).size
    rw [Array.size_push]
    omega
  · intro p hp
    have hlt : p < b.body.code.size := Nat.lt_of_lt_of_le hp hn
    show (b.body.code.push w)[p]? = _
    rw [Array.getElem?_push, if_neg (by omega)]
  · show (b.body.code.push w).size = _
    rw [Array.size_push]
    rfl
  · show (b.body.code.push w)[b.body.code.size]? = _
    rw [Array.getElem?_push, if_pos rfl]

theorem emitABC_ok {op : Opcode} {x y z : Nat} (h : emitABC op x y z b = .ok (u, b'))
    (hn : n ≤ b.next) :
    Grows n b b' ∧ b'.context = b.context ∧ b'.next = b.next + 1 ∧
      b'.body.code[b.next]? = some (.abc op x y z) :=
  emit_ok h hn

theorem emitABx_ok {op : Opcode} {x y : Nat} (h : emitABx op x y b = .ok (u, b'))
    (hn : n ≤ b.next) :
    Grows n b b' ∧ b'.context = b.context ∧ b'.next = b.next + 1 ∧
      b'.body.code[b.next]? = some (.abx op x y) :=
  emit_ok h hn

theorem here_ok {pos : Nat} (h : here b = .ok (pos, b')) : b.next = pos ∧ b = b' := by
  unfold here at h
  rw [get_bind_eq_ok] at h
  obtain ⟨rfl, rfl⟩ := pure_eq_ok.1 h
  exact ⟨rfl, rfl⟩

theorem jumpAhead_ok {op : Opcode} {x pos : Nat} (h : jumpAhead op x b = .ok (pos, b'))
    (hn : n ≤ b.next) :
    pos = b.next ∧ Grows n b b' ∧ b'.context = b.context ∧ b'.next = b.next + 1 ∧
      b'.body.code[b.next]? = some (.abx op x 0) := by
  obtain ⟨pos', b₁, hhere, h⟩ := bind_eq_ok.1 h
  obtain ⟨rfl, rfl⟩ := here_ok hhere
  obtain ⟨u', b₂, hemit, h⟩ := bind_eq_ok.1 h
  obtain ⟨rfl, rfl⟩ := pure_eq_ok.1 h
  exact ⟨rfl, emitABx_ok hemit hn⟩

/-- Aiming a jump changes nothing but its target. -/
theorem aimJump_ok {pos : Nat} (h : aimJump pos b = .ok (u, b')) (hn : n ≤ pos) :
    Grows n b b' ∧ b'.context = b.context ∧ b'.next = b.next ∧ b.next ≤ maxWide ∧
      (∀ p, p ≠ pos → b'.body.code[p]? = b.body.code[p]?) ∧
      ∀ op x y, b.body.code[pos]? = some (.abx op x y) →
        b'.body.code[pos]? = some (.abx op x b.next) := by
  obtain ⟨f, hf, rfl⟩ := updateBody?_eq_ok.1 h
  unfold Body.aimJump at hf
  split_ifs at hf with hfar
  cases hf
  have hother : ∀ p, p ≠ pos → (b.body.code.modify pos fun w =>
      Word.ofBytes (Word.op w) (Word.a w) (b.body.here / 256) b.body.here)[p]? =
        b.body.code[p]? := by
    intro p hp
    rw [Array.getElem?_modify, if_neg fun h => hp h.symm]
  refine ⟨.of_body rfl rfl (fun _ _ h => h) (Nat.le_refl _) ?_ (fun p hp => hother p (by omega))
    fun h => ⟨h.1, h.2, h.3, h.4⟩, rfl, ?_, Nat.le_of_not_lt hfar, hother, ?_⟩
  · exact Nat.le_of_eq Array.size_modify.symm
  · exact Array.size_modify
  · intro op x y hw
    show (b.body.code.modify pos _)[pos]? = _
    rw [Array.getElem?_modify, if_pos rfl, hw, Option.map_some, Word.aim_abx]
    rfl

theorem jumpBack_ok {start : Nat} (h : updateBody? (fun f => f.jumpBack start) b = .ok (u, b'))
    (hn : n ≤ b.next) :
    start ≤ maxWide ∧ Grows n b b' ∧ b'.context = b.context ∧ b'.next = b.next + 1 ∧
      b'.body.code[b.next]? = some (.abx .jump 0 start) := by
  obtain ⟨f, hf, rfl⟩ := updateBody?_eq_ok.1 h
  unfold Body.jumpBack at hf
  split_ifs at hf with hfar
  cases hf
  exact ⟨Nat.le_of_not_lt hfar, emit_ok (w := .abx .jump 0 start) rfl hn⟩

end

/-! ## Tables -/

section

variable {b b' : Builder} {n : Nat}

/-- What is found at an index stands there. -/
theorem getElem?_of_idxOf? {α : Type} [BEq α] [LawfulBEq α] {xs : Array α} {x : α} {i : Nat}
    (h : xs.idxOf? x = some i) : xs[i]? = some x := by
  obtain ⟨j, hj, rfl⟩ := Option.map_eq_some_iff.1 h
  rw [Array.getElem?_eq_getElem j.isLt]
  exact congrArg some (Array.finIdxOf?_eq_some_iff.1 hj).1

/-- What a table does not hold yet can be added. -/
theorem nodup_push {α : Type} {xs : Array α} {x : α} (hxs : xs.toList.Nodup) (hx : x ∉ xs) :
    (xs.push x).toList.Nodup := by
  rw [Array.toList_push, List.nodup_append]
  refine ⟨hxs, List.pairwise_singleton _ _, fun y hy z hz heq => hx ?_⟩
  rw [← List.mem_singleton.1 hz, ← heq]
  exact Array.mem_toList_iff.1 hy

theorem constantIndex_ok {k : Constant} {i : Nat} (h : constantIndex k b = .ok (i, b'))
    (hk : Link.constantOk b.strings.size b.prototypes.size k = true) :
    Grows n b b' ∧ b'.context = b.context ∧ b'.next = b.next ∧
      b'.body.constants[i]? = some k := by
  obtain ⟨f, hf, rfl⟩ := takeFromBody_eq_ok.1 h
  unfold Body.constantIndex at hf
  cases hfind : b.body.constants.idxOf? k with
  | some j =>
    simp only [hfind, Except.ok.injEq, Prod.mk.injEq] at hf
    obtain ⟨rfl, rfl⟩ := hf
    exact ⟨.refl n b, rfl, rfl, getElem?_of_idxOf? hfind⟩
  | none =>
    simp only [hfind] at hf
    split_ifs at hf with hmany
    cases hf
    refine ⟨.of_body rfl rfl ?_ (Nat.le_refl _) (Nat.le_refl _) (fun _ _ => rfl) ?_, rfl, rfl, ?_⟩
    · intro j c hj
      have hlt := (Array.getElem?_eq_some_iff.1 hj).1
      show (b.body.constants.push k)[j]? = _
      rw [Array.getElem?_push, if_neg (by omega), hj]
    · rintro ⟨h₁, h₂, h₃, h₄⟩
      refine ⟨?_, ?_, h₃, h₄⟩
      · show (b.body.constants.push k).size ≤ _
        rw [Array.size_push]
        omega
      · intro c hc
        rcases Array.mem_push.1 hc with hc | rfl
        · exact h₂ c hc
        · exact hk
    · show (b.body.constants.push k)[b.body.constants.size]? = _
      rw [Array.getElem?_push, if_pos rfl]

theorem stringIndex_ok {s : String} {i : Nat} (h : stringIndex s b = .ok (i, b')) :
    Grows n b b' ∧ b'.context = b.context ∧ b'.next = b.next ∧ b'.strings[i]? = some s := by
  unfold stringIndex at h
  cases hfind : b.strings.idxOf? s with
  | some j =>
    simp only [hfind, Except.ok.injEq, Prod.mk.injEq] at h
    obtain ⟨rfl, rfl⟩ := h
    exact ⟨.refl n b, rfl, rfl, getElem?_of_idxOf? hfind⟩
  | none =>
    simp only [hfind] at h
    cases h
    have hsize : b.strings.size ≤ (b.strings.push s).size := by
      rw [Array.size_push]
      omega
    refine ⟨⟨⟨rfl, rfl, rfl, ?_, hsize, fun _ _ h => h, Nat.le_refl _, Nat.le_refl _,
      fun _ _ => rfl, fun h => h.mono hsize (Nat.le_refl _)⟩, rfl, rfl, rfl⟩, rfl, rfl, ?_⟩
    · intro j t hj
      have hlt := (Array.getElem?_eq_some_iff.1 hj).1
      show (b.strings.push s)[j]? = _
      rw [Array.getElem?_push, if_neg (by omega), hj]
    · show (b.strings.push s)[b.strings.size]? = _
      rw [Array.getElem?_push, if_pos rfl]

theorem wideOperand_ok {x y : Nat} (h : wideOperand x b = .ok (y, b')) :
    x = y ∧ b = b' ∧ x ≤ maxWide := by
  unfold wideOperand at h
  split_ifs at h with hx
  · exact (throw_eq_ok.1 h).elim
  · obtain ⟨rfl, rfl⟩ := pure_eq_ok.1 h
    exact ⟨rfl, rfl, Nat.le_of_not_lt hx⟩

end

end ScriptMachine.Compile
