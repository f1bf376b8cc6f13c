import ScriptMachine.Proofs.Compile.Fragments
import ScriptMachine.Proofs.Compile.Reach

/-!
# Tidy builders

A builder is tidy when its context is the one that the compilation is in, the jumps that wait to be
aimed stand where they were emitted, and every instruction so far keeps to the registers that its
function will have. Each step leads from a tidy builder to a tidy one.
-/

namespace ScriptMachine.Bytecode

/-- An instruction all of whose registers are below `n`, those of a call's arguments included. -/
def Word.Within (n : Nat) (w : Word) : Prop :=
  ∃ op, w.opcode? = some op ∧ (∀ r ∈ Link.registersOf op w, r < n) ∧ (op = .call → w.b + w.c < n)

/-- The instructions of a body keep to its registers, of which there are at most 255. -/
def Prototype.Tidy (p : Prototype) : Prop :=
  p.slots.toNat ≤ 255 ∧ ∀ w ∈ p.code, w.Within p.slots.toNat

namespace Word

variable {op : Opcode} {n m x y z : Nat}

/-! ## Instructions -/

theorem Within.mono {w : Word} (h : w.Within n) (hle : n ≤ m) : w.Within m := by
  obtain ⟨op, hop, hregs, hcall⟩ := h
  exact ⟨op, hop, fun r hr => Nat.lt_of_lt_of_le (hregs r hr) hle,
    fun hop => Nat.lt_of_lt_of_le (hcall hop) hle⟩

theorem within_abc (hn : n ≤ 255) (hx : x < n) (hy : y < n) (hz : z < n)
    (hcall : op = .call → y + z < n) : (abc op x y z).Within n := by
  refine ⟨op, opcode?_abc .., fun r hr => ?_, fun hop => ?_⟩
  · have := Compile.mem_registersOf_abc (by omega) (by omega) (by omega) hr
    omega
  · rw [b_abc _ (by omega), c_abc _ (by omega)]
    exact hcall hop

theorem within_abx (hn : n ≤ 255) (hx : x < n) (hop : op.shape = .A ∨ op.shape = .ABx) :
    (abx op x y).Within n := by
  refine ⟨op, opcode?_abx .., fun r hr => ?_, fun h => ?_⟩
  · have := Compile.mem_registersOf_abx (by omega) hop hr
    omega
  · subst h
    rcases hop with hop | hop <;> cases hop

theorem within_jump : (abx .jump 0 y).Within n :=
  ⟨.jump, opcode?_abx .., fun _ hr => absurd hr List.not_mem_nil, nofun⟩

/-- A jump whatever its target. -/
def Jumps (n : Nat) (w : Word) : Prop :=
  ∃ op x y, w = abx op x y ∧ ∀ z, (abx op x z).Within n

end Word
end ScriptMachine.Bytecode

namespace ScriptMachine.Compile

open Source Bytecode

/-! ## Tidy builders -/

/-- The locals of a context are in registers in use, and none is deeper than the scope. -/
structure Context.InOrder (c : Context) : Prop where
  nested : c.Nested
  regs : ∀ l ∈ c.locals, l.reg < c.top

/-- The instructions of a body keep to the registers that it has been given so far. -/
structure Body.Tidy (f : Body) : Prop where
  top_le : f.regTop ≤ f.maxSlots
  slots_le : f.maxSlots ≤ 255
  code : ∀ w ∈ f.code, w.Within f.maxSlots

/-- What becomes of a tidy body. -/
theorem Body.Tidy.prototype {f : Body} (h : f.Tidy) : f.toPrototype.Tidy := by
  have hslots := slots_toPrototype h.slots_le
  refine ⟨?_, fun w hw => ?_⟩
  · rw [hslots]
    exact Nat.max_le.2 ⟨h.slots_le, by decide⟩
  · rw [hslots]
    exact (h.code w hw).mono (Nat.le_max_left _ _)

/-- A builder in the context `c`, where the body `w` waits and the jumps at the places `js` are not
aimed yet. -/
structure Builder.Tidy (c : Context) (w : Option Body) (js : List Nat) (b : Builder) : Prop where
  context : b.context = c
  waiting : b.waiting = w
  body : b.body.Tidy
  outer : ∀ f ∈ w, f.Tidy
  jumps : ∀ p ∈ js, ∃ word, b.body.code[p]? = some word ∧ word.Jumps b.body.maxSlots
  finished : ∀ p ∈ b.prototypes, p.Tidy

theorem Context.InOrder.take {c : Context} (h : c.InOrder) : c.take.InOrder :=
  ⟨h.nested, fun l hl => Nat.lt_succ_of_lt (h.regs l hl)⟩

namespace Builder.Tidy

variable {c : Context} {w : Option Body} {js : List Nat} {b b' : Builder} {u : Unit}

theorem top_le (h : b.Tidy c w js) : c.top ≤ b.body.maxSlots := by
  rw [← h.context]
  exact h.body.top_le

theorem atTopLevel_eq (h : b.Tidy c w js) : b.atTopLevel = (w.isNone && c.depth == 0) := by
  rw [← h.context, ← h.waiting]
  rfl

/-- A change that leaves the code and the number of registers alone. -/
theorem of_code (h : b.Tidy c w js) {f : Body} (hcode : f.code = b.body.code)
    (hslots : f.maxSlots = b.body.maxSlots) (htop : f.regTop ≤ b.body.maxSlots) :
    ({ b with body := f } : Builder).Tidy f.context w js where
  context := rfl
  waiting := h.waiting
  body := ⟨by rw [hslots]; exact htop, by rw [hslots]; exact h.body.slots_le,
    by rw [hcode, hslots]; exact h.body.code⟩
  outer := h.outer
  jumps := by
    show ∀ p ∈ js, ∃ word, f.code[p]? = some word ∧ word.Jumps f.maxSlots
    rw [hcode, hslots]
    exact h.jumps
  finished := h.finished

/-- The tables of the fragment do not matter. -/
theorem of_tables (h : b.Tidy c w js) (names : Names) (strings : Array String)
    (staged : List Definition) : ({ b with names, strings, staged } : Builder).Tidy c w js :=
  ⟨h.context, h.waiting, h.body, h.outer, h.jumps, h.finished⟩

theorem fewer (h : b.Tidy c w js) {js' : List Nat} (hsub : ∀ p ∈ js', p ∈ js) :
    b.Tidy c w js' :=
  { h with jumps := fun p hp => h.jumps p (hsub p hp) }

/-! ## Steps -/

theorem takeReg (h : b.Tidy c w js) {r : Nat} (hr : takeReg b = .ok (r, b')) :
    r = c.top ∧ b'.Tidy c.take w js := by
  obtain ⟨f, hf, rfl⟩ := takeFromBody_eq_ok.1 hr
  unfold Body.takeReg at hf
  split_ifs at hf with hfull
  cases hf
  obtain rfl := h.context
  have hle : b.body.maxSlots ≤ max b.body.maxSlots (b.body.regTop + 1) := Nat.le_max_left _ _
  refine ⟨rfl, rfl, h.waiting, ⟨Nat.le_max_right _ _, ?_, fun v hv => (h.body.code v hv).mono hle⟩,
    h.outer, fun p hp => ?_, h.finished⟩
  · exact Nat.max_le.2 ⟨h.body.slots_le, by omega⟩
  · obtain ⟨word, hword, op, x, y, rfl, hjumps⟩ := h.jumps p hp
    exact ⟨_, hword, op, x, y, rfl, fun z => (hjumps z).mono hle⟩

theorem emit (h : b.Tidy c w js) {word : Word} (hword : word.Within c.top)
    (he : updateBody (fun f => f.emit word) b = .ok (u, b')) : b'.Tidy c w js := by
  rw [updateBody_ok he]
  refine ⟨h.context, h.waiting, ⟨h.body.top_le, h.body.slots_le, fun v hv => ?_⟩, h.outer,
    fun p hp => ?_, h.finished⟩
  · rcases Array.mem_push.1 hv with hv | rfl
    · exact h.body.code v hv
    · exact hword.mono h.top_le
  · obtain ⟨v, hv, hjumps⟩ := h.jumps p hp
    refine ⟨v, ?_, hjumps⟩
    have hlt := (Array.getElem?_eq_some_iff.1 hv).1
    show (b.body.code.push word)[p]? = some v
    rw [Array.getElem?_push, if_neg (Nat.ne_of_lt hlt), hv]

theorem top_few (h : b.Tidy c w js) : c.top ≤ 255 :=
  Nat.le_trans h.top_le h.body.slots_le

theorem emitABC (h : b.Tidy c w js) {op : Opcode} {x y z : Nat} (hx : x < c.top) (hy : y < c.top)
    (hz : z < c.top) (hcall : op = .call → y + z < c.top)
    (he : emitABC op x y z b = .ok (u, b')) : b'.Tidy c w js :=
  h.emit (Word.within_abc h.top_few hx hy hz hcall) he

theorem emitABx (h : b.Tidy c w js) {op : Opcode} {x y : Nat} (hx : x < c.top)
    (hop : op.shape = .A ∨ op.shape = .ABx) (he : emitABx op x y b = .ok (u, b')) :
    b'.Tidy c w js :=
  h.emit (Word.within_abx h.top_few hx hop) he

/-- An instruction that reads the register on top, and nothing else. -/
theorem emitRet (h : b.Tidy c.take w js) (he : Compile.emitABC .ret c.top 0 0 b = .ok (u, b')) :
    b'.Tidy c.take w js :=
  h.emitABC (Nat.lt_succ_self _) (Nat.succ_pos _) (Nat.succ_pos _) (by nofun) he

theorem jumpAhead (h : b.Tidy c w js) {op : Opcode} {x p : Nat}
    (hword : ∀ z, (Word.abx op x z).Within c.top) (hj : jumpAhead op x b = .ok (p, b')) :
    b'.Tidy c w (p :: js) := by
  obtain ⟨p', b₁, hhere, hj⟩ := bind_eq_ok.1 hj
  obtain ⟨rfl, rfl⟩ := here_ok hhere
  obtain ⟨u', b₂, hemit, hj⟩ := bind_eq_ok.1 hj
  obtain ⟨rfl, rfl⟩ := pure_eq_ok.1 hj
  have h₂ := h.emit (hword 0) hemit
  obtain ⟨-, -, -, hplace⟩ := emitABx_ok hemit (Nat.le_refl b.next)
  refine { h₂ with jumps := fun p hp => ?_ }
  rcases List.mem_cons.1 hp with rfl | hp
  · exact ⟨_, hplace, op, x, 0, rfl, fun z => (hword z).mono h₂.top_le⟩
  · exact h₂.jumps p hp

/-- A jump that reads a register. -/
theorem jumpAhead_if (h : b.Tidy c w js) {op : Opcode} {x p : Nat} (hx : x < c.top)
    (hop : op.shape = .ABx) (hj : Compile.jumpAhead op x b = .ok (p, b')) : b'.Tidy c w (p :: js) :=
  h.jumpAhead (fun _ => Word.within_abx h.top_few hx (.inr hop)) hj

theorem aimJump (h : b.Tidy c w js) {p : Nat} (hp : p ∈ js) (ha : aimJump p b = .ok (u, b')) :
    b'.Tidy c w js := by
  obtain ⟨f, hf, rfl⟩ := updateBody?_eq_ok.1 ha
  unfold Body.aimJump at hf
  split_ifs at hf with hfar
  cases hf
  obtain ⟨word, hword, op, x, y, rfl, hjumps⟩ := h.jumps p hp
  have haimed : ∀ q v, (b.body.code.modify p fun v =>
      Word.ofBytes (Word.op v) (Word.a v) (b.body.here / 256) b.body.here)[q]? = some v →
        (q ≠ p ∧ b.body.code[q]? = some v) ∨ (q = p ∧ v = .abx op x b.body.here) := by
    intro q v hv
    rw [Array.getElem?_modify] at hv
    split_ifs at hv with hq
    · subst hq
      rw [hword, Option.map_some, Word.aim_abx, Option.some.injEq] at hv
      exact .inr ⟨rfl, hv.symm⟩
    · exact .inl ⟨Ne.symm hq, hv⟩
  refine ⟨h.context, h.waiting, ⟨h.body.top_le, h.body.slots_le, fun v hv => ?_⟩, h.outer,
    fun q hq => ?_, h.finished⟩
  · obtain ⟨q, hq⟩ := Array.mem_iff_getElem?.1 hv
    rcases haimed q v hq with ⟨-, hq⟩ | ⟨-, rfl⟩
    · exact h.body.code v (Array.mem_of_getElem? hq)
    · exact hjumps _
  · obtain ⟨v, hv, hjumps'⟩ := h.jumps q hq
    by_cases hqp : q = p
    · subst hqp
      refine ⟨.abx op x b.body.here, ?_, op, x, _, rfl, hjumps⟩
      show (b.body.code.modify q _)[q]? = _
      rw [Array.getElem?_modify, if_pos rfl, hword, Option.map_some, Word.aim_abx]
    · refine ⟨v, ?_, hjumps'⟩
      show (b.body.code.modify p _)[q]? = _
      rw [Array.getElem?_modify, if_neg (Ne.symm hqp), hv]

theorem jumpBack (h : b.Tidy c w js) {start : Nat}
    (hj : updateBody? (fun f => f.jumpBack start) b = .ok (u, b')) : b'.Tidy c w js := by
  obtain ⟨f, hf, rfl⟩ := updateBody?_eq_ok.1 hj
  unfold Body.jumpBack at hf
  split_ifs at hf with hfar
  cases hf
  exact h.emit (Word.within_jump (y := start)) rfl

theorem constantIndex (h : b.Tidy c w js) {k : Constant} {i : Nat}
    (hk : constantIndex k b = .ok (i, b')) : b'.Tidy c w js := by
  obtain ⟨f, hf, rfl⟩ := takeFromBody_eq_ok.1 hk
  obtain rfl := h.context
  unfold Body.constantIndex at hf
  split at hf
  · cases hf
    exact h
  · split_ifs at hf
    cases hf
    exact h.of_code (f := { b.body with constants := b.body.constants.push k }) rfl rfl
      h.body.top_le

theorem stringIndex (h : b.Tidy c w js) {s : String} {i : Nat}
    (hs : stringIndex s b = .ok (i, b')) : b'.Tidy c w js := by
  unfold Compile.stringIndex at hs
  split at hs
  · cases hs
    exact h
  · cases hs
    exact h.of_tables _ _ _

theorem newSlot (h : b.Tidy c w js) {name : String} {mutable : Bool} {slot : Nat}
    (hs : newSlot name mutable b = .ok (slot, b')) : b'.Tidy c w js := by
  obtain ⟨-, -, rfl⟩ := newSlot_ok hs
  exact h.of_tables _ b.strings _

theorem declare (h : b.Tidy c w js) {name : String} {reg : Nat} {mutable : Bool}
    (hd : updateBody (fun f => f.declare name reg mutable) b = .ok (u, b')) :
    b'.Tidy { c with locals := ⟨name, c.depth, reg, mutable⟩ :: c.locals } w js := by
  rw [updateBody_ok hd]
  obtain rfl := h.context
  exact h.of_code (f := b.body.declare name reg mutable) rfl rfl h.body.top_le

theorem beginScope (h : b.Tidy c w js) (hs : updateBody Body.beginScope b = .ok (u, b')) :
    b'.Tidy c.deepen w js := by
  rw [updateBody_ok hs]
  obtain rfl := h.context
  exact h.of_code (f := b.body.beginScope) rfl rfl h.body.top_le

theorem loadConstant (h : b.Tidy c w js) {k : Constant} {t : Nat} (ht : t < c.top)
    (hl : loadConstant k t b = .ok (u, b')) : b'.Tidy c w js := by
  obtain ⟨i, b₁, hk, hl⟩ := bind_eq_ok.1 hl
  have h₁ := h.constantIndex hk
  exact h₁.emitABx ht (.inr rfl) hl

theorem reg_lt (h : b.Tidy c w js) (hc : c.InOrder) {name : String} {l : Local}
    (hl : b.body.local? name = some l) : l.reg < c.top := by
  refine hc.regs l ?_
  rw [← h.context]
  exact List.mem_of_find?_eq_some hl

theorem loadName (h : b.Tidy c w js) (hc : c.InOrder) {name : String} {pos : Position} {t : Nat}
    (ht : t < c.top) (hl : loadName name pos t b = .ok (u, b')) : b'.Tidy c w js := by
  unfold Compile.loadName at hl
  rw [get_bind_eq_ok] at hl
  cases hlocal : b.body.local? name with
  | some l =>
    rw [hlocal] at hl
    simp only at hl
    split_ifs at hl
    · obtain ⟨-, rfl⟩ := pure_eq_ok.1 hl
      exact h
    · exact h.emitABC ht (h.reg_lt hc hlocal) (Nat.zero_lt_of_lt ht) (by nofun) hl
  | none =>
    cases hglobal : b.names.global? name with
    | some g =>
      simp only [hlocal, hglobal] at hl
      obtain ⟨slot, b₁, hwide, hl⟩ := bind_eq_ok.1 hl
      obtain ⟨-, rfl, -⟩ := wideOperand_ok hwide
      exact h.emitABx ht (.inr rfl) hl
    | none =>
      cases hprimitive : b.names.primitive? name with
      | some index =>
        simp only [hlocal, hglobal, hprimitive] at hl
        obtain ⟨index', b₁, hwide, hl⟩ := bind_eq_ok.1 hl
        obtain ⟨-, rfl, -⟩ := wideOperand_ok hwide
        exact h.emitABx ht (.inr rfl) hl
      | none =>
        simp only [hlocal, hglobal, hprimitive] at hl
        exact (throw_eq_ok.1 hl).elim

/-! ## Functions -/

theorem enterFunction (h : b.Tidy c w js) {name : String} {arity : Nat} (ha : arity ≤ 255)
    (he : enterFunction name arity b = .ok (u, b')) :
    b'.Tidy ⟨[], 0, arity⟩ (some b.body) [] := by
  cases he
  refine ⟨rfl, rfl, ⟨Nat.le_refl _, ha, fun v hv => absurd hv (Array.not_mem_empty v)⟩, ?_, nofun,
    h.finished⟩
  rintro f ⟨⟩
  exact h.body

/-- The parameters of a function are its first locals, in its first registers. -/
theorem declareParams (h : b.Tidy c w js) (hc : c.InOrder) {i : Nat}
    {params earlier : List String} (hi : i + params.length ≤ c.top)
    (hd : declareParams i earlier params b = .ok (u, b')) :
    ∃ locals, ({ c with locals } : Context).InOrder ∧ b'.Tidy { c with locals } w js := by
  induction params generalizing i earlier b c with
  | nil =>
    obtain ⟨-, rfl⟩ := pure_eq_ok.1 hd
    exact ⟨c.locals, hc, h⟩
  | cons param rest ih =>
    unfold Compile.declareParams at hd
    split_ifs at hd with hmem
    · obtain ⟨_, _, hthrow, -⟩ := bind_eq_ok.1 hd
      exact (throw_eq_ok.1 hthrow).elim
    · obtain ⟨u₁, b₁, h₁, h₂⟩ := bind_eq_ok.1 hd
      rw [List.length_cons] at hi
      have hlt : i < c.top := by omega
      exact ih (c := { c with locals := ⟨param, c.depth, i, false⟩ :: c.locals }) (h.declare h₁)
        ⟨List.forall_mem_cons.2 ⟨Nat.le_refl _, hc.nested⟩,
          List.forall_mem_cons.2 ⟨hlt, hc.regs⟩⟩ (by show _ ≤ c.top; omega) h₂

theorem leaveFunction {c₀ : Context} {js₀ : List Nat} {b₀ : Builder} (h₀ : b₀.Tidy c₀ none js₀)
    (h : b.Tidy c (some b₀.body) js) {i : Nat} (hl : leaveFunction b = .ok (i, b')) :
    b'.Tidy c₀ none js₀ := by
  cases hl
  have hbody : b.waiting.getD b.body = b₀.body := by
    rw [h.waiting]
    rfl
  refine ⟨?_, rfl, ?_, nofun, ?_, fun p hp => ?_⟩
  · show (b.waiting.getD b.body).context = c₀
    rw [hbody]
    exact h₀.context
  · show (b.waiting.getD b.body).Tidy
    rw [hbody]
    exact h₀.body
  · show ∀ p ∈ js₀, ∃ word, (b.waiting.getD b.body).code[p]? = some word ∧
      word.Jumps (b.waiting.getD b.body).maxSlots
    rw [hbody]
    exact h₀.jumps
  · rcases Array.mem_push.1 hp with hp | rfl
    · exact h.finished p hp
    · exact h.body.prototype

end Builder.Tidy

end ScriptMachine.Compile
