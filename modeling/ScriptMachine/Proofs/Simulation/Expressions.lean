import ScriptMachine.Proofs.Simulation.Instructions

/-!
# Expressions

Code computes an evaluation when its run, from any machine that matches a store, follows the
evaluation from that store and leaves the result in the target. Each form of expression computes what
it should when its parts do.
-/

namespace ScriptMachine.Simulation

open Source Bytecode Compile Evaluation

/-- The code from `i` to `j` computes an evaluation into the register `t`, with `k` units of fuel. -/
def Computes (σ : Slots) (n k : Nat) (A : Activation) (C : Coding) (sc : Scope) (t i j : Nat)
    (act : Eval Datum) : Prop :=
  ∀ s m, Here σ n A C sc i s m →
    Simulates k m (act s) (Computed σ n A C sc t j m) (Returned σ n A)

variable {σ : Slots} {n k : Nat} {A : Activation} {C : Coding} {sc : Scope} {t i j l p : Nat}
  {act next : Eval Datum} {d : Datum} {names : Names} {ident : String}

/-! ## Values -/

section
variable (hsc : sc.InOrder C) (ht : sc.Spare t)
include hsc ht

theorem Spare.lt : t < 256 := by
  have := ht.1
  have := hsc.top_le
  omega

theorem computes_nil (hw : C.At i (.abx .loadNil t 0)) :
    Computes σ n k A C sc t i (i + 1) (pure .nil) := by
  intro s m h
  refine simulates_write h hsc ht hw (Word.opcode?_abx _ _ _) fun g o _ _ => ⟨_, .nil, ?_⟩
  simp only [Machine.perform, Word.a_abx _ (Spare.lt hsc ht)]

theorem computes_bool (b : Bool) (hw : C.At i (.abx (if b then .loadTrue else .loadFalse) t 0)) :
    Computes σ n k A C sc t i (i + 1) (pure (.bool b)) := by
  intro s m h
  refine simulates_write h hsc ht hw (Word.opcode?_abx _ _ _) fun g o _ _ => ⟨_, .bool b, ?_⟩
  cases b <;> simp [Machine.perform, Word.a_abx _ (Spare.lt hsc ht)]

theorem computes_constant (hk : C.Holds p d) (hw : C.At i (.abx .loadConst t p)) :
    Computes σ n k A C sc t i (i + 1) (pure d) := by
  intro s m h
  refine simulates_write h hsc ht hw (Word.opcode?_abx _ _ _) fun g o hC _ => ?_
  obtain ⟨v, hv, hd⟩ := hC.constants p d hk.2
  refine ⟨v, .of_literal hd, ?_⟩
  simp only [Machine.perform, Word.a_abx _ (Spare.lt hsc ht),
    Word.bx_abx _ (Nat.lt_succ_of_le hk.1), hv]

/-- A local is copied from its register. -/
theorem computes_local (hreg : sc.reg? ident = some p) (hw : C.At i (.abc .move t p 0)) :
    Computes σ n k A C sc t i (i + 1) (fetch names ident) := by
  intro s m h
  have hrel := h.lookup ident
  rw [hreg] at hrel
  unfold fetch
  generalize hd : s.locals.lookup ident = found at hrel
  cases hrel with
  | @some d _ _ =>
    refine simulates_write h hsc ht hw (Word.opcode?_abc _ _ _ _) fun g o _ ho => ?_
    have hrel' := ho.lookup ident
    rw [hreg, hd] at hrel'
    cases hrel' with
    | some hval =>
      obtain ⟨v, hv, hvd⟩ := hval
      have hp : p < 256 := by
        have := hsc.regs _ (Scope.mem_of_reg? hreg)
        have := hsc.top_le
        simp only at *
        omega
      refine ⟨v, hvd, ?_⟩
      simp only [Machine.perform, Word.a_abc _ (Spare.lt hsc ht), Word.b_abc _ hp]
      exact Machine.bind_of_ok (Machine.readReg_eq hv)

/-- A global has a value, for its slot was given out. -/
theorem computes_global (hnames : names.InOrder) (hn : names.nextSlot ≤ n) {g : GlobalName}
    (hreg : sc.reg? ident = none) (hg : names.global? ident = some g) (hslot : g.slot ≤ maxWide)
    (hw : C.At i (.abx .getGlobal t g.slot)) :
    Computes σ n k A C sc t i (i + 1) (fetch names ident) := by
  intro s m h
  have hlookup : s.locals.lookup ident = none := by
    have hrel := h.lookup ident
    rw [hreg] at hrel
    exact (rel_none_iff hrel).2 rfl
  obtain ⟨d, hd⟩ := Option.isSome_iff_exists.1
    ((h.matched.bound g.slot).2 (Nat.lt_of_lt_of_le (hnames.globals ident g hg) hn))
  simp only [fetch, hlookup, hg, hd]
  refine simulates_write h hsc ht hw (Word.opcode?_abx _ _ _) fun f o _ ho => ?_
  obtain ⟨v, hv, hvd⟩ := ho.matched.globalValue_eq hd
  refine ⟨v, hvd, ?_⟩
  simp only [Machine.perform, Word.a_abx _ (Spare.lt hsc ht),
    Word.bx_abx _ (Nat.lt_succ_of_le hslot)]
  exact Machine.bind_of_ok hv

theorem computes_primitive (hnames : names.InOrder) {index : Nat} (hreg : sc.reg? ident = none)
    (hg : names.global? ident = none) (hindex : names.primitive? ident = some index)
    (hwide : index ≤ maxWide) (hw : C.At i (.abx .getPrim t index)) :
    Computes σ n k A C sc t i (i + 1) (fetch names ident) := by
  intro s m h
  have hlookup : s.locals.lookup ident = none := by
    have hrel := h.lookup ident
    rw [hreg] at hrel
    exact (rel_none_iff hrel).2 rfl
  have hlt := hnames.primitives ident index hindex
  have hback : (UInt32.ofNat index).toNat = index := by
    rw [UInt32.toNat_ofNat']
    unfold maxWide at hwide
    omega
  simp only [fetch, hlookup, hg, hindex]
  refine simulates_write h hsc ht hw (Word.opcode?_abx _ _ _) fun f o _ ho => ?_
  refine ⟨.primitive (UInt32.ofNat index), ?_, ?_⟩
  · have hstands : Stands σ n o.heap (.primitive (UInt32.ofNat index))
        (.primitive (UInt32.ofNat index).toNat) := .primitive (by rwa [hback])
    rwa [hback] at hstands
  · simp only [Machine.perform, Word.a_abx _ (Spare.lt hsc ht),
      Word.bx_abx _ (Nat.lt_succ_of_le hwide)]
    have hentry : index < Registry.standard.entries.size := hlt
    have hprimitive : Machine.primitive index o = .ok Registry.standard.entries[index] o := by
      unfold Machine.primitive Registry.lookup
      rw [ho.matched.primitives, Array.getElem?_eq_getElem hentry]
    exact Machine.bind_of_ok hprimitive

/-! ## Operators -/

theorem computes_unary {op : UnaryOp} (he : Computes σ n k A C sc t i j act)
    (hw : C.At j (.abc (unaryCode op) t t 0)) :
    Computes σ n k A C sc t i (j + 1) (do
      let d ← act
      liftFault (unary op d)) := by
  intro s m h
  refine (he s m h).bind fun d s₁ m₁ h₁ => ?_
  rw [liftFault_eq]
  refine (simulates_routine h₁.here hsc ht hw (Word.opcode?_abc _ _ _ _) (writes_writeReg A.base t)
    fun g o hheap hstack ho => ?_).weaken fun _ _ _ h₂ => h₂.since h₁.kept
  obtain ⟨v, hv, hvd⟩ := h₁.value
  rw [← hheap] at hvd
  rw [← hstack] at hv
  refine ⟨Machine.liftFault (Machine.unaryResult (unaryCode op) v), .of_agree (agree_unary op hvd), ?_⟩
  have hperform : Machine.perform g A.base (unaryCode op) (.abc (unaryCode op) t t 0) o =
      (do
        let u ← Machine.readReg A.base t
        let r ← Machine.liftFault (Machine.unaryResult (unaryCode op) u)
        Machine.writeReg A.base t r
        return none : Action (Option Value)) o := by
    cases op <;> simp only [unaryCode, Machine.perform, Word.a_abc _ (Spare.lt hsc ht),
      Word.b_abc _ (Spare.lt hsc ht)]
  rw [hperform]
  exact Machine.bind_of_ok (Machine.readReg_eq hv)

/-- The right operand is computed above all that is in use, so the left one is still there. -/
theorem computes_binary (hσ : σ.Distinct) {code : Opcode} {lhs rhs : Eval Datum}
    (hcode : Machine.Binary code) (hl : Computes σ n k A C sc t i l lhs) (hroom : C.Room sc.top)
    (hr : Computes σ n k A C sc.take sc.top l j rhs) (hw : C.At j (.abc code t t sc.top)) :
    Computes σ n k A C sc t i (j + 1) (do
      let d ← lhs
      let e ← rhs
      liftFault (binary code d e)) := by
  intro s m h
  refine (hl s m h).bind fun d s₁ m₁ h₁ => ?_
  refine (hr s₁ m₁ (h₁.here.of_locals rfl)).bind fun e s₂ m₂ h₂ => ?_
  have hkept : Kept A sc t m₁ m₂ := h₂.kept.above rfl (Nat.le_succ _) (.inr (Nat.le_refl _))
  have hd : Reg σ n A m₂ t d :=
    h₂.kept.reg h₁.value (Nat.lt_succ_of_lt ht.1) (Nat.ne_of_lt ht.1) ht.2
  have hhere : Here σ n A C sc j s₂ m₂ := h₂.here.of_locals rfl
  rw [liftFault_eq]
  refine (simulates_routine hhere hsc ht hw (Word.opcode?_abc _ _ _ _) (writes_writeReg A.base t)
    fun g o hheap hstack ho => ?_).weaken fun _ _ _ h₃ => h₃.since (h₁.kept.trans hkept)
  obtain ⟨v, hv, hvd⟩ := hd
  obtain ⟨u, hu, hue⟩ := h₂.value
  rw [← hheap] at hvd hue
  rw [← hstack] at hv hu
  refine ⟨Machine.binaryResult code v u, yields_binary hσ hcode hvd hue, ?_⟩
  have hperform : Machine.perform g A.base code (.abc code t t sc.top) o =
      (do
        let v ← Machine.readReg A.base t
        let u ← Machine.readReg A.base sc.top
        let r ← Machine.binaryResult code v u
        Machine.writeReg A.base t r
        return none : Action (Option Value)) o := by
    have htop : sc.top < 256 := Nat.lt_succ_of_lt hroom.1
    cases code <;> first
      | exact hcode.elim
      | simp only [Machine.perform, Word.a_abc _ (Spare.lt hsc ht), Word.b_abc _ (Spare.lt hsc ht),
          Word.c_abc _ htop]
  rw [hperform, Machine.bind_of_ok (Machine.readReg_eq hv)]
  exact Machine.bind_of_ok (Machine.readReg_eq hu)

/-- The operand that decides stays in the target; otherwise the other one takes its place. -/
theorem computes_logical {op : BinaryOp} {lhs rhs : Eval Datum}
    (hl : Computes σ n k A C sc t i l lhs) (hw : C.At l (.abx (skipCode op) t j))
    (hr : Computes σ n k A C sc t (l + 1) j rhs) (hj : j ≤ maxWide) :
    Computes σ n k A C sc t i j (do
      let d ← lhs
      if decides op d then return d else rhs) := by
  intro s m h
  refine (hl s m h).bind fun d s₁ m₁ h₁ => ?_
  refine simulates_skip h₁.here op (Spare.lt hsc ht) h₁.value hw hj fun o hheap hstack ho => ?_
  have hkept : Kept A sc t m o := h₁.kept.trans (.of_eq hheap hstack)
  by_cases hdecides : decides op d = true
  · rw [if_pos hdecides] at ho ⊢
    refine .here ⟨ho, h₁.value.grows ?_ (by rw [hstack]), hkept⟩
    rw [hheap]
    exact .refl _
  · rw [if_neg hdecides] at ho ⊢
    exact (hr s₁ o ho).weaken fun _ _ _ h₂ => h₂.since hkept

end

/-! ## Branches -/

/-- The test is computed above all that is in use; one of the two branches has the target. -/
theorem computes_cond {test body otherwise : Eval Datum} (hroom : C.Room sc.top)
    (htest : Computes σ n k A C sc.take sc.top i l test)
    (hskip : C.At l (.abx .jumpIfFalse sc.top (p + 1))) (hp : p + 1 ≤ maxWide)
    (hbody : Computes σ n k A C sc t (l + 1) p body) (hend : C.At p (.abx .jump 0 j))
    (hj : j ≤ maxWide) (helse : Computes σ n k A C sc t (p + 1) j otherwise) :
    Computes σ n k A C sc t i j (do
      let d ← test
      if d.isFalsey then otherwise else body) := by
  intro s m h
  refine (htest s m (h.of_locals rfl)).bind fun d s₁ m₁ h₁ => ?_
  have hhere : Here σ n A C sc l s₁ m₁ := h₁.here.of_locals rfl
  refine simulates_skip hhere .and (Nat.lt_succ_of_lt hroom.1)
    h₁.value hskip hp fun o hheap hstack ho => ?_
  have hkept₁ : Kept A sc t m m₁ := h₁.kept.above rfl (Nat.le_succ _) (.inr (Nat.le_refl _))
  have hkept : Kept A sc t m o := hkept₁.trans (.of_eq hheap hstack)
  by_cases hfalsey : d.isFalsey = true
  · have ho' : Here σ n A C sc (p + 1) s₁ o := by
      rwa [show decides .and d = true from hfalsey, if_pos rfl] at ho
    rw [if_pos hfalsey]
    exact (helse s₁ o ho').weaken fun _ _ _ h₂ => h₂.since hkept
  · have ho' : Here σ n A C sc (l + 1) s₁ o := by
      rwa [show decides .and d = false by simpa [decides] using hfalsey, if_neg (by decide)] at ho
    rw [if_neg hfalsey]
    refine (hbody s₁ o ho').extend fun e s₂ m₂ h₂ => ?_
    refine (simulates_jump h₂.here hend hj fun o' hheap' hstack' ho'' => ?_).less (Nat.le_succ k)
    refine .here ⟨ho'', h₂.value.grows ?_ (by rw [hstack']), ?_⟩
    · rw [hheap']
      exact .refl _
    · exact (hkept.trans h₂.kept).trans (.of_eq hheap' hstack')

/-! ## Calls -/

/-- Arguments have been computed into the registers from the top of the scope on. -/
structure Gathered (σ : Slots) (n : Nat) (A : Activation) (C : Coding) (sc : Scope) (j count : Nat)
    (m : Machine) (ds : List Datum) (s : Store) (o : Machine) : Prop where
  here : Here σ n A C sc j s o
  count : ds.length = count
  values : ∀ (x : Nat) (d : Datum), ds[x]? = some d → Reg σ n A o (sc.top + x) d
  kept : Kept A sc sc.top m o

/-- The code from `i` to `j` computes arguments. -/
def Gathers (σ : Slots) (n k : Nat) (A : Activation) (C : Coding) (sc : Scope) (i j count : Nat)
    (act : Eval (List Datum)) : Prop :=
  ∀ s m, Here σ n A C sc i s m →
    Simulates k m (act s) (Gathered σ n A C sc j count m) (Returned σ n A)

theorem gathers_nil : Gathers σ n k A C sc i i 0 (pure []) :=
  fun _ _ h => .here ⟨h, rfl, fun _ _ hx => by simp at hx, .of_eq rfl rfl⟩

theorem gathers_cons (hsc : sc.InOrder C) {arg : Eval Datum} {rest : Eval (List Datum)}
    {count : Nat} (harg : Computes σ n k A C sc.take sc.top i l arg)
    (hrest : Gathers σ n k A C sc.take l j count rest) :
    Gathers σ n k A C sc i j (count + 1) (do
      let d ← arg
      let ds ← rest
      return d :: ds) := by
  intro s m h
  refine (harg s m (h.of_locals rfl)).bind fun d s₁ m₁ h₁ => ?_
  refine (hrest s₁ m₁ h₁.here).bind fun ds s₂ m₂ h₂ => ?_
  refine .here ⟨h₂.here.of_locals rfl, by rw [List.length_cons, h₂.count], ?_, ?_⟩
  · intro x e hx
    cases x with
    | zero =>
      simp only [List.getElem?_cons_zero, Option.some.injEq] at hx
      subst hx
      have hspare := hsc.spare_take
      exact h₂.kept.reg h₁.value hspare.1 (Nat.ne_of_lt hspare.1) hspare.2
    | succ x =>
      have hreg := h₂.values x e hx
      rwa [show sc.take.top + x = sc.top + (x + 1) from Nat.succ_add_eq_add_succ sc.top x] at hreg
  · have hkept₁ : Kept A sc sc.top m m₁ := h₁.kept.above rfl (Nat.le_succ _) (.inl rfl)
    exact hkept₁.trans (h₂.kept.above rfl (Nat.le_succ _) (.inr (Nat.le_succ _)))

/-- A call is next, with the callee in the register on top of the scope and the arguments in those
above it. -/
structure AtCall (σ : Slots) (n : Nat) (A : Activation) (C : Coding) (sc : Scope) (t i : Nat)
    (s : Store) (m : Machine) (f : Datum) (ds : List Datum) : Prop where
  here : Here σ n A C sc i s m
  scope : sc.InOrder C
  spare : sc.Spare t
  slots : sc.top + ds.length < C.slots
  top : sc.top < 255
  few : ds.length ≤ maxArguments
  call : C.At i (.abc .call t sc.top ds.length)
  callee : Reg σ n A m sc.top f
  arguments : ∀ (x : Nat) (d : Datum), ds[x]? = some d → Reg σ n A m (sc.top + 1 + x) d

/-- A call does what it does to the data. -/
def CallsAgree (σ : Slots) (n k : Nat) : Prop :=
  ∀ (A : Activation) (C : Coding) (sc : Scope) (t i : Nat) (s : Store) (m : Machine) (f : Datum)
    (ds : List Datum), AtCall σ n A C sc t i s m f ds →
    Simulates k m (apply k f ds s) (Computed σ n A C sc t (i + 1) m) (Returned σ n A)

theorem computes_call (hcalls : CallsAgree σ n k) (hsc : sc.InOrder C) (ht : sc.Spare t)
    {callee : Eval Datum} {args : Eval (List Datum)} {count : Nat} (hcount : count ≤ maxArguments)
    (hroom : C.Room sc.top) (hslots : sc.top + 1 + count ≤ C.slots)
    (hf : Computes σ n k A C sc.take sc.top i l callee)
    (hargs : Gathers σ n k A C sc.take l j count args) (hw : C.At j (.abc .call t sc.top count)) :
    Computes σ n k A C sc t i (j + 1) (do
      let f ← callee
      let ds ← args
      apply k f ds) := by
  intro s m h
  refine (hf s m (h.of_locals rfl)).bind fun f s₁ m₁ h₁ => ?_
  refine (hargs s₁ m₁ h₁.here).bind fun ds s₂ m₂ h₂ => ?_
  have hlength := h₂.count
  subst hlength
  have hspare := hsc.spare_take
  have hcallee : Reg σ n A m₂ sc.top f :=
    h₂.kept.reg h₁.value hspare.1 (Nat.ne_of_lt hspare.1) hspare.2
  have hkept₁ : Kept A sc t m m₁ := h₁.kept.above rfl (Nat.le_succ _) (.inr (Nat.le_refl _))
  have hkept₂ : Kept A sc t m₁ m₂ := h₂.kept.above rfl (Nat.le_succ _) (.inr (Nat.le_succ _))
  have hcall : AtCall σ n A C sc t j s₂ m₂ f ds :=
    ⟨h₂.here.of_locals rfl, hsc, ht, by omega, hroom.1, hcount, hw, hcallee, h₂.values⟩
  refine (hcalls A C sc t j s₂ m₂ f ds hcall).weaken fun _ _ _ h₃ => ?_
  exact h₃.since (hkept₁.trans hkept₂)

end ScriptMachine.Simulation
