import ScriptMachine.Proofs.Simulation.States

/-!
# Instructions

What each instruction does to a machine that matches a store: it writes a value that stands for a
datum to its target, or moves to another place, or changes a local or a global as the store does.
-/

namespace ScriptMachine.Simulation

open Bytecode Compile Evaluation

variable {σ : Slots} {n : Nat} {A : Activation} {C : Coding} {sc sc' : Scope} {s : Store}
  {m m' o : Machine} {d e : Datum} {i j k t r : Nat} {w : Word} {op : Opcode} {v : Value}
  {R : Datum → Store → Machine → Prop}

theorem forall₂_imp_mem {α β : Type} {P Q : α → β → Prop} {xs : List α} {ys : List β}
    (h : List.Forall₂ P xs ys) (hPQ : ∀ x, ∀ y ∈ ys, P x y → Q x y) : List.Forall₂ Q xs ys := by
  induction h with
  | nil => exact .nil
  | cons hxy _ ih =>
    exact .cons (hPQ _ _ List.mem_cons_self hxy) (ih fun x y hy => hPQ x y (List.mem_cons_of_mem _ hy))

/-! ## Changes of state -/

namespace Here

/-- Only the locals of a scope matter. -/
theorem of_locals (h : Here σ n A C sc i s m) (hl : sc'.locals = sc.locals) :
    Here σ n A C sc' i s m where
  frames := h.frames
  code := h.code
  room := h.room
  locals := by
    rw [hl]
    exact h.locals
  size_le := h.size_le
  below := h.below
  matched := h.matched

theorem jump (h : Here σ n A C sc i s m) (j executed : Nat) :
    Here σ n A C sc j s { m with frames := A.frame j :: A.callers, executed } where
  frames := rfl
  code := h.code
  room := h.room
  locals := h.locals
  size_le := h.size_le
  below := h.below
  matched := ⟨h.matched.sink, h.matched.primitives, h.matched.globals, h.matched.bound⟩

theorem grow {heap : Heap} {sink : Sink} (h : Here σ n A C sc i s m)
    (hadd : m.heap.AddsStrings heap) : Here σ n A C sc i { s with sink } { m with heap, sink } where
  frames := h.frames
  code := by
    obtain ⟨g, hg, hC⟩ := h.code
    exact ⟨g, hadd.grows.function? hg, hC.grows hadd.grows⟩
  room := h.room
  locals := h.locals.imp fun _ _ hx => ⟨hx.1, hx.2.grows hadd.grows rfl⟩
  size_le := h.size_le
  below := h.below
  matched := h.matched.grow hadd

theorem store (h : Here σ n A C sc i s m) (ht : ∀ x ∈ sc.locals, x.2 ≠ t) (v : Value) :
    Here σ n A C sc i s (m.store (A.base + t) v) where
  frames := h.frames
  code := h.code
  room := by
    rw [Machine.size_store]
    exact h.room
  locals := by
    refine forall₂_imp_mem h.locals fun x y hy hxy => ?_
    refine ⟨hxy.1, hxy.2.grows (.refl _) (Machine.store_ne ?_)⟩
    have := ht y hy
    omega
  size_le := by
    rw [Machine.size_store]
    exact h.size_le
  below := by
    intro cell hcell
    rw [Machine.store_ne (by omega)]
    exact h.below cell hcell
  matched := ⟨h.matched.sink, h.matched.primitives, h.matched.globals, h.matched.bound⟩

/-- A local gets a new value, and so does its register. -/
theorem setLocal (h : Here σ n A C sc i s m) (hsc : sc.InOrder C) {name : String}
    (hr : sc.reg? name = some r) (hv : Stands σ n m.heap v d) :
    Here σ n A C sc i (s.setLocal name d) (m.store (A.base + r) v) where
  frames := h.frames
  code := h.code
  room := by
    rw [Machine.size_store]
    exact h.room
  locals := by
    have hcell : A.base + r < m.stack.size := by
      have hlt := hsc.regs _ (Scope.mem_of_reg? hr)
      have htop := hsc.top_le_slots
      have hroom := h.room
      simp only at hlt
      omega
    have hlocals := h.locals
    have hdistinct := hsc.distinct
    unfold Scope.reg? at hr
    show List.Forall₂ _ (assign name d s.locals) sc.locals
    generalize sc.locals = regs at hlocals hdistinct hr ⊢
    generalize s.locals = locals at hlocals ⊢
    induction hlocals with
    | nil => cases hr
    | @cons x y xs ys hxy hrest ih =>
      obtain ⟨key, e⟩ := x
      obtain ⟨key', r'⟩ := y
      obtain ⟨hkey, hreg⟩ := hxy
      simp only at hkey hreg
      subst hkey
      obtain ⟨hfresh, hdistinct'⟩ := List.nodup_cons.1 hdistinct
      rw [List.lookup_cons] at hr
      unfold assign
      by_cases hname : key = name
      · subst hname
        simp only [beq_self_eq_true, Option.some.injEq] at hr
        subst hr
        rw [if_pos rfl]
        refine .cons ⟨rfl, v, Machine.store_self hcell, hv⟩ ?_
        refine forall₂_imp_mem hrest fun x y hy hxy => ?_
        refine ⟨hxy.1, hxy.2.grows (.refl _) (Machine.store_ne fun he => hfresh ?_)⟩
        have hyr : y.2 = r' := by omega
        exact List.mem_map.2 ⟨y, hy, hyr⟩
      · have hne : (name == key) = false := by simpa using fun h => hname h.symm
        simp only [hne] at hr
        rw [if_neg hname]
        refine .cons ⟨rfl, hreg.grows (.refl _) (Machine.store_ne fun he => hfresh ?_)⟩
          (ih hdistinct' hr)
        have hrr : r = r' := by omega
        subst hrr
        have hreg' : Scope.reg? ⟨ys, 0⟩ name = some r := hr
        have hmem := Scope.mem_of_reg? hreg'
        exact List.mem_map.2 ⟨(name, r), hmem, rfl⟩
  size_le := by
    rw [Machine.size_store]
    exact h.size_le
  below := by
    intro cell hcell
    rw [Machine.store_ne (by omega)]
    exact h.below cell hcell
  matched := ⟨h.matched.sink, h.matched.primitives, h.matched.globals, h.matched.bound⟩

/-- A global gets a new value. -/
theorem setGlobal (h : Here σ n A C sc i s m) {n' slot : Nat} (hv : Stands σ n' m.heap v d)
    (hle : n ≤ n') (hn : ∀ i, i < n' ↔ i < n ∨ i = slot) :
    Here σ n' A C sc i (s.setGlobal slot d) { m with pending := m.pending.insert slot v } where
  frames := h.frames
  code := h.code
  room := h.room
  locals := h.locals.imp fun _ _ hx => ⟨hx.1, hx.2.mono hle⟩
  size_le := h.size_le
  below := h.below
  matched := h.matched.write hv hle hn

/-- What a name stands for, if it is a local. -/
theorem lookup (h : Here σ n A C sc i s m) (name : String) :
    Option.Rel (fun d r => Reg σ n A m r d) (s.locals.lookup name) (sc.reg? name) := by
  have hlocals := h.locals
  unfold Scope.reg?
  generalize sc.locals = regs at hlocals ⊢
  generalize s.locals = locals at hlocals ⊢
  induction hlocals with
  | nil => exact .none
  | @cons x y xs ys hxy _ ih =>
    obtain ⟨key, e⟩ := x
    obtain ⟨key', r'⟩ := y
    obtain ⟨hkey, hreg⟩ := hxy
    simp only at hkey hreg
    subst hkey
    rw [List.lookup_cons, List.lookup_cons]
    by_cases hname : name = key
    · subst hname
      simp only [beq_self_eq_true]
      exact .some hreg
    · have hne : (name == key) = false := by simpa using hname
      simp only [hne]
      exact ih

theorem cell_lt (h : Here σ n A C sc i s m) (hsc : sc.InOrder C) (ht : t < sc.top) :
    A.base + t < m.stack.size := by
  have htop := hsc.top_le_slots
  have hroom := h.room
  omega

/-- The next instruction is performed, unless the fuel is used up. -/
theorem next (h : Here σ n A C sc i s m) (hw : C.At i w) (hop : w.opcode? = some op) :
    Lost m ∨ ∃ g o, o.heap = m.heap ∧ o.stack = m.stack ∧
      (o.heap.function? A.handle = some g ∧ Has o.heap g C) ∧ Here σ n A C sc (i + 1) s o ∧
      Machine.step m = Machine.perform g A.base op w o := by
  obtain ⟨g, hg, hC⟩ := h.code
  have hcode : g.code[(A.frame i).ip]? = some w := by
    rw [hC.code]
    exact hw
  -- a machine without fuel stops before the instruction, which is a limit of the machine
  rcases m.fuelled_or_spent with hfuel | ⟨limit, hlimit, hspent⟩
  · exact .inr ⟨g, m.past (A.frame i) A.callers, rfl, rfl, ⟨hg, hC⟩, h.jump (i + 1) _,
      Machine.step_performs h.frames hg hcode hfuel hop⟩
  · refine .inl ⟨1, ?_⟩
    rw [Machine.run_one_error (Machine.step_out_of_fuel h.frames hg hcode hlimit hspent)]
    exact .fuel hlimit

theorem step (h : Here σ n A C sc i s m) (hw : C.At i w) (hop : w.opcode? = some op) {α : Type}
    {x : EStateM.Result Stop Store α} {Q : α → Store → Machine → Prop}
    (hnext : ∀ g o, o.heap = m.heap → o.stack = m.stack →
      o.heap.function? A.handle = some g ∧ Has o.heap g C → Here σ n A C sc (i + 1) s o →
      Machine.step m = Machine.perform g A.base op w o → Simulates k m x Q R) :
    Simulates k m x Q R := by
  rcases h.next hw hop with hlost | ⟨g, o, hheap, hstack, hC, ho, hs⟩
  · exact .lost hlost
  · exact hnext g o hheap hstack hC ho hs

end Here

/-! ## Results in registers -/

/-- A datum has been computed into the register `t`, up to instruction `j`, since `m`. -/
structure Computed (σ : Slots) (n : Nat) (A : Activation) (C : Coding) (sc : Scope) (t j : Nat)
    (m : Machine) (d : Datum) (s : Store) (o : Machine) : Prop where
  here : Here σ n A C sc j s o
  value : Reg σ n A o t d
  kept : Kept A sc t m o

theorem Computed.store (h : Here σ n A C sc j s o) (hsc : sc.InOrder C) (ht : sc.Spare t)
    (hk : Kept A sc t m o) (hv : Stands σ n o.heap v d) :
    Computed σ n A C sc t j m d s (o.store (A.base + t) v) where
  here := h.store ht.2 v
  value := ⟨v, Machine.store_self (h.cell_lt hsc ht.1), hv⟩
  kept := hk.trans .store

/-- An instruction that writes a value which stands for a datum. -/
theorem simulates_write (h : Here σ n A C sc i s m) (hsc : sc.InOrder C) (ht : sc.Spare t)
    (hw : C.At i w) (hop : w.opcode? = some op)
    (hperform : ∀ g o, Has o.heap g C → Here σ n A C sc (i + 1) s o → ∃ v, Stands σ n o.heap v d ∧
      Machine.perform g A.base op w o =
        (do Machine.writeReg A.base t v; return none : Action (Option Value)) o) :
    Simulates k m (.ok d s) (Computed σ n A C sc t (i + 1) m) R := by
  refine h.step hw hop fun g o hheap hstack hC ho hs => ?_
  obtain ⟨v, hv, hrun⟩ := hperform g o hC.2 ho
  rw [hrun] at hs
  have hwrite : (do Machine.writeReg A.base t v; return none : Action (Option Value)) o =
      .ok none (o.store (A.base + t) v) :=
    Machine.bind_of_ok (Machine.writeReg_eq (ho.cell_lt hsc ht.1))
  exact .step (hs.trans hwrite) (.here (.store ho hsc ht (.of_eq hheap hstack) hv))

theorem Computed.since {o' : Machine} (h : Computed σ n A C sc t j o d s o') (hk : Kept A sc t m o) :
    Computed σ n A C sc t j m d s o' :=
  ⟨h.here, h.value, hk.trans h.kept⟩

theorem liftFault_eq (r : Except Fault Datum) (s : Store) :
    liftFault r s = runRoutine (lift r) s := by
  cases r <;> rfl

/-- What an instruction does with the value that it has computed: it goes to the target. -/
def Writes (cell : Nat) (write : Value → Action (Option Value)) : Prop :=
  ∀ (v : Value) (m : Machine), cell < m.stack.size → write v m = .ok none (m.store cell v)

theorem writes_writeReg (base reg : Nat) :
    Writes (base + reg) fun v => (do Machine.writeReg base reg v; return none) :=
  fun _ _ h => Machine.bind_of_ok (Machine.writeReg_eq h)

/-- An instruction that computes a value and writes it follows a routine on data. -/
theorem simulates_routine (h : Here σ n A C sc i s m) (hsc : sc.InOrder C) (ht : sc.Spare t)
    (hw : C.At i w) (hop : w.opcode? = some op) {routine : EStateM Fault Sink Datum}
    {write : Value → Action (Option Value)} (hwrite : Writes (A.base + t) write)
    (hperform : ∀ g o, o.heap = m.heap → o.stack = m.stack → Here σ n A C sc (i + 1) s o →
      ∃ act, Yields σ n o (act o) (routine o.sink) ∧
        Machine.perform g A.base op w o = (act >>= write) o) :
    Simulates k m (runRoutine routine s) (Computed σ n A C sc t (i + 1) m) R := by
  refine h.step hw hop fun g o hheap hstack hC ho hs => ?_
  obtain ⟨act, hact, hrun⟩ := hperform g o hheap hstack ho
  have hs' : Machine.step m = EStateM.bind act write o := hs.trans hrun
  unfold EStateM.bind at hs'
  unfold runRoutine
  rw [← ho.matched.sink]
  generalize act o = result at hact hs'
  generalize routine o.sink = result' at hact
  cases hact with
  | error he => exact .fault hs' rfl he
  | @ok v d heap sink hadd hd =>
    have ho' : Here σ n A C sc (i + 1) { s with sink } { o with heap, sink } := ho.grow hadd
    have hs'' : Machine.step m = .ok none (Machine.store { o with heap, sink } (A.base + t) v) :=
      hs'.trans (hwrite v _ (ho'.cell_lt hsc ht.1))
    -- a string without a handle of its own leaves the heap full
    rcases hd with hfull | hd
    · exact .lost ((Lost.of_full hfull).after (Machine.run_one_ok hs''))
    · refine .step hs'' (.here (.store ho' hsc ht ⟨?_, ?_⟩ hd))
      · rw [← hheap]
        exact hadd.grows
      · intro r _ _ _
        show o.stack[A.base + r]? = _
        rw [hstack]

/-! ## Jumps -/

theorem Here.jumpTo (h : Here σ n A C sc i s m) (j : Nat) :
    (do Machine.jumpTo j; return none : Action (Option Value)) m =
      .ok none { m with frames := A.frame j :: A.callers } := by
  have hjump : Machine.jumpTo j m = .ok () { m with frames := A.frame j :: A.callers } := by
    rw [Machine.jumpTo, h.frames]
    rfl
  exact Machine.bind_of_ok hjump

/-- A jump counts toward the fuel. -/
theorem simulates_jump (h : Here σ n A C sc i s m) (hw : C.At i (.abx .jump 0 j)) (hj : j ≤ maxWide)
    {α : Type} {x : EStateM.Result Stop Store α} {Q : α → Store → Machine → Prop}
    (hnext : ∀ o, o.heap = m.heap → o.stack = m.stack → Here σ n A C sc j s o →
      Simulates k o x Q R) : Simulates (k + 1) m x Q R := by
  refine h.step hw (Word.opcode?_abx _ _ _) fun g o hheap hstack hC ho hs => ?_
  have hbx : Word.bx (.abx .jump 0 j) = j := Word.bx_abx _ (Nat.lt_succ_of_le hj)
  have hjump : Machine.step m = .ok none { o with frames := A.frame j :: A.callers } := by
    simp only [hs, Machine.perform, hbx]
    exact ho.jumpTo j
  exact .step_succ hjump (hnext _ hheap hstack (ho.jump j o.executed))

theorem perform_skip (b : Source.BinaryOp) (hr : r < 256) (hj : j ≤ maxWide) {g : Function}
    (hd : Reg σ n A o r d) :
    Machine.perform g A.base (skipCode b) (.abx (skipCode b) r j) o =
      if decides b d then (do Machine.jumpTo j; return none : Action (Option Value)) o
      else .ok none o := by
  have ha : Word.a (.abx (skipCode b) r j) = r := Word.a_abx _ hr
  have hbx : Word.bx (.abx (skipCode b) r j) = j := Word.bx_abx _ (Nat.lt_succ_of_le hj)
  obtain ⟨v, hv, hvd⟩ := hd
  have hread := Machine.readReg_eq hv
  have hop : skipCode b = .jumpIfFalse ∧ decides b d = v.isFalsey ∨
      skipCode b = .jumpIfTrue ∧ decides b d = !v.isFalsey := by
    rw [hvd.isFalsey_eq]
    cases b <;> simp [skipCode, decides]
  rcases hop with ⟨hcode, hdecides⟩ | ⟨hcode, hdecides⟩
  · rw [hcode] at ha hbx ⊢
    simp only [Machine.perform, ha, hbx, hdecides]
    rw [Machine.bind_of_ok hread]
    split_ifs <;> rfl
  · rw [hcode] at ha hbx ⊢
    simp only [Machine.perform, ha, hbx, hdecides]
    rw [Machine.bind_of_ok hread]
    split_ifs <;> rfl

/-- The jump of `&&` or `||` is taken when the datum decides. -/
theorem simulates_skip (h : Here σ n A C sc i s m) (b : Source.BinaryOp) (hr : r < 256)
    (hd : Reg σ n A m r d) (hw : C.At i (.abx (skipCode b) r j)) (hj : j ≤ maxWide)
    {α : Type} {x : EStateM.Result Stop Store α} {Q : α → Store → Machine → Prop}
    (hnext : ∀ o, o.heap = m.heap → o.stack = m.stack →
      Here σ n A C sc (if decides b d then j else i + 1) s o → Simulates k o x Q R) :
    Simulates k m x Q R := by
  refine h.step hw (Word.opcode?_abx _ _ _) fun g o hheap hstack hC ho hs => ?_
  have hd' : Reg σ n A o r d := hd.grows (by rw [hheap]; exact .refl _) (by rw [hstack])
  rw [perform_skip b hr hj hd'] at hs
  cases hdecides : decides b d with
  | false =>
    rw [hdecides] at hs hnext
    exact .step hs (hnext o hheap hstack ho)
  | true =>
    rw [hdecides] at hs hnext
    have hjump : Machine.step m = .ok none { o with frames := A.frame j :: A.callers } := by
      rw [hs, if_pos rfl, ho.jumpTo j]
    exact .step hjump (hnext _ hheap hstack (ho.jump j o.executed))

/-! ## Changes of locals and globals -/

/-- A register is copied to that of a local. -/
theorem simulates_assign (h : Here σ n A C sc i s m) (hsc : sc.InOrder C) {name : String}
    (hreg : sc.reg? name = some r) (ht : t < 256) (hd : Reg σ n A m t d)
    (hw : C.At i (.abc .move r t 0)) {α : Type} {x : EStateM.Result Stop Store α}
    {Q : α → Store → Machine → Prop}
    (hnext : ∀ o, Here σ n A C sc (i + 1) (s.setLocal name d) o → Kept A sc sc.top m o →
      Simulates k o x Q R) : Simulates k m x Q R := by
  refine h.step hw (Word.opcode?_abc _ _ _ _) fun g o hheap hstack hC ho hs => ?_
  obtain ⟨v, hv, hvd⟩ := hd
  rw [← hheap] at hvd
  rw [← hstack] at hv
  have hmem := Scope.mem_of_reg? hreg
  have hr : r < sc.top := hsc.regs _ hmem
  have hr' : r < 256 := by
    have := hsc.top_le
    omega
  have hstep : Machine.step m = .ok none (o.store (A.base + r) v) := by
    rw [hs]
    simp only [Machine.perform, Word.a_abc _ hr', Word.b_abc _ ht]
    rw [Machine.bind_of_ok (Machine.readReg_eq hv)]
    exact Machine.bind_of_ok (Machine.writeReg_eq (ho.cell_lt hsc hr))
  refine .step hstep (hnext _ (ho.setLocal hsc hreg hvd) ⟨?_, ?_⟩)
  · show m.heap.Grows o.heap
    rw [hheap]
    exact .refl _
  · intro r' _ _ hlocals
    have hne := hlocals _ hmem
    simp only at hne
    rw [Machine.store_ne (by omega), hstack]

/-- A register is copied to a global that is bound. -/
theorem simulates_setGlobal (h : Here σ n A C sc i s m) {slot : Nat} (hslot : slot ≤ maxWide)
    (hbound : slot < n) (ht : t < 256) (hd : Reg σ n A m t d)
    (hw : C.At i (.abx .setGlobal t slot)) {α : Type} {x : EStateM.Result Stop Store α}
    {Q : α → Store → Machine → Prop}
    (hnext : ∀ o, Here σ n A C sc (i + 1) (s.setGlobal slot d) o → Kept A sc sc.top m o →
      Simulates k o x Q R) : Simulates k m x Q R := by
  refine h.step hw (Word.opcode?_abx _ _ _) fun g o hheap hstack hC ho hs => ?_
  obtain ⟨v, hv, hvd⟩ := hd
  rw [← hheap] at hvd
  rw [← hstack] at hv
  obtain ⟨e, he⟩ := Option.isSome_iff_exists.1 ((ho.matched.bound slot).2 hbound)
  have hstep : Machine.step m = .ok none { o with pending := o.pending.insert slot v } := by
    rw [hs]
    simp only [Machine.perform, Word.a_abx _ ht, Word.bx_abx _ (Nat.lt_succ_of_le hslot)]
    rw [Machine.bind_of_ok (ho.matched.checkAssignable_eq he),
      Machine.bind_of_ok (Machine.readReg_eq hv)]
    rfl
  refine .step hstep (hnext _ (ho.setGlobal hvd (Nat.le_refl n) fun i => ?_)
    (.of_eq hheap hstack))
  omega

/-! ## Returns -/

/-- A function that was called returns to its caller. -/
theorem simulates_ret (h : Here σ n A C sc i s m) (hcallers : A.callers ≠ [])
    (hdest : A.dest < A.base) (ht : t < 256) (hd : Reg σ n A m t d)
    (hw : C.At i (.abc .ret t 0 0)) {α : Type} {x : EStateM.Result Stop Store α}
    {Q : α → Store → Machine → Prop} {R' : Datum → Store → Machine → Prop}
    (hnext : ∀ o, Returned σ n A d s o → Simulates k o x Q R') : Simulates k m x Q R' := by
  refine h.step hw (Word.opcode?_abc _ _ _ _) fun g o hheap hstack hC ho hs => ?_
  obtain ⟨v, hv, hvd⟩ := hd
  rw [← hheap] at hvd
  rw [← hstack] at hv
  obtain ⟨caller, rest, hrest⟩ := List.exists_cons_of_ne_nil hcallers
  have hcell : A.dest < o.stack.size := by
    have hroom := ho.room
    omega
  have hwrite : Machine.writeReg A.dest 0 v { o with frames := caller :: rest } =
      .ok () (Machine.store { o with frames := caller :: rest } A.dest v) :=
    Machine.writeReg_eq hcell
  have hstep : Machine.step m =
      .ok none (Machine.store { o with frames := A.callers } A.dest v) := by
    rw [hs]
    simp only [Machine.perform, Word.a_abc _ ht]
    rw [Machine.bind_of_ok (Machine.readReg_eq hv), Machine.leaveFrame, ho.frames, hrest]
    simp only [Activation.frame, hwrite]
  refine .step hstep (hnext _ ⟨hcallers, rfl, ⟨v, Machine.store_self hcell, hvd⟩, ?_, ?_, ?_⟩)
  · rw [Machine.size_store]
    exact ho.size_le
  · intro cell hcell hne
    rw [Machine.store_ne (Ne.symm hne)]
    exact ho.below cell hcell
  · exact ⟨ho.matched.sink, ho.matched.primitives, ho.matched.globals, ho.matched.bound⟩

end ScriptMachine.Simulation
