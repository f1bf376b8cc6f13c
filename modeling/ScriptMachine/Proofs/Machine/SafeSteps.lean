import ScriptMachine.Proofs.Machine.Safety
import ScriptMachine.Proofs.Machine.Operators
import ScriptMachine.Proofs.Machine.Stepping

/-!
# Steps of safe machines

Each part of a step, from reading a register to a call, leaves a safe machine safe. So does a step,
whichever instruction it executes, and so does a run of any length.
-/

namespace ScriptMachine.Machine

open Bytecode Link

variable {f : Function} {base primitives : Nat}

/-! ## Registers -/

theorem runs_readReg {P : Machine → Prop} (hP : ∀ m, P m → Running f base m) {reg : Nat}
    (hreg : reg < f.slots) :
    Runs P (readReg base reg) (fun v m => P m ∧ v.Live m.heap m.primitives.count)
      FailsSafely := by
  intro m hm
  have hlt : base + reg < m.stack.size := by
    have := (hP m hm).room
    omega
  simp only [readReg, Array.getElem?_eq_getElem hlt]
  exact ⟨hm, (hP m hm).safe.registers _ (Array.getElem_mem hlt)⟩

theorem runs_writeReg {reg : Nat} {v : Value} (hreg : reg < f.slots) :
    Runs (fun m => Running f base m ∧ v.Live m.heap m.primitives.count) (writeReg base reg v)
      (fun _ => Running f base) FailsSafely := by
  rintro m ⟨hm, hv⟩
  have hlt : base + reg < m.stack.size := by
    have := hm.room
    omega
  simp only [writeReg, dif_pos hlt]
  exact ⟨hm.safe.setStack hlt hv, hm.order, by simpa using hm.room, hm.top⟩

theorem runs_jumpTo {ip : Nat} (hip : ip ≤ f.code.size) :
    Runs (Running f base) (jumpTo ip) (fun _ => Running f base) FailsSafely := by
  intro m hm
  obtain ⟨frame, rest, hframes, hbase, hf⟩ := hm.top
  simp only [jumpTo, hframes]
  exact ⟨hm.safe.moveFrame hframes hf hip, hm.order, hm.room, { frame with ip }, rest, rfl, hbase,
    hf⟩

theorem runs_fail {α : Type} {P : Machine → Prop} {Q : α → Machine → Prop} {e : Fault}
    (hP : ∀ m, P m → m.Safe) (he : ¬ e.Internal) : Runs P (throw e) Q FailsSafely :=
  .throw e fun m hm => ⟨hP m hm, he⟩

theorem runs_liftFault {α : Type} {P : Machine → Prop} {r : Except Fault α}
    (hP : ∀ m, P m → m.Safe) (hr : ∀ e, r = .error e → ¬ e.Internal) :
    Runs P (liftFault r) (fun x m => P m ∧ r = .ok x) FailsSafely := by
  intro m hm
  unfold liftFault
  cases r with
  | ok x => exact ⟨hm, rfl⟩
  | error e => exact ⟨hP m hm, hr e rfl⟩

/-! ## Operators -/

theorem runs_allocString (s : String) :
    Runs (Running f base) (allocString s)
      (fun v m => Running f base m ∧ v.Live m.heap m.primitives.count) FailsSafely := by
  intro m hm
  have hadd := Heap.addsStrings_allocString m.heap s
  refine ⟨⟨hm.safe.addStrings hadd, hm.order.grows hadd.grows, hm.room, ?_⟩,
    Heap.live_allocString _ _ s⟩
  obtain ⟨frame, rest, hframes, hbase, hf⟩ := hm.top
  exact ⟨frame, rest, hframes, hbase, hadd.grows.function? hf⟩

/-- A running machine whose registers gave the live values `v` and `w`. -/
def Operands (f : Function) (base : Nat) (v w : Value) (m : Machine) : Prop :=
  (Running f base m ∧ v.Live m.heap m.primitives.count) ∧ w.Live m.heap m.primitives.count

variable {v w : Value} {op : Opcode}

theorem runs_addValues :
    Runs (Operands f base v w) (addValues v w)
      (fun r m => Running f base m ∧ r.Live m.heap m.primitives.count) FailsSafely := by
  intro m hm
  unfold addValues
  split_ifs with hs
  · obtain ⟨s, t, -, -, hst⟩ := stringOperands_live hm.1.2 hm.2 hs
    simp only [hst]
    exact runs_allocString (s ++ t) m hm.1.1
  · exact (runs_liftFault (fun _ hm => hm.1.1.safe)
      (fun _ he => arithmetic_error (show Arithmetic .add from trivial) he)).weaken
        (fun _ hm => hm) (fun _ _ hm => ⟨hm.1.1.1, arithmetic_live hm.2⟩) m hm

theorem runs_arithmetic (hop : Arithmetic op) :
    Runs (Operands f base v w)
      (liftFault ((intOperands op v w).bind fun (x, y) => intResult op x y))
      (fun r m => Running f base m ∧ r.Live m.heap m.primitives.count) FailsSafely :=
  (runs_liftFault (fun _ hm => hm.1.1.safe) (fun _ he => arithmetic_error hop he)).weaken
    (fun _ hm => hm) (fun _ _ hm => ⟨hm.1.1.1, arithmetic_live hm.2⟩)

theorem runs_order :
    Runs (Operands f base v w)
      (fun m => liftFault ((order m.heap op v w).map fun o => Value.bool (holds op o)) m)
      (fun r m => Running f base m ∧ r.Live m.heap m.primitives.count) FailsSafely := by
  intro m hm
  cases ho : order m.heap op v w with
  | ok o =>
    simp only [ho]
    exact ⟨hm.1.1, .bool _⟩
  | error e =>
    simp only [ho]
    exact ⟨hm.1.1.safe, order_error hm.1.2 hm.2 ho⟩

/-- The operators between two registers. -/
def Binary : Opcode → Prop
  | .add | .sub | .mul | .div | .mod | .eq | .notEq | .lt | .le | .gt | .ge => True
  | _ => False

theorem runs_binaryResult (hop : Binary op) :
    Runs (Operands f base v w) (binaryResult op v w)
      (fun r m => Running f base m ∧ r.Live m.heap m.primitives.count) FailsSafely := by
  cases op with
  | add => exact runs_addValues
  | sub | mul | div | mod => exact runs_arithmetic trivial
  | eq | notEq => exact fun m hm => ⟨hm.1.1, .bool _⟩
  | lt | le | gt | ge => exact runs_order
  | _ => exact absurd hop id

theorem runs_unaryResult (hop : op = .neg ∨ op = .logNot) :
    Runs (Running f base) (liftFault (unaryResult op v))
      (fun r m => Running f base m ∧ r.Live m.heap m.primitives.count) FailsSafely :=
  (runs_liftFault (fun _ hm => hm.safe) (fun _ he => unaryResult_error hop he)).weaken
    (fun _ hm => hm) (fun _ _ hm => ⟨hm.1, unaryResult_live hm.2⟩)

/-! ## Globals -/

theorem runs_globalValue (slot : Nat) :
    Runs (Running f base) (globalValue slot)
      (fun v m => Running f base m ∧ v.Live m.heap m.primitives.count) FailsSafely := by
  intro m hm
  unfold globalValue
  cases hp : m.pending[slot]? with
  | some v =>
    have hv := hm.safe.pending slot v hp
    simp only [if_neg hv.kind_ne_empty]
    exact ⟨hm, hv⟩
  | none =>
    cases hg : m.globals.slots[slot]? with
    | none =>
      simp only [GlobalTable.get, hg]
      exact ⟨hm.safe, fun h => h⟩
    | some v =>
      simp only [GlobalTable.get, hg]
      by_cases hk : v.kind = .empty
      · simp only [if_pos hk]
        exact ⟨hm.safe, fun h => h⟩
      · simp only [if_neg hk]
        exact ⟨hm, hm.safe.globals v (Array.mem_of_getElem? hg) hk⟩

theorem runs_checkAssignable (slot : Nat) :
    Runs (Running f base) (checkAssignable slot) (fun _ => Running f base) FailsSafely := by
  intro m hm
  unfold checkAssignable
  split_ifs
  · exact hm
  · have := runs_globalValue slot m hm
    cases hv : globalValue slot m with
    | ok v m' =>
      rw [hv] at this
      exact this.1
    | error e m' =>
      rw [hv] at this
      exact this

theorem runs_writeGlobal (slot : Nat) :
    Runs (fun m => Running f base m ∧ v.Live m.heap m.primitives.count) (writeGlobal slot v)
      (fun _ => Running f base) FailsSafely :=
  fun _ hm => ⟨hm.1.safe.addPending hm.2, hm.1.order, hm.1.room, hm.1.top⟩

theorem runs_primitive {P : Machine → Prop} {index : Nat} (hP : ∀ m, P m → m.Safe)
    (hindex : ∀ m, P m → index < m.primitives.count) :
    Runs P (primitive index) (fun p m => P m ∧ p.Sound ∧ index < m.primitives.count)
      FailsSafely := by
  intro m hm
  have hlt := hindex m hm
  have hlookup : m.primitives.lookup index = .ok m.primitives.entries[index] := by
    unfold Registry.lookup
    rw [Array.getElem?_eq_getElem hlt]
  simp only [primitive, hlookup]
  exact ⟨hm, (hP m hm).primitives _ (Array.getElem_mem hlt), hlt⟩

/-! ## Calls -/

theorem runs_checkArguments {b c : Nat} (h : b + c < f.slots) {P : Machine → Prop}
    (hP : ∀ m, P m → Running f base m) :
    Runs P (checkArguments (base + b + 1) c) (fun _ => P) FailsSafely := by
  intro m hm
  have hroom := (hP m hm).room
  unfold checkArguments
  rw [if_neg (by omega)]
  exact hm

theorem runs_runNative {p : Primitive} (hp : p.Sound) {args : List Value} :
    Runs (fun m => Running f base m ∧ ∀ v ∈ args, v.Live m.heap m.primitives.count)
      (runNative p.run args)
      (fun v m => Running f base m ∧ v.Live m.heap m.primitives.count) FailsSafely := by
  rintro m ⟨hm, hargs⟩
  have h := hp args ⟨m.heap, m.sink, m.frames.length, m.primitives.count, m.primitives.name?⟩ hargs
  obtain ⟨frame, rest, hframes, hbase, hf⟩ := hm.top
  simp only [runNative]
  cases hr : p.run args
      ⟨m.heap, m.sink, m.frames.length, m.primitives.count, m.primitives.name?⟩ with
  | ok v host =>
    rw [hr] at h
    exact ⟨⟨hm.safe.addStrings h.1, hm.order.grows h.1.grows, hm.room, frame, rest, hframes, hbase,
      h.1.grows.function? hf⟩, h.2⟩
  | error e host =>
    rw [hr] at h
    exact ⟨hm.safe.addStrings h.1, h.2⟩

/-- The result of a call goes to a register of the caller, known by its cell. -/
theorem runs_writeCell {a : Nat} (ha : a < f.slots) :
    Runs (fun m => Running f base m ∧ v.Live m.heap m.primitives.count) (writeReg (base + a) 0 v)
      (fun _ => Safe) FailsSafely := by
  rintro m ⟨hm, hv⟩
  have hlt : base + a < m.stack.size := by
    have := hm.room
    omega
  simp only [writeReg, Nat.add_zero, dif_pos hlt]
  exact hm.safe.setStack hlt hv

theorem runs_callPrimitive {index start count a : Nat} (ha : a < f.slots) {P : Machine → Prop}
    (hP : ∀ m, P m → Running f base m) (hindex : ∀ m, P m → index < m.primitives.count) :
    Runs P (callPrimitive index start count (base + a)) (fun _ => Safe) FailsSafely := by
  refine (runs_primitive (fun m hm => (hP m hm).safe) hindex).bind fun p => ?_
  have hrest : Runs (fun m => Running f base m ∧ p.Sound) (do
      let m ← get
      let result ← runNative p.run (m.stack.extract start (start + count)).toList
      writeReg (base + a) 0 result) (fun _ => Safe) FailsSafely := by
    refine Runs.get.bind fun m₀ => ?_
    refine Runs.bind (Q := fun v m => Running f base m ∧ v.Live m.heap m.primitives.count) ?_
      fun r => ?_
    · rintro m ⟨⟨hm, hp⟩, rfl⟩
      refine runs_runNative hp m₀ ⟨hm, fun v hv => hm.safe.registers v ?_⟩
      rw [Array.mem_toList_iff] at hv
      obtain ⟨k, hk, rfl⟩ := Array.mem_extract_iff_getElem.1 hv
      exact Array.getElem_mem _
    · exact runs_writeCell ha
  split_ifs
  · exact runs_fail (fun m hm => (hP m hm.1).safe) (fun h => h)
  · exact hrest.weaken (fun m hm => ⟨hP m hm.1, hm.2.1⟩) fun _ _ hm => hm

theorem runs_function {P : Machine → Prop} {handle : UInt32}
    (hhandle : ∀ m, P m → handle.toNat < m.heap.functions.size) :
    Runs P (function handle) (fun g m => P m ∧ m.heap.function? handle = some g)
      FailsSafely := by
  intro m hm
  obtain ⟨g, hg⟩ := Heap.function?_of_lt (hhandle m hm)
  have hact : function handle m = .ok g m := by
    unfold function
    rw [hg]
  rw [hact]
  exact ⟨hm, hg⟩

theorem runs_ensureRegs {P : Machine → Prop} {start slots : Nat} (hP : ∀ m, P m → m.Safe)
    (hgrow : ∀ (m : Machine) (n : Nat), P m → m.stack.size + n ≤ stackLimit →
      P { m with stack := m.stack ++ Array.replicate n Value.nil }) :
    Runs P (ensureRegs start slots) (fun _ m => P m ∧ start + slots ≤ m.stack.size)
      FailsSafely := by
  intro m hm
  dsimp only [ensureRegs]
  split_ifs
  · exact ⟨hP m hm, fun h => h⟩
  · exact ⟨hm, by omega⟩
  · refine ⟨hgrow m _ hm (by omega), ?_⟩
    simp only [Array.size_append, Array.size_replicate]
    omega

theorem Running.growStack {m : Machine} (h : Running f base m) {n : Nat}
    (hn : m.stack.size + n ≤ stackLimit) :
    Running f base { m with stack := m.stack ++ Array.replicate n Value.nil } :=
  ⟨h.safe.growStack hn, h.order, h.room.trans (by simp), h.top⟩

theorem runs_callFunction {handle : UInt32} {start c a : Nat} (ha : a < f.slots)
    {P : Machine → Prop} (hP : ∀ m, P m → Running f base m)
    (hhandle : ∀ m, P m → handle.toNat < m.heap.functions.size) :
    Runs P (callFunction handle start c (base + a)) (fun _ => Safe) FailsSafely := by
  refine (runs_function hhandle).bind fun g => ?_
  split_ifs
  · exact runs_fail (fun m hm => (hP m hm.1).safe) (fun h => h)
  refine Runs.get.bind fun m₀ => ?_
  split_ifs with hlen
  · exact runs_fail (fun m hm => (hP m hm.1.1).safe) (fun h => h)
  have hrest : Runs (fun m => (Running f base m ∧ m.heap.function? handle = some g) ∧
      m.frames.length < frameLimit)
      (do ensureRegs start g.slots; pushFrame ⟨handle, 0, start, base + a⟩) (fun _ => Safe)
      FailsSafely := by
    refine (runs_ensureRegs (fun m hm => hm.1.1.safe)
      fun m n hm hn => ⟨⟨hm.1.1.growStack hn, hm.1.2⟩, hm.2⟩).bind fun _ => ?_
    rintro m ⟨⟨⟨hm, hg⟩, hlen⟩, hroom⟩
    have hdest : base + a < m.stack.size := by
      have := hm.room
      omega
    obtain ⟨frame, rest, hframes, -, -⟩ := hm.top
    exact hm.safe.pushFrame (by simp [hframes]) hlen ⟨g, hg, Nat.zero_le _, hroom⟩ hdest
  refine hrest.weaken ?_ fun _ _ hm => hm
  rintro m ⟨⟨hm, hg⟩, rfl⟩
  exact ⟨⟨hP m₀ hm, hg⟩, by omega⟩

theorem runs_call {a b c : Nat} (ha : a < f.slots) (hb : b < f.slots) (hbc : b + c < f.slots) :
    Runs (Running f base) (call base a b c) (fun _ => Safe) FailsSafely := by
  refine (runs_readReg (fun _ hm => hm) hb).bind fun callee => ?_
  refine (runs_checkArguments hbc (fun _ hm => hm.1)).bind fun _ => ?_
  split
  · next hk => exact runs_callPrimitive ha (fun _ hm => hm.1) fun _ hm => hm.2.primitive_lt hk
  · next hk => exact runs_callFunction ha (fun _ hm => hm.1) fun _ hm => hm.2.function_lt hk
  · exact runs_fail (fun _ hm => hm.1.safe) (fun h => h)

/-! ## Returns -/

theorem runs_leaveFrame {P : Machine → Prop} {v : Value} (hP : ∀ m, P m → m.Safe)
    (hv : ∀ m, P m → v.Live m.heap m.primitives.count) :
    Runs P (leaveFrame v) (fun _ => Safe) FailsSafely := by
  intro m hm
  have hsafe := hP m hm
  unfold leaveFrame
  cases hframes : m.frames with
  | nil => exact hsafe
  | cons frame rest =>
    have hpop := hsafe.popFrame hframes
    cases rest with
    | nil => exact hpop
    | cons g rest =>
      have hdest : frame.dest < m.stack.size := hsafe.dests frame (by simp [hframes])
      simp only [writeReg, Nat.add_zero, dif_pos hdest]
      exact hpop.setStack hdest (hv m hm)

/-! ## Steps -/

theorem mem_registers_a {op : Opcode} {w : Word} (h : op.shape ≠ .Bx) : w.a ∈ registersOf op w := by
  unfold registersOf
  cases hs : op.shape <;> simp_all

theorem mem_registers_b {op : Opcode} {w : Word} (h : op.shape = .AB ∨ op.shape = .ABC) :
    w.b ∈ registersOf op w := by
  rcases h with h | h <;> simp [registersOf, h]

theorem mem_registers_c {op : Opcode} {w : Word} (h : op.shape = .ABC) :
    w.c ∈ registersOf op w := by
  simp [registersOf, h]

/-- Executing an instruction whose operands are in range keeps a machine safe. -/
theorem runs_perform {w : Word} :
    Runs (fun m => Running f base m ∧
        w.InRange f.slots f.constants.size f.code.size m.primitives.count op)
      (perform f base op w) (fun _ => Safe) FailsSafely := by
  rintro m ⟨hm, hw⟩
  have ha : op.shape ≠ .Bx → w.a < f.slots := fun h => hw.registers _ (mem_registers_a h)
  have hb : op.shape = .AB ∨ op.shape = .ABC → w.b < f.slots :=
    fun h => hw.registers _ (mem_registers_b h)
  have hc : op.shape = .ABC → w.c < f.slots := fun h => hw.registers _ (mem_registers_c h)
  suffices h : Runs (fun m' => Running f base m' ∧ m'.primitives.count = m.primitives.count)
      (perform f base op w) (fun _ => Safe) FailsSafely from h m ⟨hm, rfl⟩
  have hrun : ∀ m', Running f base m' ∧ m'.primitives.count = m.primitives.count →
      Running f base m' := fun _ h => h.1
  -- the tail of most instructions: a live value goes to register `a`
  have hwrite : op.shape ≠ .Bx → ∀ v : Value,
      Runs (fun m => Running f base m ∧ v.Live m.heap m.primitives.count)
        (do writeReg base w.a v; return none) (fun (_ : Option Value) => Safe) FailsSafely :=
    fun hop v => (runs_writeReg (ha hop)).bind fun _ => .pure _ fun _ h => h.safe
  cases op with
  | loadConst =>
    have hlt := hw.constant rfl
    simp only [perform, Array.getElem?_eq_getElem hlt]
    refine (hwrite (by decide) _).weaken (fun m' h => ⟨h.1, ?_⟩) fun _ _ h => h
    exact h.1.order.constants _ (Array.getElem_mem hlt)
  | loadTrue | loadFalse =>
    exact (hwrite (by decide) _).weaken (fun m' h => ⟨h.1, .bool _⟩) fun _ _ h => h
  | loadNil => exact (hwrite (by decide) _).weaken (fun m' h => ⟨h.1, .nil⟩) fun _ _ h => h
  | move =>
    refine (runs_readReg hrun (hb (.inl rfl))).bind fun v => ?_
    exact (hwrite (by decide) v).weaken (fun m' h => ⟨h.1.1, h.2⟩) fun _ _ h => h
  | neg | logNot =>
    refine (runs_readReg hrun (hb (.inl rfl))).bind fun v => ?_
    refine ((runs_unaryResult (by simp)).weaken (fun m' h => h.1.1) fun _ _ h => h).bind
      fun r => ?_
    exact hwrite (by decide) r
  | add | sub | mul | div | mod | eq | notEq | lt | le | gt | ge =>
    refine (runs_readReg hrun (hb (.inr rfl))).bind fun v => ?_
    refine (runs_readReg (fun m' h => h.1.1) (hc rfl)).bind fun u => ?_
    refine ((runs_binaryResult (by trivial)).weaken (fun m' h => ⟨⟨h.1.1.1, h.1.2⟩, h.2⟩)
      fun _ _ h => h).bind fun r => ?_
    exact hwrite (by decide) r
  | jump =>
    refine ((runs_jumpTo (hw.target (by simp))).weaken hrun fun _ _ h => h).bind fun _ => ?_
    exact .pure _ fun _ h => h.safe
  | jumpIfFalse | jumpIfTrue =>
    refine (runs_readReg hrun (ha (by decide))).bind fun v => ?_
    split_ifs
    · refine ((runs_jumpTo (hw.target (by simp))).weaken (fun m' h => h.1.1)
        fun _ _ h => h).bind fun _ => ?_
      exact .pure _ fun _ h => h.safe
    · exact .pure _ fun _ h => h.1.1.safe
  | getGlobal =>
    refine ((runs_globalValue _).weaken hrun fun _ _ h => h).bind fun v => ?_
    exact hwrite (by decide) v
  | setGlobal =>
    refine ((runs_checkAssignable _).weaken hrun fun _ _ h => h).bind fun _ => ?_
    refine (runs_readReg (fun _ h => h) (ha (by decide))).bind fun v => ?_
    refine (runs_writeGlobal _).bind fun _ => ?_
    exact .pure _ fun _ h => h.safe
  | defGlobal =>
    refine (runs_readReg hrun (ha (by decide))).bind fun v => ?_
    refine ((runs_writeGlobal _).weaken (fun m' h => ⟨h.1.1, h.2⟩) fun _ _ h => h).bind fun _ => ?_
    exact .pure _ fun _ h => h.safe
  | getPrim =>
    have hindex := hw.primitive rfl
    refine (runs_primitive (fun m' h => h.1.safe) fun m' h => h.2 ▸ hindex).bind fun p => ?_
    refine (hwrite (by decide) _).weaken (fun m' h => ⟨h.1.1, .primitive _ ?_⟩) fun _ _ h => h
    rw [UInt32.toNat_ofNat']
    exact lt_of_le_of_lt (Nat.mod_le _ _) h.2.2
  | call =>
    refine ((runs_call (ha (by decide)) (hb (.inl rfl)) (hw.window rfl)).weaken hrun
      fun _ _ h => h).bind fun _ => ?_
    exact .pure _ fun _ h => h
  | ret =>
    refine (runs_readReg hrun (ha (by decide))).bind fun v => ?_
    exact runs_leaveFrame (fun m' h => h.1.1.safe) fun m' h => h.2

theorem Safe.past {m : Machine} (h : m.Safe) {frame : Frame} {rest : List Frame}
    (hframes : m.frames = frame :: rest) (hf : m.heap.function? frame.function = some f)
    (hip : frame.ip < f.code.size) : (m.past frame rest).Safe :=
  (h.moveFrame hframes hf hip).count _

/-- A step of a safe machine leaves it safe, and a fault in it is one that the program brings
about. -/
theorem runs_step : Runs Safe step (fun _ => Safe) FailsSafely := by
  intro m hm
  cases hframes : m.frames with
  | nil =>
    rw [step_of_no_frame hframes]
    exact hm
  | cons frame rest =>
    obtain ⟨f, hf, hip, hroom⟩ := hm.frames frame (by simp [hframes])
    have horder := hm.heap frame.function.toNat f hf
    cases hcode : f.code[frame.ip]? with
    | none =>
      rw [step_at_end hframes hf hcode]
      exact runs_leaveFrame (fun _ h => h) (fun _ _ => .nil) m hm
    | some w =>
      obtain ⟨op, hop, hw⟩ := horder.code frame.ip w hcode
      have hsafe := hm.past hframes hf (Array.getElem?_eq_some_iff.1 hcode).1
      rcases m.fuelled_or_spent with hfuel | ⟨limit, hlimit, hspent⟩
      · rw [step_performs hframes hf hcode hfuel hop]
        exact runs_perform _ ⟨⟨hsafe, horder, hroom, _, rest, rfl, rfl, hf⟩, hw⟩
      · rw [step_out_of_fuel hframes hf hcode hlimit hspent]
        exact ⟨hsafe, fun h => h⟩

/-! ## Runs -/

/-- However many steps a run takes, and however it ends, a safe machine stays safe. -/
theorem runs_run (n : Nat) : Runs Safe (run n) (fun _ => Safe) FailsSafely :=
  runs_step.run n

end ScriptMachine.Machine
