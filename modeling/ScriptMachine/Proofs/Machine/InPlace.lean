import ScriptMachine.Proofs.Machine.Ledger
import ScriptMachine.Proofs.Machine.Commit
import ScriptMachine.Proofs.Machine.Regions

/-!
# Globals changed in place

A machine that changes the table of globals at each write, and needs no other place for them. It
does what the machine does that collects its writes, as long as that goes well, and its table is
always the one that storing the collected writes would make.
-/

namespace ScriptMachine.Machine

open Bytecode

/-! ## The machine -/

namespace InPlace

/-- The value that the table binds to a slot. -/
def globalValue (slot : Nat) : Action Value := fun m =>
  match m.globals.get slot with
  | .error e => .error (.link e) m
  | .ok v => if v.kind = .empty then .error (.unboundGlobal slot) m else .ok v m

theorem globalValue_ok_iff {m m' : Machine} {slot : Nat} {v : Value} :
    globalValue slot m = .ok v m' ↔ m' = m ∧ m.globals.slots[slot]? = some v ∧ v.kind ≠ .empty := by
  unfold globalValue GlobalTable.get
  cases m.globals.slots[slot]? with
  | some u => exact unlessEmpty_ok_iff
  | none => simp

/-- Stores a value in a slot of the table. -/
def setGlobal (slot : Nat) (v : Value) : Action Unit := fun m =>
  match m.globals.set slot v with
  | .ok table => .ok () { m with globals := table }
  | .error e => .error (.link e) m

/-- Grows the table to have the slot, and stores a value there. -/
def defGlobal (slot : Nat) (v : Value) : Action Unit := fun m =>
  setGlobal slot v { m with globals := m.globals.ensureLength (slot + 1) }

/-- Executes an instruction; a slot has to be bound before it can be assigned to. -/
def perform (f : Function) (base : Nat) (op : Opcode) (w : Word) : Action (Option Value) :=
  match op with
  | .getGlobal => do
    let v ← globalValue w.bx
    writeReg base w.a v
    return none
  | .setGlobal => do
    let _ ← globalValue w.bx
    let v ← readReg base w.a
    setGlobal w.bx v
    return none
  | .defGlobal => do
    let v ← readReg base w.a
    defGlobal w.bx v
    return none
  | op => Machine.perform f base op w

/-- Takes one step; the value is there once the first frame has returned. -/
def step : Action (Option Value) := fun m =>
  match m.frames with
  | [] => .ok (some .nil) m
  | frame :: _ =>
    match m.heap.function? frame.function with
    | none => .error (.functionNotFound frame.function) m
    | some f =>
      match f.code[frame.ip]? with
      | none => leaveFrame .nil m
      | some w =>
        match (do jumpTo (frame.ip + 1); spendFuel : Action Unit) m with
        | .error e m => .error e m
        | .ok () m =>
          match Word.opcode? w with
          | none => .error (.invalidOpcode (Word.op w)) m
          | some op => perform f frame.base op w m

/-- Takes up to `n` steps; no value means that the run goes on. -/
def run : (n : Nat) → Action (Option Value)
  | 0, m => .ok none m
  | n + 1, m =>
    match step m with
    | .error e m => .error e m
    | .ok (some v) m => .ok (some v) m
    | .ok none m => run n m

/-- Runs a function to its end. -/
def execute (handle : UInt32) (patience : Nat) : Action (Option Value) := do
  enter handle
  run (stepsFor (← get).fuel patience)

end InPlace

/-! ## Both machines in step -/

/-- The machine with the collected writes stored in its table. -/
def stored (m : Machine) : Machine :=
  m.withGlobals (m.globals.after m.pending) ∅

/-- A blind action does the same when the writes have been stored. -/
theorem Blind.stored {α : Type} {act : Action α} (h : Blind act) {m m' : Machine} {x : α}
    (hrun : act m = .ok x m') : act m.stored = .ok x m'.stored := by
  obtain ⟨hglobals, hpending⟩ := h.globals_eq hrun
  unfold Machine.stored
  rw [h, hrun, hglobals, hpending]
  rfl

/-- What the machine reads is what the table holds once the writes are stored. -/
theorem globalValue_stored {m m' : Machine} {slot : Nat} {v : Value}
    (h : globalValue slot m = .ok v m') :
    m' = m ∧ InPlace.globalValue slot m.stored = .ok v m.stored := by
  obtain ⟨rfl, hslot, hk⟩ := globalValue_ok_iff.1 h
  refine ⟨rfl, InPlace.globalValue_ok_iff.2 ⟨rfl, ?_, hk⟩⟩
  show (m'.globals.after m'.pending).slots[slot]? = some v
  rw [GlobalTable.getElem?_after]
  unfold global? at hslot
  cases hp : m'.pending[slot]? with
  | some u => rwa [hp] at hslot
  | none =>
    rw [hp, Option.none_or] at hslot
    rw [Option.none_or, GlobalTable.getElem?_ensureLength,
      if_pos (Array.getElem?_eq_some_iff.1 hslot).1, hslot]

/-- What may be assigned to is bound in the table once the writes are stored. -/
theorem checkAssignable_stored {m m' : Machine} {slot : Nat} (hm : m.Within .everything)
    (h : checkAssignable slot m = .ok () m') :
    m' = m ∧ slot < m.stored.globals.slots.size ∧
      ∃ v, InPlace.globalValue slot m.stored = .ok v m.stored := by
  have hvalue : ∃ v, globalValue slot m = .ok v m' := by
    unfold checkAssignable at h
    split_ifs at h with hcontains
    · cases h
      obtain ⟨v, hv⟩ := Option.isSome_iff_exists.1
        (Std.TreeMap.contains_eq_isSome_getElem?.symm.trans hcontains)
      refine ⟨v, globalValue_ok_iff.2 ⟨rfl, ?_, (hm.pending slot v hv).1⟩⟩
      rw [global?, hv, Option.some_or]
    · cases hv : globalValue slot m with
      | error e o =>
        rw [hv] at h
        cases h
      | ok v o =>
        rw [hv] at h
        cases h
        exact ⟨v, rfl⟩
  obtain ⟨v, hv⟩ := hvalue
  obtain ⟨rfl, hstored⟩ := globalValue_stored hv
  obtain ⟨-, hslot, -⟩ := InPlace.globalValue_ok_iff.1 hstored
  exact ⟨rfl, (Array.getElem?_eq_some_iff.1 hslot).1, v, hstored⟩

theorem defGlobal_stored (m : Machine) (slot : Nat) (v : Value) :
    InPlace.defGlobal slot v m.stored =
      .ok () (stored { m with pending := m.pending.insert slot v }) := by
  have hset : (m.stored.globals.ensureLength (slot + 1)).set slot v =
      .ok (m.globals.after (m.pending.insert slot v)) := m.globals.set_after m.pending slot v
  unfold InPlace.defGlobal InPlace.setGlobal
  simp only [hset]
  rfl

theorem setGlobal_stored {m : Machine} {slot : Nat} (hslot : slot < m.stored.globals.slots.size)
    (v : Value) :
    InPlace.setGlobal slot v m.stored =
      .ok () (stored { m with pending := m.pending.insert slot v }) := by
  have hset : m.stored.globals.set slot v = .ok (m.globals.after (m.pending.insert slot v)) := by
    rw [← m.globals.set_after m.pending slot v]
    exact congrArg (GlobalTable.set · slot v) (GlobalTable.ensureLength_of_le hslot).symm
  unfold InPlace.setGlobal
  simp only [hset]
  rfl

/-- An instruction that goes well does the same in place. -/
theorem perform_stored {f : Function} {base : Nat} {op : Opcode} {w : Word} {m m' : Machine}
    {r : Option Value} (hm : m.Within .everything) (h : perform f base op w m = .ok r m') :
    InPlace.perform f base op w m.stored = .ok r m'.stored := by
  by_cases hop : UsesGlobals op
  · cases op with
    | getGlobal =>
      obtain ⟨v, o, hv, hrest⟩ := ok_of_bind h
      obtain ⟨rfl, hstored⟩ := globalValue_stored hv
      have hblind : Blind (do writeReg base w.a v; return (none : Option Value)) :=
        (blind_writeReg base w.a v).bind fun _ => .pure _
      exact (bind_of_ok hstored).trans (hblind.stored hrest)
    | setGlobal =>
      obtain ⟨_, o, hcheck, hrest⟩ := ok_of_bind h
      obtain ⟨rfl, hslot, u, hstored⟩ := checkAssignable_stored hm hcheck
      obtain ⟨v, n, hv, hwrite⟩ := ok_of_bind hrest
      have hread := (blind_readReg base w.a).stored hv
      obtain ⟨rfl, -⟩ := readReg_ok_iff.1 hv
      cases hwrite
      refine (bind_of_ok hstored).trans ((bind_of_ok hread).trans ?_)
      exact bind_of_ok (setGlobal_stored hslot v)
    | defGlobal =>
      obtain ⟨v, n, hv, hrest⟩ := ok_of_bind h
      cases hrest
      exact (bind_of_ok ((blind_readReg base w.a).stored hv)).trans
        (bind_of_ok (defGlobal_stored n w.bx v))
    | _ => exact absurd hop id
  · have hsame : InPlace.perform f base op w = perform f base op w := by
      cases op <;> first | rfl | exact absurd trivial hop
    rw [hsame]
    exact (blind_perform hop f base w).stored h

/-- A step that goes well does the same in place. -/
theorem step_stored {m m' : Machine} {r : Option Value} (hm : m.Within .everything)
    (h : step m = .ok r m') : InPlace.step m.stored = .ok r m'.stored := by
  unfold InPlace.step
  cases m.step_cases with
  | noFrame hframes hstep =>
    have hframes' : m.stored.frames = [] := hframes
    rw [hstep] at h
    cases h
    simp only [hframes']
  | @atEnd frame rest f hframes hf hw hstep =>
    have hframes' : m.stored.frames = frame :: rest := hframes
    have hf' : m.stored.heap.function? frame.function = some f := hf
    rw [hstep] at h
    simp only [hframes', hf', hw]
    exact (blind_leaveFrame .nil).stored h
  | @performs frame rest f w op hframes hf hw hfuel hop hstep =>
    have hframes' : m.stored.frames = frame :: rest := hframes
    have hf' : m.stored.heap.function? frame.function = some f := hf
    have hcount : (do jumpTo (frame.ip + 1); spendFuel : Action Unit) m.stored =
        .ok () (m.past frame rest).stored := count_of_fuelled hframes' hfuel
    rw [hstep] at h
    simp only [hframes', hf', hw, hcount, hop]
    exact perform_stored (hm.past hframes) h
  | noFunction _ _ hstep | outOfFuel _ _ _ hstep | invalidOpcode _ _ _ _ hstep =>
    rw [hstep] at h
    cases h

/-- So does a run. -/
theorem run_stored {n : Nat} {m m' : Machine} {r : Option Value} (hm : m.Within .everything)
    (h : run n m = .ok r m') : InPlace.run n m.stored = .ok r m'.stored := by
  induction n generalizing m with
  | zero =>
    cases h
    rfl
  | succ n ih =>
    unfold run at h
    unfold InPlace.run
    cases hstep : step m with
    | error e o =>
      rw [hstep] at h
      cases h
    | ok s o =>
      rw [hstep] at h
      simp only [step_stored hm hstep]
      cases s with
      | some v =>
        cases h
        rfl
      | none => exact ih (guards_step.ok hm hstep).2 h

end ScriptMachine.Machine
