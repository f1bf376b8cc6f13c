import ScriptMachine.Machine.Step
import ScriptMachine.Proofs.Machine.Conduct

/-!
# What a step does

What a step does depends on what it finds: there may be no frame or no function, the running frame may
be at its end, and the fuel may be used up. Otherwise the machine moves past an instruction and performs
it. What is said of each step is then said of runs.
-/

namespace ScriptMachine

namespace Machine

open Bytecode

/-! ## Actions one after the other -/

/-- What follows an action that went well. -/
theorem bind_of_ok {α β : Type} {act : Action α} {next : α → Action β} {m o : Machine} {x : α}
    (h : act m = .ok x o) : (act >>= next) m = next x o := by
  show EStateM.bind act next m = _
  unfold EStateM.bind
  rw [h]

/-- Actions that went well did so one after the other. -/
theorem ok_of_bind {α β : Type} {act : Action α} {next : α → Action β} {m o : Machine} {y : β}
    (h : (act >>= next) m = .ok y o) : ∃ x n, act m = .ok x n ∧ next x n = .ok y o := by
  have h' : EStateM.bind act next m = .ok y o := h
  unfold EStateM.bind at h'
  cases hact : act m with
  | ok x n =>
    rw [hact] at h'
    exact ⟨x, n, rfl, h'⟩
  | error e n =>
    rw [hact] at h'
    cases h'

/-! ## Steps -/

/-- The machine when its running frame has moved past an instruction, which has been counted. -/
def past (m : Machine) (frame : Frame) (rest : List Frame) : Machine :=
  { m with frames := { frame with ip := frame.ip + 1 } :: rest, executed := m.executed + 1 }

/-- The fuel allows one more instruction. -/
def Fuelled (m : Machine) : Prop :=
  ∀ limit, m.fuel = some limit → m.executed < limit

variable {m : Machine} {frame : Frame} {rest : List Frame} {f : Function} {w : Word}

theorem fuelled_of_none (h : m.fuel = none) : m.Fuelled := by
  intro limit hlimit
  rw [h] at hlimit
  cases hlimit

theorem step_of_no_frame (h : m.frames = []) : step m = .ok (some .nil) m := by
  unfold step
  rw [h]

theorem step_of_no_function (h : m.frames = frame :: rest)
    (hf : m.heap.function? frame.function = none) :
    step m = .error (.functionNotFound frame.function) m := by
  unfold step
  simp only [h, hf]

theorem step_at_end (h : m.frames = frame :: rest)
    (hf : m.heap.function? frame.function = some f) (hw : f.code[frame.ip]? = none) :
    step m = leaveFrame .nil m := by
  unfold step
  simp only [h, hf, hw]

theorem count_eq (h : m.frames = frame :: rest) :
    (do jumpTo (frame.ip + 1); spendFuel : Action Unit) m =
      match m.fuel with
      | some limit =>
        if m.executed + 1 > limit then .error (.fuelExhausted limit) (m.past frame rest)
        else .ok () (m.past frame rest)
      | none => .ok () (m.past frame rest) := by
  show EStateM.bind (jumpTo (frame.ip + 1)) (fun _ => spendFuel) m = _
  have hjump : jumpTo (frame.ip + 1) m =
      .ok () { m with frames := { frame with ip := frame.ip + 1 } :: rest } := by
    unfold jumpTo
    rw [h]
  unfold EStateM.bind
  rw [hjump]
  rfl

theorem step_out_of_fuel (h : m.frames = frame :: rest)
    (hf : m.heap.function? frame.function = some f) (hw : f.code[frame.ip]? = some w) {limit : Nat}
    (hlimit : m.fuel = some limit) (hspent : limit ≤ m.executed) :
    step m = .error (.fuelExhausted limit) (m.past frame rest) := by
  unfold step
  simp only [h, hf, hw, count_eq h, hlimit]
  rw [if_pos (by omega)]

theorem count_of_fuelled (h : m.frames = frame :: rest) (hfuel : m.Fuelled) :
    (do jumpTo (frame.ip + 1); spendFuel : Action Unit) m = .ok () (m.past frame rest) := by
  rw [count_eq h]
  cases hlimit : m.fuel with
  | none => rfl
  | some limit =>
    have := hfuel limit hlimit
    simp only
    rw [if_neg (by omega)]

theorem step_performs (h : m.frames = frame :: rest)
    (hf : m.heap.function? frame.function = some f) (hw : f.code[frame.ip]? = some w)
    (hfuel : m.Fuelled) {op : Opcode} (hop : w.opcode? = some op) :
    step m = perform f frame.base op w (m.past frame rest) := by
  unfold step
  simp only [h, hf, hw, count_of_fuelled h hfuel, hop]

theorem step_of_invalid_opcode (h : m.frames = frame :: rest)
    (hf : m.heap.function? frame.function = some f) (hw : f.code[frame.ip]? = some w)
    (hfuel : m.Fuelled) (hop : w.opcode? = none) :
    step m = .error (.invalidOpcode w.op) (m.past frame rest) := by
  unfold step
  simp only [h, hf, hw, count_of_fuelled h hfuel, hop]

theorem fuelled_or_spent (m : Machine) :
    m.Fuelled ∨ ∃ limit, m.fuel = some limit ∧ limit ≤ m.executed := by
  cases hlimit : m.fuel with
  | none => exact .inl fun limit h => by simp [hlimit] at h
  | some limit =>
    by_cases hspent : limit ≤ m.executed
    · exact .inr ⟨limit, rfl, hspent⟩
    · refine .inl fun limit' h => ?_
      rw [hlimit] at h
      cases h
      omega

/-- What a step does, by what it finds. -/
inductive StepCase (m : Machine) : Prop
  | noFrame (hframes : m.frames = []) (hstep : step m = .ok (some .nil) m)
  | noFunction {frame : Frame} {rest : List Frame} (hframes : m.frames = frame :: rest)
      (hf : m.heap.function? frame.function = none)
      (hstep : step m = .error (.functionNotFound frame.function) m)
  | atEnd {frame : Frame} {rest : List Frame} {f : Function} (hframes : m.frames = frame :: rest)
      (hf : m.heap.function? frame.function = some f) (hw : f.code[frame.ip]? = none)
      (hstep : step m = leaveFrame .nil m)
  | outOfFuel {frame : Frame} {rest : List Frame} {f : Function} {w : Word} {limit : Nat}
      (hframes : m.frames = frame :: rest) (hf : m.heap.function? frame.function = some f)
      (hw : f.code[frame.ip]? = some w)
      (hstep : step m = .error (.fuelExhausted limit) (m.past frame rest))
  | invalidOpcode {frame : Frame} {rest : List Frame} {f : Function} {w : Word}
      (hframes : m.frames = frame :: rest) (hf : m.heap.function? frame.function = some f)
      (hw : f.code[frame.ip]? = some w) (hop : w.opcode? = none)
      (hstep : step m = .error (.invalidOpcode w.op) (m.past frame rest))
  | performs {frame : Frame} {rest : List Frame} {f : Function} {w : Word} {op : Opcode}
      (hframes : m.frames = frame :: rest) (hf : m.heap.function? frame.function = some f)
      (hw : f.code[frame.ip]? = some w) (hfuel : m.Fuelled) (hop : w.opcode? = some op)
      (hstep : step m = perform f frame.base op w (m.past frame rest))

theorem step_cases (m : Machine) : m.StepCase := by
  cases hframes : m.frames with
  | nil => exact .noFrame hframes (step_of_no_frame hframes)
  | cons frame rest =>
    cases hf : m.heap.function? frame.function with
    | none => exact .noFunction hframes hf (step_of_no_function hframes hf)
    | some f =>
      cases hw : f.code[frame.ip]? with
      | none => exact .atEnd hframes hf hw (step_at_end hframes hf hw)
      | some w =>
        rcases m.fuelled_or_spent with hfuel | ⟨limit, hlimit, hspent⟩
        · cases hop : Word.opcode? w with
          | none =>
            have hstep := step_of_invalid_opcode hframes hf hw hfuel hop
            exact .invalidOpcode hframes hf hw hop hstep
          | some op => exact .performs hframes hf hw hfuel hop (step_performs hframes hf hw hfuel hop)
        · exact .outOfFuel hframes hf hw (step_out_of_fuel hframes hf hw hlimit hspent)

/-! ## Registers and globals -/

/-- A register is read where the stack has its cell, which changes nothing. -/
theorem readReg_ok_iff {base reg : Nat} {m m' : Machine} {v : Value} :
    readReg base reg m = .ok v m' ↔ m' = m ∧ m.stack[base + reg]? = some v := by
  unfold readReg
  cases m.stack[base + reg]? with
  | none => simp
  | some u => simp [eq_comm, and_comm]

theorem readReg_eq {base reg : Nat} {v : Value} {m : Machine} (h : m.stack[base + reg]? = some v) :
    readReg base reg m = .ok v m :=
  readReg_ok_iff.2 ⟨rfl, h⟩

/-- The machine with a value in a stack cell. -/
def store (m : Machine) (cell : Nat) (v : Value) : Machine :=
  { m with stack := m.stack.setIfInBounds cell v }

theorem writeReg_eq {base reg : Nat} {v : Value} {m : Machine} (h : base + reg < m.stack.size) :
    writeReg base reg v m = .ok () (m.store (base + reg) v) := by
  rw [writeReg, dif_pos h, store, Array.setIfInBounds, dif_pos h]

theorem store_self {m : Machine} {cell : Nat} {v : Value} (h : cell < m.stack.size) :
    (m.store cell v).stack[cell]? = some v :=
  Array.getElem?_setIfInBounds_self_of_lt h

theorem store_ne {m : Machine} {cell cell' : Nat} {v : Value} (h : cell ≠ cell') :
    (m.store cell v).stack[cell']? = m.stack[cell']? :=
  Array.getElem?_setIfInBounds_ne h

@[simp] theorem size_store (m : Machine) (cell : Nat) (v : Value) :
    (m.store cell v).stack.size = m.stack.size :=
  Array.size_setIfInBounds

/-- What a global slot holds: the run's own last write, else what the table has. -/
def global? (m : Machine) (slot : Nat) : Option Value :=
  (m.pending[slot]?).or m.globals.slots[slot]?

theorem unlessEmpty_ok_iff {m m' : Machine} {slot : Nat} {u v : Value} :
    (if u.kind = .empty then .error (.unboundGlobal slot) m else .ok u m :
      EStateM.Result Fault Machine Value) = .ok v m' ↔
    m' = m ∧ some u = some v ∧ v.kind ≠ .empty := by
  constructor
  · intro h
    split_ifs at h with hk
    cases h
    exact ⟨rfl, rfl, hk⟩
  · rintro ⟨rfl, ⟨⟩, hk⟩
    exact if_neg hk

/-- A global is read where its slot holds a value that is not empty, which changes nothing. -/
theorem globalValue_ok_iff {m m' : Machine} {slot : Nat} {v : Value} :
    globalValue slot m = .ok v m' ↔ m' = m ∧ m.global? slot = some v ∧ v.kind ≠ .empty := by
  unfold globalValue global?
  cases m.pending[slot]? with
  | some u => exact unlessEmpty_ok_iff
  | none =>
    unfold GlobalTable.get
    rw [Option.none_or]
    cases m.globals.slots[slot]? with
    | some u => exact unlessEmpty_ok_iff
    | none => simp

end Machine

/-- What every step keeps is kept by a run of any length. -/
theorem Runs.run {I : Machine → Prop} {E : Fault → Machine → Prop}
    (h : Runs I Machine.step (fun _ => I) E) (n : Nat) : Runs I (Machine.run n) (fun _ => I) E := by
  induction n with
  | zero => exact fun m hm => hm
  | succ n ih =>
    intro m hm
    have hstep := h m hm
    unfold Machine.run
    cases hs : Machine.step m with
    | error e m' =>
      rw [hs] at hstep
      exact hstep
    | ok r m' =>
      rw [hs] at hstep
      cases r with
      | some v => exact hstep
      | none => exact ih m' hstep

end ScriptMachine
