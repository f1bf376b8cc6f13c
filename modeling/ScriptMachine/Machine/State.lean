import ScriptMachine.Machine.Display
import ScriptMachine.Machine.Globals

/-!
# The register machine

All frames share one stack of registers. A frame sees it from its base on: arguments first, then its
other registers. A callee's base lies inside the caller's registers, at the first argument of the
call, so nothing is copied.
-/

namespace ScriptMachine

/-- One activation of a function. Its result goes to the stack cell `dest`. -/
structure Frame where
  function : UInt32
  ip : Nat
  base : Nat
  dest : Nat
deriving DecidableEq

/-- A machine; `frames` lists the running frame first. Writes to globals are collected in `pending`,
and `fuel` is the number of instructions that may be executed, if it is limited. -/
structure Machine where
  heap : Heap
  globals : GlobalTable
  primitives : Registry
  pending : Writes
  stack : Array Value
  frames : List Frame
  sink : Sink
  fuel : Option Nat
  executed : Nat

/-- A step of a machine, which also has a state after a fault. -/
abbrev Action (α : Type) := EStateM Fault Machine α

/-- The most registers that can be in use. -/
def stackLimit : Nat :=
  65536

/-- The most frames that can be active. -/
def frameLimit : Nat :=
  512

namespace Machine

/-- A machine that has not run yet. -/
def new (heap : Heap) (globals : GlobalTable) (primitives : Registry) (sink : Sink)
    (fuel : Option Nat) : Machine :=
  ⟨heap, globals, primitives, ∅, #[], [], sink, fuel, 0⟩

/-- What is needed to show values of this machine. -/
def legend (m : Machine) : Legend :=
  ⟨m.heap, m.primitives.name?⟩

/-- Whether two values are equal: strings by content, all else by kind and payload. -/
def sameValue (heap : Heap) (v w : Value) : Bool :=
  v == w ||
    match heap.content? v, heap.content? w with
    | some s, some t => s == t
    | _, _ => false

/-! ## Registers -/

/-- The register `reg` of the frame at `base`. -/
def readReg (base reg : Nat) : Action Value := fun m =>
  match m.stack[base + reg]? with
  | some v => .ok v m
  | none => .error (.registerOutOfFrame reg) m

/-- Writes the register `reg` of the frame at `base`. -/
def writeReg (base reg : Nat) (v : Value) : Action Unit := fun m =>
  if h : base + reg < m.stack.size then
    .ok () { m with stack := m.stack.set (base + reg) v h }
  else .error (.registerOutOfFrame reg) m

/-- Makes sure that the frame at `base` has `slots` registers; new ones hold nil. -/
def ensureRegs (base slots : Nat) : Action Unit := fun m =>
  if base + slots > stackLimit then .error .stackOverflow m
  else
    let missing := base + slots - m.stack.size
    if missing = 0 then .ok () m
    else .ok () { m with stack := m.stack ++ Array.replicate missing Value.nil }

/-! ## Frames -/

/-- The function with this handle. -/
def function (handle : UInt32) : Action Function := fun m =>
  match m.heap.function? handle with
  | some f => .ok f m
  | none => .error (.functionNotFound handle) m

/-- Moves the running frame to another instruction. -/
def jumpTo (ip : Nat) : Action Unit := fun m =>
  match m.frames with
  | [] => .ok () m
  | frame :: rest => .ok () { m with frames := { frame with ip } :: rest }

/-- Adds a frame, which runs next. -/
def pushFrame (frame : Frame) : Action Unit := fun m =>
  .ok () { m with frames := frame :: m.frames }

/-- Ends the running frame. Hands the value back when that was the last one, and stores it for the
caller otherwise. -/
def leaveFrame (v : Value) : Action (Option Value) := fun m =>
  match m.frames with
  | [] => .ok (some v) m
  | [_] => .ok (some v) { m with frames := [] }
  | frame :: rest =>
    match writeReg frame.dest 0 v { m with frames := rest } with
    | .ok () m => .ok none m
    | .error e m => .error e m

/-- Counts one instruction, and stops when more have been executed than the limit allows. -/
def spendFuel : Action Unit := fun m =>
  let executed := m.executed + 1
  let m := { m with executed := executed }
  match m.fuel with
  | some limit => if executed > limit then .error (.fuelExhausted limit) m else .ok () m
  | none => .ok () m

/-! ## Heap -/

/-- Stores a string. -/
def allocString (s : String) : Action Value := fun m =>
  let ⟨heap, globals, primitives, pending, stack, frames, sink, fuel, executed⟩ := m
  let (handle, heap) := heap.allocString s
  .ok (.string handle) ⟨heap, globals, primitives, pending, stack, frames, sink, fuel, executed⟩

/-- Runs a primitive on its arguments. -/
def runNative (native : Native) (args : List Value) : Action Value := fun m =>
  let ⟨heap, globals, primitives, pending, stack, frames, sink, fuel, executed⟩ := m
  match native args ⟨heap, sink, frames.length, primitives.count, primitives.name?⟩ with
  | .ok v h => .ok v ⟨h.heap, globals, primitives, pending, stack, frames, h.sink, fuel, executed⟩
  | .error e h =>
    .error e ⟨h.heap, globals, primitives, pending, stack, frames, h.sink, fuel, executed⟩

end Machine
end ScriptMachine
