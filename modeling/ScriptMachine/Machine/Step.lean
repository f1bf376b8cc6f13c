import ScriptMachine.Machine.Arithmetic

/-!
# Running

One step executes one instruction of the running frame; a frame that has none left returns nil. A
run takes steps until the first frame returns or a fault stops it.
-/

namespace ScriptMachine.Machine

open Bytecode

/-! ## Globals and primitives -/

/-- The value of a global: the run's own last write, else what the table holds. -/
def globalValue (slot : Nat) : Action Value := fun m =>
  match m.pending[slot]? with
  | some v => if v.kind = .empty then .error (.unboundGlobal slot) m else .ok v m
  | none =>
    match m.globals.get slot with
    | .error e => .error (.link e) m
    | .ok v => if v.kind = .empty then .error (.unboundGlobal slot) m else .ok v m

/-- Records a write to a global. -/
def writeGlobal (slot : Nat) (v : Value) : Action Unit := fun m =>
  .ok () { m with pending := m.pending.insert slot v }

/-- Checks that a global may be assigned to: the run has written it, or the table binds it. -/
def checkAssignable (slot : Nat) : Action Unit := fun m =>
  if m.pending.contains slot then .ok () m
  else
    match globalValue slot m with
    | .ok _ m => .ok () m
    | .error e m => .error e m

/-- The primitive with this index. -/
def primitive (index : Nat) : Action Primitive := fun m =>
  match m.primitives.lookup index with
  | .ok p => .ok p m
  | .error e => .error (.link e) m

/-! ## Calls -/

/-- Checks that the registers of the arguments exist. -/
def checkArguments (start count : Nat) : Action Unit := fun m =>
  if start + count > m.stack.size then .error .argumentsOutOfFrame m else .ok () m

/-- Calls a primitive on the `count` cells from `start`; the result goes to the cell `dest`. -/
def callPrimitive (index start count dest : Nat) : Action Unit := do
  let p ← primitive index
  if !p.accepts count then throw (.primitiveArity p.name p.arity count)
  let m ← get
  let args := (m.stack.extract start (start + count)).toList
  let result ← runNative p.run args
  writeReg dest 0 result

/-- Calls a function on the `count` cells from `start`, which become its first registers. -/
def callFunction (handle : UInt32) (start count dest : Nat) : Action Unit := do
  let f ← function handle
  if f.arity ≠ count then throw (.functionArity f.name f.arity count)
  if (← get).frames.length ≥ frameLimit then throw .stackOverflow
  ensureRegs start f.slots
  pushFrame ⟨handle, 0, start, dest⟩

/-- Calls the value in register `b` on the `c` registers after it; the result goes to `a`. -/
def call (base a b c : Nat) : Action Unit := do
  let callee ← readReg base b
  let start := base + b + 1
  checkArguments start c
  match callee.kind with
  | .primitive => callPrimitive callee.handle.toNat start c (base + a)
  | .function => callFunction callee.handle start c (base + a)
  | kind => throw (.notCallable kind)

/-! ## Steps -/

/-- Executes an instruction of the function `f` in the frame at `base`. -/
def perform (f : Function) (base : Nat) (op : Opcode) (w : Word) : Action (Option Value) := do
  match op with
  | .loadConst =>
    match f.constants[w.bx]? with
    | some v => writeReg base w.a v
    | none => throw (.constantOutOfRange w.bx)
    return none
  | .loadTrue => writeReg base w.a (.bool true); return none
  | .loadFalse => writeReg base w.a (.bool false); return none
  | .loadNil => writeReg base w.a .nil; return none
  | .move =>
    let v ← readReg base w.b
    writeReg base w.a v
    return none
  | .neg | .logNot =>
    let v ← readReg base w.b
    let r ← liftFault (unaryResult op v)
    writeReg base w.a r
    return none
  | .add | .sub | .mul | .div | .mod | .eq | .notEq | .lt | .le | .gt | .ge =>
    let v ← readReg base w.b
    let u ← readReg base w.c
    let r ← binaryResult op v u
    writeReg base w.a r
    return none
  | .jump => jumpTo w.bx; return none
  | .jumpIfFalse =>
    let v ← readReg base w.a
    if v.isFalsey then jumpTo w.bx
    return none
  | .jumpIfTrue =>
    let v ← readReg base w.a
    if !v.isFalsey then jumpTo w.bx
    return none
  | .getGlobal =>
    let v ← globalValue w.bx
    writeReg base w.a v
    return none
  | .setGlobal =>
    checkAssignable w.bx
    let v ← readReg base w.a
    writeGlobal w.bx v
    return none
  | .defGlobal =>
    let v ← readReg base w.a
    writeGlobal w.bx v
    return none
  | .getPrim =>
    let _ ← primitive w.bx
    writeReg base w.a (.primitive (UInt32.ofNat w.bx))
    return none
  | .call => call base w.a w.b w.c; return none
  | .ret =>
    let v ← readReg base w.a
    leaveFrame v

/-- Takes one step; the value is there once the first frame has returned. -/
def step : Action (Option Value) := fun m =>
  match m.frames with
  | [] => .ok (some .nil) m
  | frame :: _ =>
    match m.heap.function? frame.function with
    | none => .error (.functionNotFound frame.function) m
    | some f =>
      match f.code[frame.ip]? with
      | none => leaveFrame .nil m
      | some w =>
        match (do jumpTo (frame.ip + 1); spendFuel : Action Unit) m with
        | .error e m => .error e m
        | .ok () m =>
          match Word.opcode? w with
          | none => .error (.invalidOpcode (Word.op w)) m
          | some op => perform f frame.base op w m

/-- Takes up to `n` steps; no value means that the run goes on. -/
def run : (n : Nat) → Action (Option Value)
  | 0, m => .ok none m
  | n + 1, m =>
    match step m with
    | .error e m => .error e m
    | .ok (some v) m => .ok (some v) m
    | .ok none m => run n m

/-- Makes a function the only frame. -/
def enter (handle : UInt32) : Action Unit := fun m =>
  match m.heap.function? handle with
  | none => .error (.functionNotFound handle) m
  | some f =>
    (do ensureRegs 0 f.slots; pushFrame ⟨handle, 0, 0, 0⟩) { m with stack := #[], frames := [] }

/-- A number of steps in which a run with limited fuel ends: each instruction is a step, and each
frame can end in a step of its own. Without a limit it is `patience`. -/
def stepsFor (fuel : Option Nat) (patience : Nat) : Nat :=
  match fuel with
  | some limit => 2 * limit + 3
  | none => patience

/-- Runs a function to its end. Without a limit on fuel, no value means that it has not ended after
`patience` steps. -/
def execute (handle : UInt32) (patience : Nat) : Action (Option Value) := do
  enter handle
  run (stepsFor (← get).fuel patience)

end ScriptMachine.Machine
