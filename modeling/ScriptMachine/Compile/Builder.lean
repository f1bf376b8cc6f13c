import ScriptMachine.Compile.Body
import ScriptMachine.Compile.Names

/-!
# The state of a compilation

A fragment is compiled into the body of its main function. While a function declaration is being
compiled, the main body waits and the function's own body takes its place.
-/

namespace ScriptMachine.Compile

open Bytecode

/-- A compilation: the names in scope, the body under construction, the main body if it waits, what
is finished, and the globals defined by this fragment so far, newest first. -/
structure Builder where
  names : Names
  body : Body
  waiting : Option Body
  prototypes : Array Prototype
  strings : Array String
  staged : List Definition

/-- A step of a compilation. -/
abbrev Building := StateT Builder (Except CompileError)

/-- The start of a compilation. -/
def Builder.new (names : Names) : Builder :=
  ⟨names, .new "main" 0, none, #[], #[], []⟩

/-- Whether the code under construction belongs to no function and no block. -/
def Builder.atTopLevel (b : Builder) : Bool :=
  b.waiting.isNone && b.body.depth == 0

/-! ## The body under construction -/

/-- Changes the body. -/
def updateBody (change : Body → Body) : Building Unit := fun b =>
  let ⟨names, body, waiting, prototypes, strings, staged⟩ := b
  .ok ((), ⟨names, change body, waiting, prototypes, strings, staged⟩)

/-- Changes the body if that is possible. -/
def updateBody? (change : Body → Except CompileError Body) : Building Unit := fun b =>
  let ⟨names, body, waiting, prototypes, strings, staged⟩ := b
  match change body with
  | .error e => .error e
  | .ok body => .ok ((), ⟨names, body, waiting, prototypes, strings, staged⟩)

/-- Takes something from the body if that is possible. -/
def takeFromBody {α : Type} (take : Body → Except CompileError (α × Body)) : Building α := fun b =>
  let ⟨names, body, waiting, prototypes, strings, staged⟩ := b
  match take body with
  | .error e => .error e
  | .ok (x, body) => .ok (x, ⟨names, body, waiting, prototypes, strings, staged⟩)

/-- Takes the register on top of those in use. -/
def takeReg : Building Nat :=
  takeFromBody Body.takeReg

/-- Gives back the topmost register. -/
def giveBackReg : Building Unit :=
  updateBody Body.giveBackReg

/-- Gives back the `n` topmost registers. -/
def giveBackRegs (n : Nat) : Building Unit :=
  updateBody fun f => { f with regTop := f.regTop - n }

/-- Appends an instruction with three operands. -/
def emitABC (op : Opcode) (a b c : Nat) : Building Unit :=
  updateBody fun f => f.emit (.abc op a b c)

/-- Appends an instruction with a wide operand. -/
def emitABx (op : Opcode) (a bx : Nat) : Building Unit :=
  updateBody fun f => f.emit (.abx op a bx)

/-- The position of the next instruction. -/
def here : Building Nat := do
  return (← get).body.here

/-- Appends a jump whose target is not known yet; its position. -/
def jumpAhead (op : Opcode) (a : Nat) : Building Nat := do
  let pos ← here
  emitABx op a 0
  return pos

/-- Points the jump at `pos` to the next instruction. -/
def aimJump (pos : Nat) : Building Unit :=
  updateBody? fun f => f.aimJump pos

/-- The index of a constant in the body's pool. -/
def constantIndex (k : Constant) : Building Nat :=
  takeFromBody fun f => f.constantIndex k

/-- Runs a step in a scope of its own. -/
def inScope (step : Building Unit) : Building Unit := do
  updateBody Body.beginScope
  step
  updateBody Body.endScope

/-! ## Tables of the fragment -/

/-- The index of a string in the program's table. -/
def stringIndex (s : String) : Building Nat := fun b =>
  match b.strings.idxOf? s with
  | some i => .ok (i, b)
  | none =>
    let ⟨names, body, waiting, prototypes, strings, staged⟩ := b
    .ok (strings.size, ⟨names, body, waiting, prototypes, strings.push s, staged⟩)

/-- Gives a name the next free slot. The rest of the fragment sees the new global and none that it
hides. -/
def newSlot (name : String) (mutable : Bool) : Building Nat := fun b =>
  let slot := b.names.nextSlot
  if slot > maxWide then .error .tooManyGlobals
  else
    let d : Definition := ⟨name, slot, mutable⟩
    .ok (slot, { b with names := b.names.define d, staged := d :: b.staged })

/-- A slot or an index as a wide operand. -/
def wideOperand (n : Nat) : Building Nat :=
  if n > maxWide then throw .tooManyGlobals else return n

/-- Sets the main body aside and starts the body of a function. -/
def enterFunction (name : String) (arity : Nat) : Building Unit := fun b =>
  let ⟨names, body, _, prototypes, strings, staged⟩ := b
  .ok ((), ⟨names, .new name arity, some body, prototypes, strings, staged⟩)

/-- Ends the body of a function and goes back to the main body; the function's index. -/
def leaveFunction : Building Nat := fun b =>
  let ⟨names, body, waiting, prototypes, strings, staged⟩ := b
  let prototype := body.toPrototype
  .ok (prototypes.size,
    ⟨names, waiting.getD body, none, prototypes.push prototype, strings, staged⟩)

end ScriptMachine.Compile
