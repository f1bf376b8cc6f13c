import ScriptMachine.Bytecode.Program
import ScriptMachine.Compile.CompileError

/-!
# Function bodies under construction

The code of one function so far, its constants, its locals and its registers. Registers are taken
and given back like a stack, and the greatest number in use at once is the number that the function
will need.
-/

namespace ScriptMachine.Compile

open Bytecode

/-- A local name: the depth of its scope, its register, and whether it may be assigned to. -/
structure Local where
  name : String
  depth : Nat
  reg : Nat
  mutable : Bool
deriving DecidableEq, Repr

/-- A function under construction; `locals` lists the newest first. -/
structure Body where
  name : String
  arity : Nat
  locals : List Local
  depth : Nat
  code : Array Word
  constants : Array Constant
  regTop : Nat
  maxSlots : Nat

/-- The greatest number that a wide operand can hold. -/
def maxWide : Nat :=
  65535

namespace Body

/-- A function with no code; its arguments hold the first registers. -/
def new (name : String) (arity : Nat) : Body :=
  ⟨name, arity, [], 0, #[], #[], arity, arity⟩

/-! ## Registers -/

/-- Takes the register on top of those in use. -/
def takeReg (f : Body) : Except CompileError (Nat × Body) :=
  if f.regTop ≥ 255 then .error .registerOverflow
  else .ok (f.regTop, { f with regTop := f.regTop + 1, maxSlots := max f.maxSlots (f.regTop + 1) })

/-- Gives back the topmost register. -/
def giveBackReg (f : Body) : Body :=
  { f with regTop := f.regTop - 1 }

/-! ## Constants -/

/-- The index of a constant, which is added if it is new. -/
def constantIndex (f : Body) (k : Constant) : Except CompileError (Nat × Body) :=
  match f.constants.idxOf? k with
  | some i => .ok (i, f)
  | none =>
    if f.constants.size > maxWide then .error .tooManyConstants
    else .ok (f.constants.size, { f with constants := f.constants.push k })

/-! ## Code -/

/-- Appends an instruction. -/
def emit (f : Body) (w : Word) : Body :=
  { f with code := f.code.push w }

/-- The position of the next instruction. -/
def here (f : Body) : Nat :=
  f.code.size

/-- Points the jump at `pos` to the next instruction. -/
def aimJump (f : Body) (pos : Nat) : Except CompileError Body :=
  if f.here > maxWide then .error .jumpTooFar
  else
    let target := f.here
    .ok { f with code := f.code.modify pos fun w =>
      Word.ofBytes (Word.op w) (Word.a w) (target / 256) target }

/-- Appends a jump back to `start`. -/
def jumpBack (f : Body) (start : Nat) : Except CompileError Body :=
  if start > maxWide then .error .jumpTooFar
  else .ok (f.emit (.abx .jump 0 start))

/-! ## Scopes -/

/-- Opens a scope. -/
def beginScope (f : Body) : Body :=
  { f with depth := f.depth + 1 }

/-- Closes a scope: its locals go, and their registers with them. -/
def endScope (f : Body) : Body :=
  let depth := f.depth - 1
  let gone := f.locals.takeWhile fun l => depth < l.depth
  { f with
    depth := depth
    locals := f.locals.dropWhile fun l => depth < l.depth
    regTop := f.regTop - gone.length }

/-- Adds a local to the current scope. -/
def declare (f : Body) (name : String) (reg : Nat) (mutable : Bool) : Body :=
  { f with locals := ⟨name, f.depth, reg, mutable⟩ :: f.locals }

/-- The newest local of this name. -/
def local? (f : Body) (name : String) : Option Local :=
  f.locals.find? fun l => l.name = name

/-- The finished function; it always has a register. -/
def toPrototype (f : Body) : Prototype :=
  ⟨f.name, UInt8.ofNat f.arity, UInt16.ofNat (max f.maxSlots 1), f.constants, f.code⟩

end Body
end ScriptMachine.Compile
