import ScriptMachine.Machine.Fault

/-!
# Verification

Before a program is linked, every body is checked: its constants are in range, every register and
call window lies inside its registers, every jump stays inside its code, and every primitive exists.
Bodies are checked in order, the main body last, and the first flaw found is reported.
-/

namespace ScriptMachine.Link

open Bytecode

/-- Whether a constant means something in a program with these tables. -/
def constantOk (strings prototypes : Nat) : Constant → Bool
  | .int n => Value.fits n.toInt
  | .str i => i.toNat < strings
  | .fn i => i.toNat < prototypes
  | .bool _ | .nil => true

/-- The operands of an instruction that name registers, in the order of the check. -/
def registersOf (op : Opcode) (w : Word) : List Nat :=
  match op.shape with
  | .A | .ABx => [w.a]
  | .AB => [w.a, w.b]
  | .ABC => [w.a, w.b, w.c]
  | .Bx => []

/-- What can be wrong with an instruction: a flaw of the code, or a primitive that does not
exist. -/
inductive Objection
  | flaw (f : CodeFlaw)
  | unknownPrimitive (index : Nat)
deriving DecidableEq

/-- Checks the operand of an instruction that is no register. -/
def checkOperand (p : Prototype) (primitives ip : Nat) (op : Opcode) (w : Word) :
    Option Objection :=
  match op with
  | .loadConst => if w.bx ≥ p.constants.size then some (.flaw (.constantIndex ip w.bx)) else none
  | .call =>
    if w.b + w.c ≥ p.slots.toNat then some (.flaw (.callWindow ip (w.b + w.c) p.slots.toNat))
    else none
  | .jump | .jumpIfFalse | .jumpIfTrue =>
    if w.bx > p.code.size then some (.flaw (.jumpTarget ip w.bx)) else none
  | .getPrim => if w.bx ≥ primitives then some (.unknownPrimitive w.bx) else none
  | _ => none

/-- Checks one instruction. -/
def checkWord (p : Prototype) (primitives ip : Nat) (w : Word) : Option Objection :=
  match w.opcode? with
  | none => some (.flaw (.invalidOpcode ip w.op))
  | some op =>
    match (registersOf op w).find? fun r => p.slots.toNat ≤ r with
    | some r => some (.flaw (.register ip r p.slots.toNat))
    | none => checkOperand p primitives ip op w

/-- Checks one body. -/
def checkBody (strings prototypes primitives : Nat) (p : Prototype) : Option Objection :=
  if p.arity.toNat > p.slots.toNat then some (.flaw .tooManyArguments)
  else
    match p.constants.toList.zipIdx.find? fun (k, _) => !constantOk strings prototypes k with
    | some (k, i) => some (.flaw (.badConstant i k))
    | none => p.code.toList.zipIdx.findSome? fun (w, ip) => checkWord p primitives ip w

/-- An objection to a function as a link error. -/
def Objection.toLinkError (function : String) (primitives : Nat) : Objection → LinkError
  | .flaw f => .malformed (.flawed function f)
  | .unknownPrimitive index => .unknownPrimitive index primitives

/-- Checks each body of a program against a registry with this many primitives. -/
def verify (program : Program) (primitives : Nat) : Except LinkError Unit :=
  let objection := program.bodies.findSome? fun p =>
    (checkBody program.strings.size program.prototypes.size primitives p).map
      (Objection.toLinkError p.name primitives)
  match objection with
  | some e => .error e
  | none => .ok ()

end ScriptMachine.Link
