import ScriptMachine.Machine.State

/-!
# Operators on values

Arithmetic is exact on integers, and a result that does not fit a payload is a fault. Order is that
of integers, and of strings by their characters.
-/

namespace ScriptMachine.Machine

open Bytecode

/-- The value of an exact result. -/
def exactInt (n : Int) : Except Fault Value :=
  match Value.int? n with
  | some v => .ok v
  | none => .error .integerOverflow

/-- The result of an arithmetic operator; division goes toward zero. -/
def intResult (op : Opcode) (x y : Int) : Except Fault Value :=
  match op with
  | .add => exactInt (x + y)
  | .sub => exactInt (x - y)
  | .mul => exactInt (x * y)
  | .div => if y = 0 then .error .divisionByZero else exactInt (x.tdiv y)
  | .mod => if y = 0 then .error .divisionByZero else exactInt (x.tmod y)
  | .neg => exactInt (-x)
  | _ => .error (.host (op.mnemonic ++ " is not an arithmetic instruction"))

/-- Both operands as integers. -/
def intOperands (op : Opcode) (v w : Value) : Except Fault (Int × Int) :=
  match v.asInt?, w.asInt? with
  | some x, some y => .ok (x, y)
  | _, _ => .error (.badOperands op v.kind w.kind)

/-- The contents of two strings. -/
def stringOperands (heap : Heap) (v w : Value) : Except Fault (String × String) :=
  match heap.string? v.handle, heap.string? w.handle with
  | some s, some t => .ok (s, t)
  | _, _ => .error .danglingString

/-- Whether both values are strings. -/
def bothStrings (v w : Value) : Bool :=
  v.kind == .string && w.kind == .string

/-- How two integers or two strings are ordered. -/
def order (heap : Heap) (op : Opcode) (v w : Value) : Except Fault Ordering :=
  if bothStrings v w then (stringOperands heap v w).map fun (s, t) => compare s t
  else (intOperands op v w).map fun (x, y) => compare x y

/-- Whether an ordering operator holds. -/
def holds (op : Opcode) (o : Ordering) : Bool :=
  match op with
  | .lt => o.isLT
  | .le => o.isLE
  | .gt => o.isGT
  | _ => o.isGE

/-- Hands on a result or a fault. -/
def liftFault {α : Type} (r : Except Fault α) : Action α := fun m =>
  match r with
  | .ok x => .ok x m
  | .error e => .error e m

/-- The sum of integers, or two strings joined. -/
def addValues (v w : Value) : Action Value := fun m =>
  if bothStrings v w then
    match stringOperands m.heap v w with
    | .error e => .error e m
    | .ok (s, t) => allocString (s ++ t) m
  else liftFault ((intOperands .add v w).bind fun (x, y) => intResult .add x y) m

/-- The result of a binary operator. -/
def binaryResult (op : Opcode) (v w : Value) : Action Value := fun m =>
  match op with
  | .add => addValues v w m
  | .eq => .ok (.bool (sameValue m.heap v w)) m
  | .notEq => .ok (.bool (!sameValue m.heap v w)) m
  | .lt | .le | .gt | .ge => liftFault ((order m.heap op v w).map fun o => .bool (holds op o)) m
  | _ => liftFault ((intOperands op v w).bind fun (x, y) => intResult op x y) m

/-- The result of a unary operator. -/
def unaryResult (op : Opcode) (v : Value) : Except Fault Value :=
  match op with
  | .logNot => .ok (.bool v.isFalsey)
  | _ => (intOperands op v (.int 0)).bind fun (x, y) => intResult op x y

end ScriptMachine.Machine
