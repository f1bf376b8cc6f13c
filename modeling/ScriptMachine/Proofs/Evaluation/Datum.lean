import ScriptMachine.Compile.Lowering
import ScriptMachine.Machine.Arithmetic
import ScriptMachine.Machine.Standard

/-!
# Data

What programs compute with, seen without a heap: a text is its characters, and a function is its
declaration together with the names that it can see.
-/

namespace ScriptMachine.Evaluation

open Source Bytecode Compile

/-- A declared function. The names in scope of its body include its own; its slot tells it apart
from all other declarations. -/
structure Closure where
  name : String
  params : List String
  body : Block
  names : Names
  slot : Nat

/-- A datum. -/
inductive Datum
  | int (n : Int)
  | nil
  | bool (b : Bool)
  | text (s : String)
  | function (f : Closure)
  | primitive (index : Nat)

namespace Datum

/-- What a datum is. -/
def kind : Datum → Kind
  | .int _ => .int
  | .nil => .nil
  | .bool true => .yes
  | .bool false => .no
  | .text _ => .string
  | .function _ => .function
  | .primitive _ => .primitive

/-- Only `nil` and `false` count as false. -/
def isFalsey : Datum → Bool
  | .nil | .bool false => true
  | _ => false

/-- Whether two data are equal: functions are when they come from one declaration. -/
def same : Datum → Datum → Bool
  | .int m, .int n => m == n
  | .nil, .nil => true
  | .bool b, .bool c => b == c
  | .text s, .text t => s == t
  | .function f, .function g => f.slot == g.slot
  | .primitive i, .primitive j => i == j
  | _, _ => false

/-- Data of different kinds are not equal. -/
theorem same_of_kind_ne {d e : Datum} (h : d.kind ≠ e.kind) : d.same e = false := by
  cases d with
  | bool b =>
    cases e with
    | bool c => cases b <;> cases c <;> first | rfl | exact absurd rfl h
    | _ => rfl
  | _ =>
    cases e with
    | _ => first | rfl | exact absurd rfl h

/-- A datum as programs print it. -/
def display : Datum → String
  | .int n => decimal n
  | .nil => "nil"
  | .bool true => "true"
  | .bool false => "false"
  | .text s => s
  | .function f => "<fn " ++ f.name ++ s!"/{f.params.length}>"
  | .primitive i =>
    match Registry.standard.name? i with
    | some name => "<primitive " ++ name ++ ">"
    | none => s!"<primitive #{i}>"

end Datum

/-! ## Operators -/

/-- The integer of an exact result. -/
def exact (n : Int) : Except Fault Datum :=
  if Value.fits n then .ok (.int n) else .error .integerOverflow

/-- Whether an instruction compares the order of its operands. -/
def comparesOrder : Opcode → Bool
  | .lt | .le | .gt | .ge => true
  | _ => false

/-- The result of an arithmetic instruction on integers; division goes toward zero. -/
def arithmetic (op : Opcode) (x y : Int) : Except Fault Datum :=
  match op with
  | .add => exact (x + y)
  | .sub => exact (x - y)
  | .mul => exact (x * y)
  | .div => if y = 0 then .error .divisionByZero else exact (x.tdiv y)
  | .mod => if y = 0 then .error .divisionByZero else exact (x.tmod y)
  | _ => .error (.badOperands op .int .int)

/-- The result of an operator, given by its instruction. Any two data can be compared for equality;
two texts can be joined and ordered; all else is for two integers. -/
def binary (op : Opcode) (d e : Datum) : Except Fault Datum :=
  if op = .eq then .ok (.bool (d.same e))
  else if op = .notEq then .ok (.bool (!d.same e))
  else
    match d, e with
    | .text s, .text t =>
      if op = .add then .ok (.text (s ++ t))
      else if comparesOrder op then .ok (.bool (Machine.holds op (compare s t)))
      else .error (.badOperands op .string .string)
    | .int x, .int y =>
      if comparesOrder op then .ok (.bool (Machine.holds op (compare x y))) else arithmetic op x y
    | d, e => .error (.badOperands op d.kind e.kind)

/-- The result of an operator with one operand. -/
def unary (op : UnaryOp) (d : Datum) : Except Fault Datum :=
  match op, d with
  | .not, d => .ok (.bool d.isFalsey)
  | .neg, .int x => exact (-x)
  | .neg, d => .error (.badOperands .neg d.kind .int)

/-- Whether the left operand of `&&` or `||` is the result, so that the right one is not needed. -/
def decides (op : BinaryOp) (d : Datum) : Bool :=
  match op with
  | .and => d.isFalsey
  | _ => !d.isFalsey

/-! ## Primitives -/

/-- What a primitive does to data: it may write to the output, and it may fail. -/
abbrev Routine := List Datum → EStateM Fault Sink Datum

/-- Writes a text, which has to fit. -/
def writeText (text : String) : EStateM Fault Sink Unit := fun sink =>
  match sink.write text with
  | (true, sink) => .ok () sink
  | (false, sink) => .error .outputClosed sink

/-- Two integers, the first one checked first. -/
def twoInts (primitive : String) : List Datum → Except Fault (Int × Int)
  | [.int x, .int y] => .ok (x, y)
  | [.int _, e] => .error (.badArgument (.notInt primitive e.kind))
  | [d, _] => .error (.badArgument (.notInt primitive d.kind))
  | _ => .error (.argumentCount primitive 2)

/-- Hands on a result or a fault. -/
def lift {α : Type} (r : Except Fault α) : EStateM Fault Sink α := fun sink =>
  match r with
  | .ok x => .ok x sink
  | .error e => .error e sink

/-- The standard primitives on data, in the order of their indices. A length that does not fit a
payload is cut to one. -/
def routines : List Routine :=
  [fun args => do
      writeText (" ".intercalate (args.map Datum.display))
      writeText "\n"
      return .nil,
    fun args => lift <|
      match args with
      | [.text s] => .ok (.int (Int.bmod s.length Value.payloads))
      | [_] => .error (.badArgument (.notString "len"))
      | _ => .error (.argumentCount "len" 1),
    fun args => lift <|
      match args with
      | [d] => .ok (.text d.kind.typeName)
      | _ => .error (.argumentCount "typeof" 1),
    fun args => lift <|
      match args with
      | [.bool true] => .ok .nil
      | [_] => .error .assertionFailed
      | _ => .error (.argumentCount "assert" 1),
    fun args => lift <|
      match args with
      | [d] => .ok (.text d.display)
      | _ => .error (.argumentCount "to_string" 1),
    fun args => lift <|
      match args with
      | [.int n] => exact n.natAbs
      | [d] => .error (.badArgument (.notInt "abs" d.kind))
      | _ => .error (.argumentCount "abs" 1),
    fun args => lift ((twoInts "min" args).map fun (x, y) => .int (min x y)),
    fun args => lift ((twoInts "max" args).map fun (x, y) => .int (max x y))]

/-- Calls the primitive with an index, which checks the number of its arguments first. -/
def callPrimitive (index : Nat) (args : List Datum) : EStateM Fault Sink Datum :=
  match Registry.standard.entries[index]?, routines[index]? with
  | some p, some routine =>
    if p.accepts args.length then routine args
    else throw (.primitiveArity p.name p.arity args.length)
  | _, _ => throw (.link (.unknownPrimitive index Registry.standard.count))

end ScriptMachine.Evaluation
