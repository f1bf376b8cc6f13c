import ScriptMachine.Value.Heap
import ScriptMachine.Bytecode.Decoding

/-!
# Faults

Why a program cannot be linked, and why a run stops before its end.
-/

namespace ScriptMachine

open Bytecode

/-! ## Linking -/

/-- What is wrong with the code of one function; `ip` is the place of an instruction. -/
inductive CodeFlaw
  | tooManyArguments
  | badConstant (index : Nat) (constant : Constant)
  | invalidOpcode (ip byte : Nat)
  | register (ip reg slots : Nat)
  | constantIndex (ip index : Nat)
  | callWindow (ip last slots : Nat)
  | jumpTarget (ip target : Nat)
deriving DecidableEq

/-- Why a unit is no program: its file is refused, or one of its functions is flawed. -/
inductive Malformation
  | unreadable (e : LoadError)
  | flawed (function : String) (flaw : CodeFlaw)
deriving DecidableEq

/-- Why a unit or a reference does not fit the image. -/
inductive LinkError
  | slotOutOfRange (index length : Nat)
  | unknownPrimitive (index count : Nat)
  | notInitialized
  | malformed (why : Malformation)
deriving DecidableEq

/-- The wording of a flaw. -/
def CodeFlaw.message : CodeFlaw → String
  | .tooManyArguments => "arity exceeds register count"
  | .badConstant i k => s!"constant K{i} is invalid: " ++ k.spelled
  | .invalidOpcode ip byte => s!"@{ip}: invalid opcode {byte}"
  | .register ip r slots => s!"@{ip}: register R{r} >= {slots}"
  | .constantIndex ip k => s!"@{ip}: constant K{k} out of range"
  | .callWindow ip last slots => s!"@{ip}: call window R{last} >= {slots}"
  | .jumpTarget ip target => s!"@{ip}: jump target {target} outside chunk"

/-- The wording of a malformation. -/
def Malformation.message : Malformation → String
  | .unreadable e => e.message
  | .flawed function flaw => "in `" ++ function ++ "`: " ++ flaw.message

/-- The wording of a link error. -/
def LinkError.message : LinkError → String
  | .slotOutOfRange index length =>
    s!"global slot {index} is out of range (table length {length})"
  | .unknownPrimitive index count => s!"unknown primitive #{index} ({count} registered)"
  | .notInitialized => "Toplevel not initialized (no reification backend installed)"
  | .malformed why => "malformed unit: " ++ why.message

/-! ## Running -/

/-- The values that a primitive turned down. -/
inductive BadArgument
  | notInt (primitive : String) (given : Kind)
  | notString (primitive : String)
deriving DecidableEq

/-- Why a run stops. -/
inductive Fault
  | link (e : LinkError)
  | unboundGlobal (slot : Nat)
  | stackOverflow
  | invalidOpcode (byte : Nat)
  | functionNotFound (handle : UInt32)
  | divisionByZero
  | integerOverflow
  | badOperands (op : Opcode) (left right : Kind)
  | notCallable (kind : Kind)
  | badArgument (why : BadArgument)
  | functionArity (name : String) (arity given : Nat)
  | primitiveArity (name : String) (arity : Int) (given : Nat)
  | argumentCount (primitive : String) (wanted : Nat)
  | assertionFailed
  | fuelExhausted (limit : Nat)
  | outputClosed
  | registerOutOfFrame (reg : Nat)
  | constantOutOfRange (index : Nat)
  | argumentsOutOfFrame
  | danglingString
  | host (reason : String)
deriving DecidableEq

/-- The wording of a turned-down value. -/
def BadArgument.message : BadArgument → String
  | .notInt primitive given => primitive ++ "() expects int, got " ++ given.typeName
  | .notString primitive => primitive ++ "() expects String"

/-- The wording of a fault. -/
def Fault.message : Fault → String
  | .link e => e.message
  | .unboundGlobal slot => s!"global slot {slot} is not bound yet"
  | .stackOverflow => "stack overflow"
  | .invalidOpcode byte => s!"invalid opcode {byte}"
  | .functionNotFound handle => s!"function handle {handle.toNat} not found"
  | .divisionByZero => "division by zero"
  | .integerOverflow => "integer overflow"
  | .badOperands op left right =>
    "type mismatch: " ++ op.mnemonic ++ " expects int operands, got " ++ left.typeName ++ " and " ++
      right.typeName
  | .notCallable kind => "type mismatch: cannot call a value of type " ++ kind.typeName
  | .badArgument why => "type mismatch: " ++ why.message
  | .functionArity name arity given =>
    "arity mismatch: " ++ name ++ s!" expects {arity} args, got {given}"
  | .primitiveArity name arity given =>
    "arity mismatch: " ++ name ++ "() expects " ++ decimal arity ++ s!" args, got {given}"
  | .argumentCount primitive wanted =>
    let noun := if wanted = 1 then "argument" else "arguments"
    "arity mismatch: " ++ primitive ++ s!"() takes exactly {wanted} " ++ noun
  | .assertionFailed => "assertion failed"
  | .fuelExhausted limit => s!"fuel exhausted after {limit} instructions"
  | .outputClosed => "output error: sink closed"
  | .registerOutOfFrame reg => s!"register R{reg} out of frame"
  | .constantOutOfRange index => s!"constant K{index} out of range"
  | .argumentsOutOfFrame => "call arguments outside the frame"
  | .danglingString => "Dangling string handle"
  | .host reason => reason

end ScriptMachine
