import ScriptMachine.Bytecode.Opcode

/-!
# Compiled programs

A program holds a table of strings, a table of functions and a main body. Its parts refer to each
other by index and know nothing of any heap.
-/

namespace ScriptMachine.Bytecode

/-- An entry of a constant pool; strings and functions are given by their index in the program. -/
inductive Constant
  | int (n : Int64)
  | str (index : UInt32)
  | bool (b : Bool)
  | nil
  | fn (index : UInt32)
deriving DecidableEq

/-- A function as the compiler leaves it. -/
structure Prototype where
  name : String
  arity : UInt8
  slots : UInt16
  constants : Array Constant
  code : Array Word
deriving DecidableEq

/-- A compiled program. -/
structure Program where
  strings : Array String
  prototypes : Array Prototype
  main : Prototype
deriving DecidableEq

/-- The functions of a program, the main body last. -/
def Program.bodies (p : Program) : List Prototype :=
  p.prototypes.toList ++ [p.main]

/-- The number of instructions in all bodies. -/
def Program.instructionCount (p : Program) : Nat :=
  p.bodies.foldr (fun b count => b.code.size + count) 0

/-- A constant spelled out. -/
def Constant.spelled : Constant → String
  | .int n => s!"Int({toString n.toInt})"
  | .str i => s!"Str({i.toNat})"
  | .bool b => s!"Bool({b})"
  | .nil => "Nil"
  | .fn i => s!"Function({i.toNat})"

end ScriptMachine.Bytecode
