import ScriptMachine.Source.Parsing
import ScriptMachine.Bytecode.Encoding
import ScriptMachine.Compile.Lowering

/-!
# Compiled fragments

A fragment becomes a program whose main body returns the fragment's value, and a list of the globals
that it defines, in order.
-/

namespace ScriptMachine.Compile

open Source Bytecode

/-- A fragment in compiled form; `yieldsValue` says that it ends in an expression. -/
structure Compiled where
  program : Program
  definitions : List Definition
  yieldsValue : Bool
deriving DecidableEq

/-- The file that holds the program. -/
def Compiled.bytes (c : Compiled) : Bytes :=
  c.program.encode

/-- The number of instructions in the program. -/
def Compiled.sizeHint (c : Compiled) : Nat :=
  c.program.instructionCount

/-- Whether the last statement is an expression. -/
def endsInExpr (f : Fragment) : Bool :=
  match f.getLast? with
  | some (.expr _) => true
  | _ => false

/-- Compiles the main body: the value starts out nil and is returned at the end. -/
def compileMain (f : Fragment) : Building Unit := do
  let result ← takeReg
  emitABx .loadNil result 0
  compileStmts f
  emitABC .ret result 0 0

/-- The compiled form of a fragment. -/
def compileFragment (names : Names) (f : Fragment) : Except CompileError Compiled :=
  match compileMain f (.new names) with
  | .error e => .error e
  | .ok ((), b) =>
    .ok ⟨⟨b.strings, b.prototypes, b.body.toPrototype⟩, b.staged.reverse, endsInExpr f⟩

/-- The compiled form of a source text. -/
def compile (names : Names) (source : String) : Except CompileError Compiled :=
  match Fragment.parse source with
  | .error e => .error (.source e)
  | .ok f => compileFragment names f

end ScriptMachine.Compile
