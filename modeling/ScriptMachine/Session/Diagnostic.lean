import ScriptMachine.Compile.Compiled
import ScriptMachine.Text.Lines

/-!
# Diagnostics

A compile error as the user sees it: the line that it points at, a caret below the place, and the
message.
-/

namespace ScriptMachine.Session

open Source Compile Bytecode

/-- A message, and the place that it points at, if it points at one. -/
structure Diagnostic where
  message : String
  pos : Option Position
deriving DecidableEq, Repr

/-- A compile error as a diagnostic. -/
def Diagnostic.ofCompileError (e : CompileError) : Diagnostic :=
  ⟨e.message, e.pos?⟩

/-- The source line that a place is on, and a caret below the place. -/
def pointer (source : List Char) (p : Position) : String :=
  match (Text.lines source)[p.line - 1]? with
  | none => ""
  | some line =>
    String.ofList line ++ "\n" ++ String.ofList (List.replicate (p.col - 1) ' ') ++ "^\n"

/-- A diagnostic as text. -/
def Diagnostic.render (source : List Char) (d : Diagnostic) : String :=
  d.pos.elim "" (pointer source) ++ "Error: " ++ d.message

/-- A unit to be linked and run: its file, the instructions announced for it, the globals that it
defines, and whether its value is to be reported. -/
structure FragmentUnit where
  bytes : Bytes
  sizeHint : Nat
  definitions : List Definition
  yieldsValue : Bool

/-- Turns a source text into a unit. -/
abbrev FragmentCompiler := Names → String → Except Diagnostic FragmentUnit

/-- A compiled fragment as a unit. -/
def FragmentUnit.ofCompiled (c : Compiled) : FragmentUnit :=
  ⟨c.bytes, c.sizeHint, c.definitions, c.yieldsValue⟩

/-- The compiler of the language. -/
def standardCompiler : FragmentCompiler := fun names source =>
  match compile names source with
  | .error e => .error (.ofCompileError e)
  | .ok c => .ok (.ofCompiled c)

end ScriptMachine.Session
