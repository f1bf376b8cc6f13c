import ScriptMachine.Link.Unit

/-!
# The linker

A linker turns the bytes of a unit into a linked unit, through the backend that is installed. It
refuses everything until there is one. It notes each unit that it hands to a backend.
-/

namespace ScriptMachine.Link

open Bytecode

/-- Turns bytes, of which a number of instructions is announced, into a program. -/
structure Backend where
  name : String
  read : Bytes → Nat → Except LoadError Program

/-- A unit handed to a backend: its length in bytes and the instructions announced. -/
structure Request where
  backend : String
  length : Nat
  sizeHint : Nat
deriving DecidableEq, Repr

/-- A linker: its backend and the units handed over so far, the newest first. -/
structure Linker where
  backend : Option Backend
  requests : List Request

/-- The backend that reads the file format. -/
def Backend.bytecode : Backend :=
  ⟨"bytecode", fun bytes _ => Program.decode bytes⟩

namespace Linker

/-- A linker without a backend. -/
def uninitialized : Linker :=
  ⟨none, []⟩

/-- A linker that reads the file format. -/
def standard : Linker :=
  ⟨some .bytecode, []⟩

/-- Puts a backend in place of the one before. -/
def install (l : Linker) (b : Backend) : Linker :=
  { l with backend := some b }

/-- Whether there is a backend. -/
def isInitialized (l : Linker) : Bool :=
  l.backend.isSome

/-- The linker as a listing shows it. -/
def spelled (l : Linker) : String :=
  s!"Reifier \x7b initialized: {l.isInitialized}, .. \x7d"

/-- Hands bytes to the backend once; the program that it makes of them, if it can be linked where
there is this number of primitives. -/
def read (l : Linker) (primitiveCount : Nat) (bytes : Bytes) (sizeHint : Nat) :
    Except LinkError Program × Linker :=
  match l.backend with
  | none => (.error .notInitialized, l)
  | some b =>
    let l := { l with requests := ⟨b.name, bytes.length, sizeHint⟩ :: l.requests }
    match b.read bytes sizeHint with
    | .error e => (.error (.malformed (.unreadable e)), l)
    | .ok program =>
      match verify program primitiveCount with
      | .error e => (.error e, l)
      | .ok () => (.ok program, l)

/-- Hands bytes to the backend once and links the program that it makes of them. -/
def link (l : Linker) (image : Image) (bytes : Bytes) (sizeHint : Nat) :
    Except LinkError (LinkedUnit × Image) × Linker :=
  match l.read image.primitives.count bytes sizeHint with
  | (.error e, l) => (.error e, l)
  | (.ok program, l) => (.ok (place image program sizeHint), l)

end Linker
end ScriptMachine.Link
