/-!
# Native libraries

The host has no loader for native code. Libraries can be opened and closed, and each gets a number
of its own, but no symbol is ever found in one.
-/

namespace ScriptMachine.Link

/-- An opened library. -/
structure Library where
  id : UInt32
  name : String
deriving DecidableEq, Repr

/-- A symbol that was looked up in vain. -/
structure SymbolNotFound where
  library : String
  symbol : String
deriving DecidableEq, Repr

/-- The number for the next library. -/
structure LibraryLoader where
  nextId : UInt32
deriving DecidableEq, Repr

namespace LibraryLoader

/-- A loader that has opened nothing. -/
def new : LibraryLoader :=
  ⟨0⟩

/-- Opens a library under the next number. -/
def openLibrary (l : LibraryLoader) (name : String) : Library × LibraryLoader :=
  (⟨l.nextId, name⟩, ⟨l.nextId + 1⟩)

/-- Looks a symbol up, in vain. -/
def lookup (lib : Library) (symbol : String) : SymbolNotFound :=
  ⟨lib.name, symbol⟩

/-- Opens a library, looks a symbol up in it, and closes it. -/
def withLibrary (l : LibraryLoader) (name symbol : String) :
    (Library × SymbolNotFound) × LibraryLoader :=
  let (lib, l) := l.openLibrary name
  ((lib, lookup lib symbol), l)

/-- The libraries that stay loaded: none ever do. -/
def current (_ : LibraryLoader) : List UInt32 :=
  []

end LibraryLoader

/-- The wording of a symbol looked up in vain. -/
def SymbolNotFound.message (e : SymbolNotFound) : String :=
  "symbol `" ++ e.symbol ++ "` not found in library `" ++ e.library ++ "`"

/-- Requests that the host cannot answer. -/
inductive HostRequest
  | trace
  | environment
deriving DecidableEq, Repr

/-- Why the host cannot answer a request. -/
def HostRequest.refusal : HostRequest → String
  | .trace => "invalid argument: invoke_traced_function"
  | .environment => "current_environment not implemented"

/-- A block of zeros outside the heap. -/
def staticBlock (length : Nat) : Array UInt8 :=
  Array.replicate length 0

end ScriptMachine.Link
