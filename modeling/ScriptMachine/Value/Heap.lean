import ScriptMachine.Value.Word

/-!
# The heap

Strings and functions live in two append-only stores and are known by their place in it. Nothing is
ever freed, so a handle keeps its meaning.
-/

namespace ScriptMachine

/-- A function ready to run. Its first `arity` registers hold the arguments; it uses `slots`
registers in all. -/
structure Function where
  name : String
  arity : Nat
  slots : Nat
  constants : Array Value
  code : Array UInt32
deriving DecidableEq, Inhabited

/-- The store of strings and functions, and the bytes that were asked for. -/
structure Heap where
  strings : Array String
  functions : Array Function
  bytesAsked : Nat
deriving DecidableEq

namespace Heap

/-- The heap that holds nothing. -/
def empty : Heap :=
  ⟨#[], #[], 0⟩

/-- Stores a string; its handle is the number of strings before it. -/
def allocString (h : Heap) (s : String) : UInt32 × Heap :=
  (UInt32.ofNat h.strings.size,
    { h with strings := h.strings.push s, bytesAsked := h.bytesAsked + s.utf8ByteSize })

/-- Stores a function; its handle is the number of functions before it. -/
def allocFunction (h : Heap) (f : Function) : UInt32 × Heap :=
  (UInt32.ofNat h.functions.size,
    { h with
      functions := h.functions.push f
      bytesAsked := h.bytesAsked + 4 * f.code.size + 8 * f.constants.size })

/-- The string with this handle. -/
def string? (h : Heap) (handle : UInt32) : Option String :=
  h.strings[handle.toNat]?

/-- The function with this handle. -/
def function? (h : Heap) (handle : UInt32) : Option Function :=
  h.functions[handle.toNat]?

/-- The content of a string value. -/
def content? (h : Heap) (v : Value) : Option String :=
  v.asString?.bind h.string?

/-- Replaces the constants of the function with this handle, if there is one. -/
def setConstants (h : Heap) (handle : UInt32) (constants : Array Value) : Heap :=
  { h with functions := h.functions.modify handle.toNat fun f => { f with constants } }

/-- Stores strings in order and hands back their handles. -/
def allocStrings (h : Heap) (strings : Array String) : Array UInt32 × Heap :=
  strings.foldl (fun (handles, h) s =>
    let (handle, h) := h.allocString s
    (handles.push handle, h)) (#[], h)

end Heap
end ScriptMachine
