import ScriptMachine.Machine.Fault
import ScriptMachine.Machine.Sink
import ScriptMachine.Text.Quoted

/-!
# Primitives

A primitive is an operation that the host offers to programs. It works on the heap and the output,
and sees how deep the calls are and which primitives there are. The registry only grows, so an index
keeps its meaning.
-/

namespace ScriptMachine

/-- What a primitive sees and changes. -/
structure Host where
  heap : Heap
  sink : Sink
  depth : Nat
  primitiveCount : Nat
  primitiveName? : Nat → Option String

/-- The action of a primitive on its arguments. -/
abbrev Native := List Value → EStateM Fault Host Value

/-- A primitive; an arity of minus one takes any number of arguments. -/
structure Primitive where
  name : String
  arity : Int
  run : Native

/-- The primitives of an image, by index. -/
structure Registry where
  entries : Array Primitive

/-- A primitive as a listing shows it. -/
def Primitive.spelled (p : Primitive) : String :=
  "NativeObj \x7b name: " ++ Text.quote p.name ++ ", arity: " ++ decimal p.arity ++ ", .. \x7d"

/-- Whether a primitive takes this number of arguments. -/
def Primitive.accepts (p : Primitive) (given : Nat) : Bool :=
  p.arity == -1 || p.arity == (given : Int)

namespace Registry

/-- No primitives. -/
def empty : Registry :=
  ⟨#[]⟩

/-- The number of primitives, which is the next index. -/
def count (r : Registry) : Nat :=
  r.entries.size

/-- Adds a primitive. -/
def register (r : Registry) (p : Primitive) : Registry :=
  ⟨r.entries.push p⟩

/-- The primitive with this index. -/
def lookup (r : Registry) (index : Nat) : Except LinkError Primitive :=
  match r.entries[index]? with
  | some p => .ok p
  | none => .error (.unknownPrimitive index r.count)

/-- The name of the primitive with this index. -/
def name? (r : Registry) (index : Nat) : Option String :=
  r.entries[index]?.map Primitive.name

/-- All names, in the order of their indices. -/
def names (r : Registry) : List String :=
  r.entries.toList.map Primitive.name

/-- The newest index of a name. -/
def indexOf? (r : Registry) (name : String) : Option Nat :=
  (r.names.zipIdx.reverse.find? fun p => p.1 = name).map Prod.snd

end Registry
end ScriptMachine
