import ScriptMachine.Machine.Primitive
import ScriptMachine.Machine.Display

/-!
# Standard primitives

The eight primitives that every session starts with.
-/

namespace ScriptMachine.Standard

/-- Writes a text, which has to fit. -/
def writeText (text : String) : EStateM Fault Host Unit := fun h =>
  let ⟨heap, sink, depth, count, name?⟩ := h
  match sink.write text with
  | (true, sink) => .ok () ⟨heap, sink, depth, count, name?⟩
  | (false, sink) => .error .outputClosed ⟨heap, sink, depth, count, name?⟩

/-- Writes a line: its text, then the end of the line. -/
def writeLine (line : String) : EStateM Fault Host Unit := do
  writeText line
  writeText "\n"

/-- Stores a string. -/
def allocString (s : String) : EStateM Fault Host Value := fun h =>
  let ⟨heap, sink, depth, count, name?⟩ := h
  let (handle, heap) := heap.allocString s
  .ok (.string handle) ⟨heap, sink, depth, count, name?⟩

/-- The only argument. -/
def oneArgument (primitive : String) : List Value → EStateM Fault Host Value
  | [v] => return v
  | _ => throw (.argumentCount primitive 1)

/-- The two arguments as integers, the first one checked first. -/
def twoInts (primitive : String) : List Value → EStateM Fault Host (Int × Int)
  | [v, w] =>
    match v.asInt?, w.asInt? with
    | some x, some y => return (x, y)
    | none, _ => throw (.badArgument (.notInt primitive v.kind))
    | _, none => throw (.badArgument (.notInt primitive w.kind))
  | _ => throw (.argumentCount primitive 2)

/-- Writes its arguments on one line, separated by spaces. -/
def print : Native := fun args => do
  let l := (← get).legend
  writeLine (" ".intercalate (args.map l.display))
  return .nil

/-- The number of characters of a string. -/
def len : Native := fun args => do
  let v ← oneArgument "len" args
  if v.kind ≠ .string then throw (.badArgument (.notString "len"))
  match (← get).heap.string? v.handle with
  | some s => return .int s.length
  | none => throw .danglingString

/-- The name of the argument's type. -/
def typeOf : Native := fun args => do
  let v ← oneArgument "typeof" args
  allocString v.typeName

/-- Stops the run unless its argument is `true`. -/
def assert : Native := fun args => do
  let v ← oneArgument "assert" args
  if v.asBool? = some true then return .nil else throw .assertionFailed

/-- A string as it is, any other value as it is printed. -/
def toText : Native := fun args => do
  let v ← oneArgument "to_string" args
  if v.kind = .string then return v
  allocString ((← get).legend.display v)

/-- The magnitude of an integer. -/
def abs : Native := fun args => do
  let v ← oneArgument "abs" args
  match v.asInt? with
  | none => throw (.badArgument (.notInt "abs" v.kind))
  | some n =>
    match Value.int? n.natAbs with
    | some r => return r
    | none => throw .integerOverflow

/-- The lesser of two integers. -/
def lesser : Native := fun args => do
  let (x, y) ← twoInts "min" args
  return .int (min x y)

/-- The greater of two integers. -/
def greater : Native := fun args => do
  let (x, y) ← twoInts "max" args
  return .int (max x y)

/-- The standard primitives in the order of their indices. -/
def primitives : List Primitive :=
  [⟨"print", -1, print⟩, ⟨"len", 1, len⟩, ⟨"typeof", 1, typeOf⟩, ⟨"assert", 1, assert⟩,
    ⟨"to_string", 1, toText⟩, ⟨"abs", 1, abs⟩, ⟨"min", 2, lesser⟩, ⟨"max", 2, greater⟩]

end ScriptMachine.Standard

namespace ScriptMachine.Registry

/-- Adds the standard primitives. -/
def registerStandard (r : Registry) : Registry :=
  Standard.primitives.foldl register r

/-- The registry of a new session. -/
def standard : Registry :=
  empty.registerStandard

end ScriptMachine.Registry
