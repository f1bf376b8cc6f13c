import ScriptMachine.Link.Image
import ScriptMachine.Link.Verify

/-!
# Linked units

Linking a program stores its strings and functions in the heap. All functions are stored before any
constant is filled in, so a constant may refer to every function of its program. A program that is
refused leaves no trace.
-/

namespace ScriptMachine.Link

open Bytecode

/-- A linked program: the handles of its bodies, and the instruction count announced for it. -/
structure LinkedUnit where
  main : UInt32
  functions : Array UInt32
  sizeHint : Nat
deriving DecidableEq

/-- A body without constants. -/
def bareFunction (p : Prototype) : Function :=
  ⟨p.name, p.arity.toNat, p.slots.toNat, #[], p.code⟩

/-- The value that a constant stands for. -/
def resolveConstant (strings functions : Array UInt32) : Constant → Value
  | .int n => .int n.toInt
  | .str i => .string (strings.getD i.toNat 0)
  | .bool b => .bool b
  | .nil => .nil
  | .fn i => .function (functions.getD i.toNat 0)

/-- Stores functions in order and hands back their handles. -/
def allocBodies (heap : Heap) (ps : List Prototype) : Array UInt32 × Heap :=
  ps.foldl (fun (handles, heap) p =>
    let (handle, heap) := heap.allocFunction (bareFunction p)
    (handles.push handle, heap)) (#[], heap)

/-- Stores a program in an image. -/
def place (image : Image) (program : Program) (sizeHint : Nat) : LinkedUnit × Image :=
  let ⟨globals, primitives, heap⟩ := image
  let (strings, heap) := heap.allocStrings program.strings
  let (functions, heap) := allocBodies heap program.prototypes.toList
  let (main, heap) := heap.allocFunction (bareFunction program.main)
  let heap := ((functions.push main).toList.zip program.bodies).foldl (fun heap (handle, p) =>
    heap.setConstants handle (p.constants.map (resolveConstant strings functions))) heap
  (⟨main, functions, sizeHint⟩, ⟨globals, primitives, heap⟩)

/-- Links a program into an image. -/
def bind (image : Image) (program : Program) (sizeHint : Nat) :
    Except LinkError (LinkedUnit × Image) :=
  match verify program image.primitives.count with
  | .error e => .error e
  | .ok () => .ok (place image program sizeHint)

/-! ## Running -/

/-- What a successful run leaves: its value, and its writes to globals in the order of their slots,
not yet stored. -/
structure Outcome where
  value : Value
  writes : List (Nat × Value)
deriving DecidableEq

/-- How a run ends: with an outcome, with a fault, or not within the steps that it was given. -/
inductive RunResult
  | finished (outcome : Outcome)
  | faulted (e : Fault)
  | unfinished
deriving DecidableEq

/-- Runs a unit's main body. The image changes in its heap only. -/
def LinkedUnit.run (unit : LinkedUnit) (image : Image) (sink : Sink) (fuel : Option Nat)
    (patience : Nat) : RunResult × Image × Sink :=
  let ⟨globals, primitives, heap⟩ := image
  match Machine.execute unit.main patience (.new heap globals primitives sink fuel) with
  | .ok (some v) m => (.finished ⟨v, m.pending.toList⟩, ⟨globals, primitives, m.heap⟩, m.sink)
  | .ok none m => (.unfinished, ⟨globals, primitives, m.heap⟩, m.sink)
  | .error e m => (.faulted e, ⟨globals, primitives, m.heap⟩, m.sink)

/-- Stores the writes of an outcome in the image. -/
def Outcome.commit (o : Outcome) (image : Image) : EStateM.Result LinkError Image Unit :=
  let ⟨globals, primitives, heap⟩ := image
  match globals.commit o.writes with
  | .error e globals => .error e ⟨globals, primitives, heap⟩
  | .ok () globals => .ok () ⟨globals, primitives, heap⟩

/-- Runs a unit's main body and stores the writes of a run that has succeeded. -/
def LinkedUnit.runAndCommit (unit : LinkedUnit) (image : Image) (sink : Sink) (fuel : Option Nat)
    (patience : Nat) : RunResult × Image × Sink :=
  match unit.run image sink fuel patience with
  | (.finished o, image, sink) =>
    match o.commit image with
    | .ok () image => (.finished o, image, sink)
    | .error e image => (.faulted (.link e), image, sink)
  | (result, image, sink) => (result, image, sink)

end ScriptMachine.Link
