import ScriptMachine.Machine.Fault
import Std.Data.TreeMap.Basic

/-!
# Globals

The table of global slots only grows, and growth moves nothing. A run does not touch the table: its
writes are collected beside it, in the order of their slots, and are stored when the run has
succeeded.
-/

namespace ScriptMachine

/-- The global slots of an image; a slot that was never bound is empty. -/
structure GlobalTable where
  slots : Array Value
deriving DecidableEq

/-- Writes to global slots: the value that a slot was last given, by slot. -/
abbrev Writes := Std.TreeMap Nat Value

namespace GlobalTable

/-- The table without slots. -/
def empty : GlobalTable :=
  ⟨#[]⟩

/-- The number of slots. -/
def length (t : GlobalTable) : Nat :=
  t.slots.size

/-- Grows the table to at least `n` slots; the new ones are empty. -/
def ensureLength (t : GlobalTable) (n : Nat) : GlobalTable :=
  ⟨t.slots ++ Array.replicate (n - t.length) Value.empty⟩

/-- The value in a slot. -/
def get (t : GlobalTable) (slot : Nat) : Except LinkError Value :=
  match t.slots[slot]? with
  | some v => .ok v
  | none => .error (.slotOutOfRange slot t.length)

/-- Stores a value in a slot. -/
def set (t : GlobalTable) (slot : Nat) (v : Value) : Except LinkError GlobalTable :=
  if h : slot < t.slots.size then .ok ⟨t.slots.set slot v h⟩
  else .error (.slotOutOfRange slot t.length)

/-- Whether a slot exists and holds a value. -/
def isBound (t : GlobalTable) (slot : Nat) : Bool :=
  t.slots[slot]?.any fun v => v.kind != .empty

/-- The number of slots that hold a value. -/
def boundCount (t : GlobalTable) : Nat :=
  t.slots.countP fun v => v.kind != .empty

/-- Stores each write in turn, until one has no slot. The table is there in either case. -/
def setAll (t : GlobalTable) :
    List (Nat × Value) → EStateM.Result LinkError GlobalTable Unit
  | [] => .ok () t
  | (slot, v) :: rest =>
    if h : slot < t.slots.size then setAll ⟨t.slots.set slot v h⟩ rest
    else .error (.slotOutOfRange slot t.length) t

/-- The length of the shortest table that holds all writes. -/
def lengthFor (writes : List (Nat × Value)) : Nat :=
  writes.foldl (fun n w => max n (w.1 + 1)) 0

/-- Grows the table to hold all writes, then stores them in turn. -/
def commit (t : GlobalTable) (writes : List (Nat × Value)) :
    EStateM.Result LinkError GlobalTable Unit :=
  (t.ensureLength (lengthFor writes)).setAll writes

end GlobalTable
end ScriptMachine
