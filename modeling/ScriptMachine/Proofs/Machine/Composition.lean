import ScriptMachine.Machine.Step
import Mathlib.Tactic.SplitIfs

/-!
# What instructions are made of

An instruction is made of a few actions, one after the other: it reads registers or globals, computes,
and writes a register or a global, jumps, calls or returns. A property that all of these have, and that
is kept when actions follow one another, is a property of every instruction.
-/

namespace ScriptMachine.Machine

open Bytecode

/-- The instructions that have to do with globals. -/
def UsesGlobals : Opcode → Prop
  | .getGlobal | .setGlobal | .defGlobal => True
  | _ => False

/-- A property of actions that the parts of instructions have, those aside that have to do with
globals, and that is kept when actions follow one another. -/
structure OfParts (P : ∀ {α : Type}, Action α → Prop) : Prop where
  pure : ∀ {α : Type} (x : α), P (pure x : Action α)
  bind : ∀ {α β : Type} {act : Action α} {next : α → Action β}, P act → (∀ x, P (next x)) →
    P (act >>= next)
  noConstant : ∀ index, P (throw (.constantOutOfRange index) : Action Unit)
  reads : ∀ base reg, P (readReg base reg)
  writes : ∀ base reg v, P (writeReg base reg v)
  jumps : ∀ ip, P (jumpTo ip)
  unary : ∀ op v, P (liftFault (unaryResult op v))
  binary : ∀ op v w, P (binaryResult op v w)
  finds : ∀ index, P (primitive index)
  checks : ∀ start count, P (checkArguments start count)
  callsPrimitive : ∀ index start count dest, P (callPrimitive index start count dest)
  callsFunction : ∀ handle start count dest, P (callFunction handle start count dest)
  notCallable : ∀ kind, P (throw (.notCallable kind) : Action Unit)
  leaves : ∀ v, P (leaveFrame v)

/-- A property that the parts have which have to do with globals. -/
structure OfGlobals (P : ∀ {α : Type}, Action α → Prop) : Prop where
  value : ∀ slot, P (globalValue slot)
  assignable : ∀ slot, P (checkAssignable slot)
  write : ∀ slot v, P (writeGlobal slot v)

namespace OfParts

variable {P : ∀ {α : Type}, Action α → Prop}

theorem calls (h : OfParts P) (base a b c : Nat) : P (call base a b c) := by
  refine h.bind (h.reads base b) fun callee => ?_
  refine h.bind (h.checks _ _) fun _ => ?_
  split
  · exact h.callsPrimitive _ _ _ _
  · exact h.callsFunction _ _ _ _
  · exact h.notCallable _

/-- Every instruction has the property; those that use globals have it if the parts for globals do. -/
theorem performs (h : OfParts P) {op : Opcode} (hglobals : UsesGlobals op → OfGlobals P)
    (f : Function) (base : Nat) (w : Word) : P (perform f base op w) := by
  have hwrite : ∀ v : Value, P (do writeReg base w.a v; return (none : Option Value)) :=
    fun v => h.bind (h.writes base w.a v) fun _ => h.pure _
  cases op with
  | loadConst =>
    simp only [perform]
    cases f.constants[w.bx]? with
    | some v => exact hwrite v
    | none => exact h.bind (h.noConstant _) fun _ => h.pure _
  | loadTrue | loadFalse | loadNil => exact hwrite _
  | move => exact h.bind (h.reads base w.b) hwrite
  | neg | logNot => exact h.bind (h.reads base w.b) fun v => h.bind (h.unary _ v) hwrite
  | add | sub | mul | div | mod | eq | notEq | lt | le | gt | ge =>
    refine h.bind (h.reads base w.b) fun v => h.bind (h.reads base w.c) fun u => ?_
    exact h.bind (h.binary _ v u) hwrite
  | jump => exact h.bind (h.jumps _) fun _ => h.pure _
  | jumpIfFalse | jumpIfTrue =>
    refine h.bind (h.reads base w.a) fun v => ?_
    split_ifs
    · exact h.bind (h.jumps _) fun _ => h.pure _
    · exact h.pure _
  | getGlobal => exact h.bind ((hglobals trivial).value _) hwrite
  | setGlobal =>
    refine h.bind ((hglobals trivial).assignable _) fun _ => h.bind (h.reads base w.a) fun v => ?_
    exact h.bind ((hglobals trivial).write _ v) fun _ => h.pure _
  | defGlobal =>
    refine h.bind (h.reads base w.a) fun v => ?_
    exact h.bind ((hglobals trivial).write _ v) fun _ => h.pure _
  | getPrim => exact h.bind (h.finds _) fun _ => hwrite _
  | call => exact h.bind (h.calls _ _ _ _) fun _ => h.pure _
  | ret => exact h.bind (h.reads base w.a) fun v => h.leaves v

end OfParts

end ScriptMachine.Machine
