import ScriptMachine.Proofs.Bytecode.Words
import ScriptMachine.Proofs.Simulation.Primitives
import ScriptMachine.Proofs.Simulation.Simulates

/-!
# States that match

A machine matches a store when its globals stand for the store's, its output is the same, and the
registers of the locals in scope stand for the locals. A function in the middle of its code owns the
registers from its base on; what lies below belongs to its callers and stays as it was.
-/

namespace ScriptMachine

open Bytecode Compile Evaluation

namespace Simulation

variable {σ : Slots} {n : Nat}

/-! ## Globals and output -/

/-- The globals of a machine stand for those of a store, of which exactly the first `n` are bound,
and the output is the same. -/
structure Matches (σ : Slots) (n : Nat) (m : Machine) (s : Store) : Prop where
  sink : m.sink = s.sink
  primitives : m.primitives = .standard
  globals : ∀ slot : Nat, Option.Rel (Stands σ n m.heap) (m.global? slot) (s.globals slot)
  bound : ∀ slot, (s.globals slot).isSome ↔ slot < n

namespace Matches

variable {m : Machine} {s : Store}

theorem grow {heap : Heap} {sink : Sink} (h : Matches σ n m s) (hadd : m.heap.AddsStrings heap) :
    Matches σ n { m with heap, sink } { s with sink } where
  sink := rfl
  primitives := h.primitives
  globals slot := rel_mono (fun _ _ hv => hv.grows hadd.grows) (h.globals slot)
  bound := h.bound

theorem additive (h : Matches σ n m s) : m.primitives.Additive := by
  rw [h.primitives]
  exact Registry.additive_standard

/-- A slot that the store binds can be read. -/
theorem globalValue_eq (h : Matches σ n m s) {slot : Nat} {d : Datum} (hd : s.globals slot = some d) :
    ∃ v, Machine.globalValue slot m = .ok v m ∧ Stands σ n m.heap v d := by
  have hrel := h.globals slot
  rw [hd] at hrel
  cases hg : m.global? slot with
  | none =>
    rw [hg] at hrel
    cases hrel
  | some v =>
    rw [hg] at hrel
    cases hrel with
    | some hv => exact ⟨v, Machine.globalValue_ok_iff.2 ⟨rfl, hg, hv.kind_ne_empty⟩, hv⟩

/-- A slot that the store binds can be assigned to. -/
theorem checkAssignable_eq (h : Matches σ n m s) {slot : Nat} {d : Datum}
    (hd : s.globals slot = some d) : Machine.checkAssignable slot m = .ok () m := by
  obtain ⟨v, hv, -⟩ := h.globalValue_eq hd
  unfold Machine.checkAssignable
  split_ifs
  · rfl
  · rw [hv]

/-- A write to a slot. -/
theorem write (h : Matches σ n m s) {n' slot : Nat} {v : Value} {d : Datum}
    (hv : Stands σ n' m.heap v d) (hle : n ≤ n') (hn : ∀ i, i < n' ↔ i < n ∨ i = slot) :
    Matches σ n' { m with pending := m.pending.insert slot v } (s.setGlobal slot d) where
  sink := h.sink
  primitives := h.primitives
  globals := by
    intro i
    show Option.Rel _ (((m.pending.insert slot v)[i]?).or m.globals.slots[i]?)
      (if i = slot then some d else s.globals i)
    rw [Std.TreeMap.getElem?_insert]
    by_cases hi : i = slot
    · subst hi
      rw [if_pos Std.ReflCmp.compare_self, if_pos rfl]
      exact .some hv
    · have hne : ¬ compare slot i = .eq := fun he => hi (Std.LawfulEqCmp.eq_of_compare he).symm
      rw [if_neg hne, if_neg hi]
      exact rel_mono (fun _ _ hw => hw.mono hle) (h.globals i)
  bound := by
    intro i
    show (if i = slot then some d else s.globals i).isSome ↔ i < n'
    rw [hn i]
    split_ifs with hslot
    · exact iff_of_true rfl (.inr hslot)
    · rw [h.bound i, or_iff_left hslot]

end Matches

/-! ## Activations -/

/-- One activation of a function: where its frame is, the frames of its callers, and the stack that
it found. -/
structure Activation where
  handle : UInt32
  base : Nat
  dest : Nat
  callers : List Frame
  below : Array Value

/-- The frame of an activation that stands at an instruction. -/
def Activation.frame (A : Activation) (ip : Nat) : Frame :=
  ⟨A.handle, ip, A.base, A.dest⟩

/-- An activation can return where its code does: it was called, and its result goes to a cell of
the caller. -/
def Activation.Called (A : Activation) (C : Coding) : Prop :=
  C.returns = true → A.callers ≠ [] ∧ A.dest < A.base

/-- A register of an activation stands for a datum. -/
def Reg (σ : Slots) (n : Nat) (A : Activation) (m : Machine) (r : Nat) (d : Datum) : Prop :=
  ∃ v, m.stack[A.base + r]? = some v ∧ Stands σ n m.heap v d

/-- The machine stands in front of instruction `i` of an activation, in a scope whose locals are
those of the store. -/
structure Here (σ : Slots) (n : Nat) (A : Activation) (C : Coding) (sc : Scope) (i : Nat) (s : Store)
    (m : Machine) : Prop where
  frames : m.frames = A.frame i :: A.callers
  code : ∃ g, m.heap.function? A.handle = some g ∧ Has m.heap g C
  room : A.base + C.slots ≤ m.stack.size
  locals : List.Forall₂ (fun x y => x.1 = y.1 ∧ Reg σ n A m y.2 x.2) s.locals sc.locals
  size_le : A.below.size ≤ m.stack.size
  below : ∀ cell < A.base, m.stack[cell]? = A.below[cell]?
  matched : Matches σ n m s

/-- The activation has returned a value to its caller. -/
structure Returned (σ : Slots) (n : Nat) (A : Activation) (d : Datum) (s : Store) (m : Machine) :
    Prop where
  called : A.callers ≠ []
  frames : m.frames = A.callers
  value : ∃ v, m.stack[A.dest]? = some v ∧ Stands σ n m.heap v d
  size_le : A.below.size ≤ m.stack.size
  below : ∀ cell < A.base, cell ≠ A.dest → m.stack[cell]? = A.below[cell]?
  matched : Matches σ n m s

/-- The registers in use, but for the target and those of locals, are as they were. -/
structure Kept (A : Activation) (sc : Scope) (t : Nat) (m m' : Machine) : Prop where
  grows : m.heap.Grows m'.heap
  regs : ∀ r < sc.top, r ≠ t → (∀ x ∈ sc.locals, x.2 ≠ r) →
    m'.stack[A.base + r]? = m.stack[A.base + r]?

variable {A : Activation} {C : Coding} {sc : Scope} {s : Store} {m m' m'' : Machine} {d : Datum}
  {i t r : Nat}

theorem Reg.grows {o : Machine} (h : Reg σ n A m r d) (hg : m.heap.Grows o.heap)
    (hstack : o.stack[A.base + r]? = m.stack[A.base + r]?) : Reg σ n A o r d := by
  obtain ⟨v, hv, hd⟩ := h
  exact ⟨v, hstack.trans hv, hd.grows hg⟩

theorem Reg.mono {n' : Nat} (h : Reg σ n A m r d) (hle : n ≤ n') : Reg σ n' A m r d := by
  obtain ⟨v, hv, hd⟩ := h
  exact ⟨v, hv, hd.mono hle⟩

namespace Kept

theorem of_eq (hheap : m'.heap = m.heap) (hstack : m'.stack = m.stack) : Kept A sc t m m' := by
  refine ⟨?_, fun r _ _ _ => by rw [hstack]⟩
  rw [hheap]
  exact .refl _

theorem trans (h : Kept A sc t m m') (h' : Kept A sc t m' m'') : Kept A sc t m m'' :=
  ⟨h.grows.trans h'.grows, fun r hr ht hl => (h'.regs r hr ht hl).trans (h.regs r hr ht hl)⟩

theorem store {v : Value} : Kept A sc t m (m.store (A.base + t) v) :=
  ⟨.refl _, fun _ _ hr _ => Machine.store_ne (by omega)⟩

/-- What has used registers above those in use has left these alone. -/
theorem above {sc' : Scope} {t' : Nat} (h : Kept A sc' t' m m') (hlocals : sc'.locals = sc.locals)
    (htop : sc.top ≤ sc'.top) (ht : t' = t ∨ sc.top ≤ t') : Kept A sc t m m' :=
  ⟨h.grows, fun r hr hne hl => h.regs r (by omega) (by omega) (by rwa [hlocals])⟩

theorem reg (h : Kept A sc t m m') (hr : Reg σ n A m r d) (hlt : r < sc.top) (hne : r ≠ t)
    (hl : ∀ x ∈ sc.locals, x.2 ≠ r) : Reg σ n A m' r d :=
  hr.grows h.grows (h.regs r hlt hne hl)

end Kept

end Simulation
end ScriptMachine
