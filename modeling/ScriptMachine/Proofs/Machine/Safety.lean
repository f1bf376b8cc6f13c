import ScriptMachine.Link.Unit
import ScriptMachine.Proofs.Machine.Natives

/-!
# Safe machines

A machine is safe when its frames lie inside its stack, run functions that are in order, and all that
it can read is live. One step of a safe machine leaves it safe and fails only in ways that the program
brings about; so does every run.
-/

namespace ScriptMachine

open Bytecode Link

/-- A frame inside a stack with this many cells: its function is there, it stands in the code of that
function or at its end, and the function's registers are there. -/
def Frame.Placed (heap : Heap) (cells : Nat) (frame : Frame) : Prop :=
  ∃ f, heap.function? frame.function = some f ∧ frame.ip ≤ f.code.size ∧
    frame.base + f.slots ≤ cells

theorem Frame.Placed.grows {heap heap' : Heap} {cells cells' : Nat} {frame : Frame}
    (h : frame.Placed heap cells) (hg : heap.Grows heap') (hc : cells ≤ cells') :
    frame.Placed heap' cells' := by
  obtain ⟨f, hf, hip, hroom⟩ := h
  exact ⟨f, hg.function? hf, hip, hroom.trans hc⟩

/-- A machine on which verified code does not go wrong. -/
structure Machine.Safe (m : Machine) : Prop where
  heap : m.heap.InOrder m.primitives.count
  primitives : m.primitives.Sound
  globals : ∀ v ∈ m.globals.slots, v.kind ≠ .empty → v.Live m.heap m.primitives.count
  stack_le : m.stack.size ≤ stackLimit
  frames_le : m.frames.length ≤ frameLimit
  frames : ∀ frame ∈ m.frames, frame.Placed m.heap m.stack.size
  dests : ∀ frame ∈ m.frames.dropLast, frame.dest < m.stack.size
  registers : ∀ v ∈ m.stack, v.Live m.heap m.primitives.count
  pending : ∀ (slot : Nat) (v : Value), m.pending[slot]? = some v →
    v.Live m.heap m.primitives.count

/-- What a step of a safe machine leaves when it fails. -/
def FailsSafely (e : Fault) (m : Machine) : Prop :=
  m.Safe ∧ ¬ e.Internal

namespace Machine

/-- A safe machine whose running frame has the function `f` and its registers from `base` on. -/
structure Running (f : Function) (base : Nat) (m : Machine) : Prop where
  safe : m.Safe
  order : f.InOrder m.heap m.primitives.count
  room : base + f.slots ≤ m.stack.size
  top : ∃ frame rest, m.frames = frame :: rest ∧ frame.base = base ∧
    m.heap.function? frame.function = some f

variable {f : Function} {base : Nat}

/-! ## Changes that keep a machine safe -/

theorem Safe.setStack {m : Machine} (h : m.Safe) {i : Nat} {v : Value} (hi : i < m.stack.size)
    (hv : v.Live m.heap m.primitives.count) :
    Safe { m with stack := m.stack.set i v hi } where
  heap := h.heap
  primitives := h.primitives
  globals := h.globals
  stack_le := by simpa using h.stack_le
  frames_le := h.frames_le
  frames := by simpa using h.frames
  dests := by simpa using h.dests
  registers := by
    intro w hw
    rcases Array.mem_or_eq_of_mem_set (w := hi) hw with hw | rfl
    · exact h.registers w hw
    · exact hv
  pending := h.pending

theorem Safe.growStack {m : Machine} (h : m.Safe) {n : Nat} (hn : m.stack.size + n ≤ stackLimit) :
    Safe { m with stack := m.stack ++ Array.replicate n Value.nil } where
  heap := h.heap
  primitives := h.primitives
  globals := h.globals
  stack_le := by simpa using hn
  frames_le := h.frames_le
  frames := fun frame hf => (h.frames frame hf).grows (.refl _) (by simp)
  dests := fun frame hf => lt_of_lt_of_le (h.dests frame hf) (by simp)
  registers := by
    intro w hw
    rcases Array.mem_append.1 hw with hw | hw
    · exact h.registers w hw
    · rw [Array.eq_of_mem_replicate hw]
      exact .nil
  pending := h.pending

theorem Safe.addPending {m : Machine} (h : m.Safe) {slot : Nat} {v : Value}
    (hv : v.Live m.heap m.primitives.count) :
    Safe { m with pending := m.pending.insert slot v } where
  heap := h.heap
  primitives := h.primitives
  globals := h.globals
  stack_le := h.stack_le
  frames_le := h.frames_le
  frames := h.frames
  dests := h.dests
  registers := h.registers
  pending := by
    intro slot' w hw
    rw [Std.TreeMap.getElem?_insert] at hw
    split at hw
    · cases hw
      exact hv
    · exact h.pending slot' w hw

theorem Safe.addStrings {m : Machine} (h : m.Safe) {heap : Heap} {sink : Sink}
    (hadd : m.heap.AddsStrings heap) : Safe { m with heap := heap, sink := sink } where
  heap := h.heap.addsStrings hadd
  primitives := h.primitives
  globals := fun v hv hk => (h.globals v hv hk).grows hadd.grows
  stack_le := h.stack_le
  frames_le := h.frames_le
  frames := fun frame hf => (h.frames frame hf).grows hadd.grows (le_refl _)
  dests := h.dests
  registers := fun v hv => (h.registers v hv).grows hadd.grows
  pending := fun slot v hv => (h.pending slot v hv).grows hadd.grows

theorem Safe.count {m : Machine} (h : m.Safe) (n : Nat) : Safe { m with executed := n } where
  heap := h.heap
  primitives := h.primitives
  globals := h.globals
  stack_le := h.stack_le
  frames_le := h.frames_le
  frames := h.frames
  dests := h.dests
  registers := h.registers
  pending := h.pending

theorem Safe.popFrame {m : Machine} (h : m.Safe) {frame : Frame} {rest : List Frame}
    (hm : m.frames = frame :: rest) : Safe { m with frames := rest } where
  heap := h.heap
  primitives := h.primitives
  globals := h.globals
  stack_le := h.stack_le
  frames_le := by
    have := h.frames_le
    rw [hm, List.length_cons] at this
    exact Nat.le_of_succ_le this
  frames := fun frame' hf => h.frames frame' (by rw [hm]; exact List.mem_cons_of_mem _ hf)
  dests := by
    intro frame' hf
    refine h.dests frame' ?_
    rw [hm]
    cases rest with
    | nil => simp at hf
    | cons g rest => exact List.mem_cons_of_mem _ hf
  registers := h.registers
  pending := h.pending

theorem Safe.pushFrame {m : Machine} (h : m.Safe) {frame : Frame}
    (hne : m.frames ≠ []) (hlen : m.frames.length < frameLimit)
    (hplaced : frame.Placed m.heap m.stack.size) (hdest : frame.dest < m.stack.size) :
    Safe { m with frames := frame :: m.frames } where
  heap := h.heap
  primitives := h.primitives
  globals := h.globals
  stack_le := h.stack_le
  frames_le := Nat.succ_le_of_lt hlen
  frames := by
    intro frame' hf
    rcases List.mem_cons.1 hf with rfl | hf
    · exact hplaced
    · exact h.frames frame' hf
  dests := by
    intro frame' hf
    obtain ⟨g, rest, hg⟩ := List.exists_cons_of_ne_nil hne
    simp only [hg, List.dropLast_cons_cons, List.mem_cons] at hf
    rcases hf with rfl | hf
    · exact hdest
    · exact h.dests frame' (by rwa [hg])
  registers := h.registers
  pending := h.pending

theorem Safe.enterFrame {m : Machine} (h : m.Safe) {frame : Frame} (hm : m.frames = [])
    (hplaced : frame.Placed m.heap m.stack.size) :
    Safe { m with frames := frame :: m.frames } where
  heap := h.heap
  primitives := h.primitives
  globals := h.globals
  stack_le := h.stack_le
  frames_le := by simp [hm, frameLimit]
  frames := by simpa [hm] using hplaced
  dests := by simp [hm]
  registers := h.registers
  pending := h.pending

theorem Safe.moveFrame {m : Machine} (h : m.Safe) {frame : Frame} {rest : List Frame} {ip : Nat}
    (hm : m.frames = frame :: rest) (hf : m.heap.function? frame.function = some f)
    (hip : ip ≤ f.code.size) : Safe { m with frames := { frame with ip } :: rest } where
  heap := h.heap
  primitives := h.primitives
  globals := h.globals
  stack_le := h.stack_le
  frames_le := by
    have := h.frames_le
    rw [hm] at this
    exact this
  frames := by
    intro frame' hf'
    rcases List.mem_cons.1 hf' with rfl | hf'
    · obtain ⟨g, hg, -, hroom⟩ := h.frames frame (by rw [hm]; exact List.mem_cons_self)
      rw [hf] at hg
      cases hg
      exact ⟨f, hf, hip, hroom⟩
    · exact h.frames frame' (by rw [hm]; exact List.mem_cons_of_mem _ hf')
  dests := by
    intro frame' hf'
    have hdests := h.dests
    rw [hm] at hdests
    cases rest with
    | nil => simp at hf'
    | cons g rest =>
      rcases List.mem_cons.1 hf' with rfl | hf'
      · exact hdests frame (by simp)
      · exact hdests frame' (by simp [hf'])
  registers := h.registers
  pending := h.pending

end Machine
end ScriptMachine
