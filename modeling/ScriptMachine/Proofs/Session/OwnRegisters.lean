import ScriptMachine.Proofs.Compile.TwinCode
import ScriptMachine.Proofs.Machine.Stale
import ScriptMachine.Proofs.Session.Fragments

/-!
# Compiled code keeps to its own registers

Frames are never cleared, and a callee's frame takes cells of its caller's. When all functions in a heap
were compiled, that goes unnoticed: what an instruction reads is always what its own activation was
given or has computed since, and no run depends on what else is on the stack. The heap of a session of
the language never has other functions.
-/

namespace ScriptMachine

open Bytecode Compile Machine

namespace Link

/-! ## Compiled functions -/

/-- The heaps whose functions were all put there by linking compiled fragments. What ran in between has
added strings. -/
inductive CompiledHeap : Heap → Prop
  | empty : CompiledHeap .empty
  | strings {heap heap' : Heap} (h : CompiledHeap heap) (hadd : heap.AddsStrings heap') :
    CompiledHeap heap'
  | bind {image image' : Image} {names : Names} {f : Source.Fragment} {c : Compiled} {sizeHint : Nat}
    {unit : LinkedUnit} (h : CompiledHeap image.heap) (hcompile : compileFragment names f = .ok c)
    (hmeasured : c.program.Measured)
    (hbind : bind image c.program sizeHint = .ok (unit, image')) : CompiledHeap image'.heap

section

variable {image image' : Image} {names : Names} {f : Source.Fragment} {c : Compiled} {sizeHint : Nat}
  {unit : LinkedUnit}

/-- Linking a compiled fragment adds functions that never need more than they have. -/
theorem definite_of_bind (h : ∀ f ∈ image.heap.functions, Definite f.arity f.code)
    (hcompile : compileFragment names f = .ok c) (hmeasured : c.program.Measured)
    (hbind : bind image c.program sizeHint = .ok (unit, image'))
    (hsize : image'.heap.functions.size ≤ handleCount) :
    ∀ f ∈ image'.heap.functions, Definite f.arity f.code := by
  obtain ⟨-, -, -, -, hfunctions⟩ := bind_heap hbind hsize
  intro g hg
  rw [hfunctions, Array.mem_append] at hg
  rcases hg with hg | hg
  · exact h g hg
  · rw [List.mem_toArray, List.mem_map] at hg
    obtain ⟨p, hp, rfl⟩ := hg
    exact definite_of_compileFragment hcompile (Nat.le_of_lt hmeasured.strings)
      (Nat.le_of_lt hmeasured.prototypes) p hp

theorem CompiledHeap.definite {heap : Heap} (h : CompiledHeap heap)
    (hsize : heap.functions.size ≤ handleCount) : ∀ f ∈ heap.functions, Definite f.arity f.code := by
  induction h with
  | empty => exact fun f hf => absurd hf (Array.not_mem_empty f)
  | strings _ hadd ih =>
    rw [hadd.functions] at hsize ⊢
    exact ih hsize
  | bind _ hcompile hmeasured hbind ih =>
    exact definite_of_bind (ih ((functions_size_le_of_bind hbind).trans hsize)) hcompile hmeasured
      hbind hsize

/-- The main body of a unit is what its handle leads to. -/
theorem function?_main {program : Program} (hbind : bind image program sizeHint = .ok (unit, image'))
    (hsize : image'.heap.functions.size ≤ handleCount) {g : Function}
    (hg : image'.heap.function? unit.main = some g) : g.code = program.main.code := by
  obtain ⟨hmain, -, -, -, hfunctions⟩ := bind_heap hbind hsize
  have hcount : image'.heap.functions.size =
      image.heap.functions.size + (program.prototypes.size + 1) := by
    simp [hfunctions, Program.bodies]
  unfold handleCount at hsize
  have hindex : unit.main.toNat = image.heap.functions.size + program.prototypes.size := by
    rw [hmain, UInt32.toNat_ofNat']
    exact Nat.mod_eq_of_lt (by omega)
  unfold Heap.function? at hg
  rw [hindex, hfunctions, Array.getElem?_append_right (Nat.le_add_right _ _)] at hg
  simp only [Nat.add_sub_cancel_left, List.getElem?_toArray, List.getElem?_map, Program.bodies,
    List.getElem?_append, Array.length_toList, Nat.lt_irrefl, if_false, Nat.sub_self] at hg
  cases hg
  rfl

/-! ## Runs -/

end

end Link

/-! ## Sessions -/

namespace Session

open Link

/-- A session of the language in whose heap all functions were compiled. -/
structure Homegrown (s : Session) : Prop extends Standard s where
  heap : CompiledHeap s.image.heap

/-- A session in which nothing happened but that the heap has got strings. -/
theorem Homegrown.strings {s t : Session} (h : s.Homegrown) (hcompiler : t.compiler = s.compiler)
    (hbackend : t.linker.backend = s.linker.backend) (hnames : t.names = s.names)
    (hprimitives : t.image.primitives = s.image.primitives)
    (hheap : s.image.heap.AddsStrings t.image.heap) : t.Homegrown where
  compiler := hcompiler.trans h.compiler
  backend := hbackend.trans h.backend
  primitives := hprimitives.trans h.primitives
  order := hnames ▸ h.order
  heap := h.heap.strings hheap

end Session
end ScriptMachine
