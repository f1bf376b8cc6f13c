import ScriptMachine.Proofs.Machine.SafeSteps
import ScriptMachine.Proofs.Machine.Continuation

/-!
# Verified code does not go wrong

In a heap whose functions were all linked, every function is in order. A unit linked into such an
image runs on safe machines only, under any limit on fuel, and what it hands to the table of globals
are live values.
-/

namespace ScriptMachine

open Bytecode

theorem Bytecode.Word.InRange.grow {slots constants instructions primitives primitives' : Nat}
    {op : Opcode} {w : Word} (h : w.InRange slots constants instructions primitives op)
    (hle : primitives ≤ primitives') : w.InRange slots constants instructions primitives' op :=
  ⟨h.registers, h.constant, h.window, h.target, fun hop => (h.primitive hop).trans_le hle⟩

namespace Link

/-! ## Linked heaps -/

/-- The heaps whose functions were all put there by linking, against at most this many primitives.
What ran in between has added strings. -/
inductive Linked (primitives : Nat) : Heap → Prop
  | empty : Linked primitives .empty
  | strings {heap heap' : Heap} (h : Linked primitives heap) (hadd : heap.AddsStrings heap') :
    Linked primitives heap'
  | bind {image image' : Image} {program : Program} {sizeHint : Nat} {unit : LinkedUnit}
    (h : Linked primitives image.heap) (hcount : image.primitives.count ≤ primitives)
    (hbind : bind image program sizeHint = .ok (unit, image')) : Linked primitives image'.heap

/-- A constant that was checked stands for a live value wherever its program's handles lead
somewhere. -/
theorem live_resolveConstant {heap : Heap} {primitives strings prototypes : Nat}
    {stringHandles functionHandles : Array UInt32} {k : Constant}
    (hk : constantOk strings prototypes k = true)
    (hs : ∀ i < strings, (stringHandles.getD i 0).toNat < heap.strings.size)
    (hf : ∀ i < prototypes, (functionHandles.getD i 0).toNat < heap.functions.size) :
    (resolveConstant stringHandles functionHandles k).Live heap primitives := by
  cases k with
  | int n => exact .int _
  | str i => exact .string _ (hs _ (by simpa [constantOk] using hk))
  | bool b => exact .bool b
  | nil => exact .nil
  | fn i => exact .function _ (hf _ (by simpa [constantOk] using hk))

theorem linkedFunction_inOrder {heap : Heap} {primitives primitives' strings prototypes : Nat}
    {stringHandles functionHandles : Array UInt32} {p : Prototype}
    (hp : p.InOrder strings prototypes primitives) (hle : primitives ≤ primitives')
    (hs : ∀ i < strings, (stringHandles.getD i 0).toNat < heap.strings.size)
    (hf : ∀ i < prototypes, (functionHandles.getD i 0).toNat < heap.functions.size) :
    (linkedFunction stringHandles functionHandles p).InOrder heap primitives' where
  arity_le := hp.arity_le
  constants := by
    intro v hv
    obtain ⟨k, hk, rfl⟩ := Array.mem_map.1 hv
    exact live_resolveConstant (hp.constants k hk) hs hf
  code := by
    intro ip w hw
    obtain ⟨op, hop, hin⟩ := hp.code ip w hw
    refine ⟨op, hop, ?_⟩
    simpa [linkedFunction, bareFunction] using hin.grow hle

/-- What linking a verified program leaves, when its handles do not wrap. -/
theorem bind_heap {image image' : Image} {program : Program} {sizeHint : Nat} {unit : LinkedUnit}
    (hbind : bind image program sizeHint = .ok (unit, image'))
    (hsize : image'.heap.functions.size ≤ handleCount) :
    unit.main = UInt32.ofNat (image.heap.functions.size + program.prototypes.size) ∧
      image'.globals = image.globals ∧ image'.primitives = image.primitives ∧
      image'.heap.strings = image.heap.strings ++ program.strings ∧
      image'.heap.functions = image.heap.functions ++ (program.bodies.map (linkedFunction
        (handlesFrom image.heap.strings.size program.strings.size)
        (handlesFrom image.heap.functions.size program.prototypes.size))).toArray := by
  have hplace := (bind_eq_ok_iff.1 hbind).2
  have hle : image.heap.functions.size + program.bodies.length ≤ handleCount := by
    rw [← place_functions_size image program sizeHint, hplace]
    exact hsize
  obtain ⟨bytes, heq⟩ := place_eq image program sizeHint hle
  rw [hplace] at heq
  cases heq
  exact ⟨rfl, rfl, rfl, rfl, rfl⟩

theorem grows_of_bind {image image' : Image} {program : Program} {sizeHint : Nat}
    {unit : LinkedUnit} (hbind : bind image program sizeHint = .ok (unit, image'))
    (hsize : image'.heap.functions.size ≤ handleCount) : image.heap.Grows image'.heap := by
  obtain ⟨-, -, -, hstrings, hfunctions⟩ := bind_heap hbind hsize
  exact Heap.grows_of_append hstrings hfunctions

/-- Linking a verified program keeps all functions of a heap in order. -/
theorem inOrder_of_bind {image image' : Image} {program : Program} {sizeHint primitives : Nat}
    {unit : LinkedUnit} (h : image.heap.InOrder primitives)
    (hcount : image.primitives.count ≤ primitives)
    (hbind : bind image program sizeHint = .ok (unit, image'))
    (hsize : image'.heap.functions.size ≤ handleCount) : image'.heap.InOrder primitives := by
  have hverify := verify_eq_ok_iff.1 (bind_eq_ok_iff.1 hbind).1
  have hgrows := grows_of_bind hbind hsize
  obtain ⟨-, -, -, hstrings, hfunctions⟩ := bind_heap hbind hsize
  intro i f hf
  rw [hfunctions, Array.getElem?_append] at hf
  split at hf
  · exact (h i f hf).grows hgrows
  · rw [List.getElem?_toArray, List.getElem?_map, Option.map_eq_some_iff] at hf
    obtain ⟨p, hp, rfl⟩ := hf
    refine linkedFunction_inOrder (hverify p (List.mem_of_getElem? hp)) hcount ?_ ?_
    · intro k hk
      rw [getD_handlesFrom hk, hstrings, Array.size_append, UInt32.toNat_ofNat']
      exact lt_of_le_of_lt (Nat.mod_le _ _) (by omega)
    · intro k hk
      rw [getD_handlesFrom hk, hfunctions, Array.size_append, UInt32.toNat_ofNat']
      refine lt_of_le_of_lt (Nat.mod_le _ _) ?_
      simp only [List.size_toArray, List.length_map, Program.bodies, List.length_append,
        Array.length_toList]
      omega

theorem functions_size_le_of_bind {image image' : Image} {program : Program} {sizeHint : Nat}
    {unit : LinkedUnit} (hbind : bind image program sizeHint = .ok (unit, image')) :
    image.heap.functions.size ≤ image'.heap.functions.size := by
  have hplace := (bind_eq_ok_iff.1 hbind).2
  have := place_functions_size image program sizeHint
  rw [hplace] at this
  simp only at this
  omega

/-- All functions of a linked heap are in order, as long as their handles do not wrap. -/
theorem Linked.inOrder {primitives : Nat} {heap : Heap} (h : Linked primitives heap)
    (hsize : heap.functions.size ≤ handleCount) : heap.InOrder primitives := by
  induction h with
  | empty => exact fun i f hf => by simp [Heap.empty] at hf
  | strings _ hadd ih =>
    rw [hadd.functions] at hsize
    exact (ih hsize).addsStrings hadd
  | bind _ hcount hbind ih =>
    exact inOrder_of_bind (ih ((functions_size_le_of_bind hbind).trans hsize)) hcount hbind hsize

/-! ## Runs of linked units -/

section
open Machine

/-- A machine about to run in this image is safe. -/
theorem safe_new {image : Image} (hheap : image.heap.InOrder image.primitives.count)
    (hprimitives : image.primitives.Sound)
    (hglobals : ∀ v ∈ image.globals.slots, v.kind ≠ .empty →
      v.Live image.heap image.primitives.count) (sink : Sink) (fuel : Option Nat) :
    (Machine.new image.heap image.globals image.primitives sink fuel).Safe where
  heap := hheap
  primitives := hprimitives
  globals := hglobals
  stack_le := Nat.zero_le _
  frames_le := Nat.zero_le _
  frames := by simp [Machine.new]
  dests := by simp [Machine.new]
  registers := by simp [Machine.new]
  pending := by simp [Machine.new]

/-- Entering a function leaves a safe machine with the function's frame alone. -/
theorem runs_enter (handle : UInt32) :
    Runs (fun m => m.Safe ∧ handle.toNat < m.heap.functions.size) (enter handle) (fun _ => Safe)
      FailsSafely := by
  rintro m ⟨hm, hlt⟩
  obtain ⟨f, hf⟩ := Heap.function?_of_lt hlt
  have hclear : Safe { m with stack := #[], frames := [] } :=
    { heap := hm.heap, primitives := hm.primitives, globals := hm.globals,
      stack_le := Nat.zero_le _, frames_le := Nat.zero_le _, frames := by simp, dests := by simp,
      registers := by simp, pending := hm.pending }
  have hrest : Runs (fun m => (m.Safe ∧ m.frames = []) ∧ m.heap.function? handle = some f)
      (do ensureRegs 0 f.slots; pushFrame ⟨handle, 0, 0, 0⟩) (fun _ => Safe) FailsSafely := by
    refine (runs_ensureRegs (fun _ h => h.1.1) fun _ _ h hn =>
      ⟨⟨h.1.1.growStack hn, h.1.2⟩, h.2⟩).bind fun _ => ?_
    rintro m ⟨⟨⟨hm, hframes⟩, hf⟩, hroom⟩
    exact hm.enterFrame hframes ⟨f, hf, Nat.zero_le _, hroom⟩
  unfold enter
  simp only [hf]
  exact hrest _ ⟨⟨hclear, rfl⟩, hf⟩

theorem runs_enter_run (handle : UInt32) (n : Nat) :
    Runs (fun m => m.Safe ∧ handle.toNat < m.heap.functions.size) (do enter handle; run n)
      (fun _ => Safe) FailsSafely :=
  (runs_enter handle).bind fun _ => runs_run n

theorem runs_execute (handle : UInt32) (patience : Nat) :
    Runs (fun m => m.Safe ∧ handle.toNat < m.heap.functions.size) (execute handle patience)
      (fun _ => Safe) FailsSafely := by
  refine (runs_enter handle).bind fun _ => Runs.get.bind fun m => ?_
  exact (runs_run _).weaken (fun _ h => h.1) fun _ _ h => h

end

/-- In an image with these properties a linked unit is ready to run. -/
theorem safe_of_bind {image image' : Image} {program : Program} {sizeHint : Nat}
    {unit : LinkedUnit} (hheap : image.heap.InOrder image.primitives.count)
    (hprimitives : image.primitives.Sound)
    (hglobals : ∀ v ∈ image.globals.slots, v.kind ≠ .empty →
      v.Live image.heap image.primitives.count)
    (hbind : bind image program sizeHint = .ok (unit, image'))
    (hsize : image'.heap.functions.size ≤ handleCount) (sink : Sink) (fuel : Option Nat) :
    (Machine.new image'.heap image'.globals image'.primitives sink fuel).Safe ∧
      unit.main.toNat < image'.heap.functions.size := by
  have hgrows := grows_of_bind hbind hsize
  have horder := inOrder_of_bind hheap (le_refl _) hbind hsize
  obtain ⟨hmain, hglobals', hprimitives', hstrings, hfunctions⟩ := bind_heap hbind hsize
  refine ⟨safe_new ?_ ?_ ?_ sink fuel, ?_⟩
  · rwa [hprimitives']
  · rwa [hprimitives']
  · intro v hv hk
    rw [hglobals'] at hv
    rw [hprimitives']
    exact (hglobals v hv hk).grows hgrows
  · rw [hmain, hfunctions, Array.size_append, UInt32.toNat_ofNat']
    refine lt_of_le_of_lt (Nat.mod_le _ _) ?_
    simp [Program.bodies]

/-- A run ends properly: not with a fault of the machine itself, and with no empty value to store. -/
def RunResult.Proper : RunResult → Prop
  | .finished o => ∀ w ∈ o.writes, w.2.kind ≠ .empty
  | .faulted e => ¬ e.Internal
  | .unfinished => True

theorem LinkedUnit.run_eq (unit : LinkedUnit) (image : Image) (sink : Sink) (fuel : Option Nat)
    (patience : Nat) : unit.run image sink fuel patience =
      match Machine.execute unit.main patience
          (.new image.heap image.globals image.primitives sink fuel) with
      | .ok (some v) m => (.finished ⟨v, m.pending.toList⟩, { image with heap := m.heap }, m.sink)
      | .ok none m => (.unfinished, { image with heap := m.heap }, m.sink)
      | .error e m => (.faulted e, { image with heap := m.heap }, m.sink) := rfl

/-- How the run of a unit that is ready ends: on a safe machine, whose heap and output it hands
back. -/
theorem run_ends {unit : LinkedUnit} {image : Image} {sink : Sink} {fuel : Option Nat}
    (patience : Nat) (hadd : image.primitives.Additive)
    (h : (Machine.new image.heap image.globals image.primitives sink fuel).Safe ∧
      unit.main.toNat < image.heap.functions.size) :
    ∃ m : Machine, m.Safe ∧
      (Machine.new image.heap image.globals image.primitives sink fuel).Continues m ∧
      (unit.run image sink fuel patience).2 = ({ image with heap := m.heap }, m.sink) ∧
      ((∃ v, (unit.run image sink fuel patience).1 = .finished ⟨v, m.pending.toList⟩) ∨
        (∃ e, (unit.run image sink fuel patience).1 = .faulted e ∧ ¬ e.Internal) ∨
        (unit.run image sink fuel patience).1 = .unfinished) := by
  have hruns := runs_execute unit.main patience _ h
  have hkeeps := Machine.keeps_execute hadd unit.main patience _
    (.refl (Machine.new image.heap image.globals image.primitives sink fuel))
  rw [unit.run_eq]
  cases hr : Machine.execute unit.main patience
      (.new image.heap image.globals image.primitives sink fuel) with
  | error e m =>
    rw [hr] at hruns hkeeps
    exact ⟨m, hruns.1, hkeeps, rfl, .inr (.inl ⟨e, rfl, hruns.2⟩)⟩
  | ok r m =>
    rw [hr] at hruns hkeeps
    cases r with
    | none => exact ⟨m, hruns, hkeeps, rfl, .inr (.inr rfl)⟩
    | some v => exact ⟨m, hruns, hkeeps, rfl, .inl ⟨v, rfl⟩⟩

/-- A run changes its image by adding strings to the heap. -/
theorem run_adds_strings (unit : LinkedUnit) (image : Image) (hadd : image.primitives.Additive)
    (sink : Sink) (fuel : Option Nat) (patience : Nat) :
    image.heap.AddsStrings (unit.run image sink fuel patience).2.1.heap := by
  have hkeeps := Machine.keeps_execute
    (m := .new image.heap image.globals image.primitives sink fuel) hadd unit.main patience _
    (.refl _)
  rw [unit.run_eq]
  cases hr : Machine.execute unit.main patience
      (.new image.heap image.globals image.primitives sink fuel) with
  | error e m =>
    rw [hr] at hkeeps
    exact hkeeps.heap
  | ok r m =>
    rw [hr] at hkeeps
    cases r with
    | none => exact hkeeps.heap
    | some v => exact hkeeps.heap

theorem proper_run {unit : LinkedUnit} {image : Image} {sink : Sink} {fuel : Option Nat}
    {patience : Nat} (hadd : image.primitives.Additive)
    (h : (Machine.new image.heap image.globals image.primitives sink fuel).Safe ∧
      unit.main.toNat < image.heap.functions.size) :
    (unit.run image sink fuel patience).1.Proper := by
  obtain ⟨m, hm, -, -, ⟨v, hr⟩ | ⟨e, hr, he⟩ | hr⟩ := run_ends patience hadd h <;> rw [hr]
  · rintro ⟨slot, w⟩ hw
    rw [Std.TreeMap.mem_toList_iff_getElem?_eq_some] at hw
    exact (hm.pending slot w hw).kind_ne_empty
  · exact he
  · exact trivial

/-- Verified code does not go wrong. When a unit has been linked into an image whose other functions
were linked too, whose primitives are standard ones, and whose globals are live, then its run is on
safe machines after any number of steps, and it ends properly, whatever fuel it has. -/
theorem run_of_linked {image image' : Image} {program : Program} {sizeHint : Nat}
    {unit : LinkedUnit} (hheap : Linked image.primitives.count image.heap)
    (hprimitives : ∀ p ∈ image.primitives.entries, p ∈ Standard.primitives)
    (hglobals : ∀ v ∈ image.globals.slots, v.kind ≠ .empty →
      v.Live image.heap image.primitives.count)
    (hbind : bind image program sizeHint = .ok (unit, image'))
    (hsize : image'.heap.functions.size ≤ handleCount) (sink : Sink) (fuel : Option Nat) :
    (∀ n, Runs (· = Machine.new image'.heap image'.globals image'.primitives sink fuel)
        (do Machine.enter unit.main; Machine.run n) (fun _ => Machine.Safe) FailsSafely) ∧
      ∀ patience, (unit.run image' sink fuel patience).1.Proper := by
  have horder := hheap.inOrder ((functions_size_le_of_bind hbind).trans hsize)
  have hsound : image.primitives.Sound := fun p hp => Standard.sound_primitives p (hprimitives p hp)
  have hready := safe_of_bind horder hsound hglobals hbind hsize sink fuel
  refine ⟨fun n => ?_, fun patience => ?_⟩
  · rintro m rfl
    exact runs_enter_run unit.main n _ hready
  · refine proper_run (fun p hp => Standard.additive_primitives p (hprimitives p ?_)) hready
    rwa [(bind_heap hbind hsize).2.2.1] at hp

/-- A program that binds a string to the global slot 0 and calls the primitive `len` on it. -/
def measuringProgram : Program :=
  ⟨#["abc"], #[], ⟨"main", 0, 2, #[.str 0], #[.abx .loadConst 1 0, .abx .defGlobal 1 0,
    .abx .getPrim 0 1, .abc .call 0 0 1, .abc .ret 0 0 0]⟩⟩

theorem measuringProgram_run : ∃ unit image,
    bind .standard measuringProgram 5 = .ok (unit, image) ∧
      image.heap.functions.size ≤ handleCount ∧
      (∀ n, Runs (· = Machine.new image.heap image.globals image.primitives .unbounded (some 9))
        (do Machine.enter unit.main; Machine.run n) (fun _ => Machine.Safe) FailsSafely) ∧
      (unit.run image .unbounded (some 9) 0).1.Proper := by
  have hbind : bind .standard measuringProgram 5 = .ok (place .standard measuringProgram 5) :=
    bind_eq_ok_iff.2 ⟨by decide, rfl⟩
  have hsize : (place .standard measuringProgram 5).2.heap.functions.size ≤ handleCount := by
    rw [place_functions_size]
    decide
  have hprimitives : ∀ p ∈ Image.standard.primitives.entries, p ∈ Standard.primitives :=
    fun p hp => Array.mem_toList_iff.2 hp
  have h := run_of_linked .empty hprimitives (by simp [Image.standard, GlobalTable.empty]) hbind
    hsize .unbounded (some 9)
  exact ⟨_, _, hbind, hsize, h.1, h.2 0⟩

end Link
end ScriptMachine
