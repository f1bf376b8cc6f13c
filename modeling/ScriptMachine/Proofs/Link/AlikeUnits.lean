import ScriptMachine.Proofs.Link.Soundness
import ScriptMachine.Proofs.Machine.AlikeSteps

/-!
# Units in alike images

A program that is linked into two alike images leaves them alike, and its runs come to the same end
in both, as long as the handles last.
-/

namespace ScriptMachine

open Bytecode

/-- Handles can tell all strings and functions of a heap apart. -/
structure Heap.Roomy (h : Heap) : Prop where
  strings : h.strings.size ≤ handleCount
  functions : h.functions.size ≤ handleCount

theorem Heap.Roomy.not_full {h : Heap} (hroom : h.Roomy) : ¬ h.Full :=
  fun hfull => absurd hroom.strings (Nat.not_le.2 hfull)

namespace Link

variable {ρ : Shift} {h k h' k' : Heap} {program : Program}

theorem length_bodies (program : Program) :
    program.bodies.length = program.prototypes.size + 1 := by
  simp [Program.bodies]

/-- The main body stands behind the functions. -/
theorem getElem?_bodies_main (program : Program) :
    program.bodies[program.prototypes.size]? = some program.main := by
  rw [Program.bodies, List.getElem?_append_right (by simp)]
  simp

theorem getElem?_bodies {i : Nat} (h : i < program.prototypes.size) :
    program.bodies[i]? = some program.prototypes[i] := by
  rw [Program.bodies, List.getElem?_append_left (by simpa using h)]
  simp [h]

/-- Both heaps hold a program's strings and functions behind their own. -/
structure Placed (program : Program) (h h' : Heap) : Prop where
  strings : h'.strings = h.strings ++ program.strings
  functions : h'.functions = h.functions ++ (program.bodies.map (linkedFunction
    (handlesFrom h.strings.size program.strings.size)
    (handlesFrom h.functions.size program.prototypes.size))).toArray

theorem Placed.grows (p : Placed program h h') : h.Grows h' :=
  Heap.grows_of_append p.strings p.functions

theorem Placed.functions_size (p : Placed program h h') :
    h'.functions.size = h.functions.size + program.bodies.length := by
  rw [p.functions]
  simp

theorem Placed.few (p : Placed program h h') (hroom : h'.Roomy) :
    program.strings.size ≤ 2 ^ 32 ∧ program.prototypes.size ≤ 2 ^ 32 := by
  have hstrings := hroom.strings
  have hfunctions := hroom.functions
  rw [p.strings, Array.size_append, handleCount] at hstrings
  rw [p.functions_size, length_bodies, handleCount] at hfunctions
  omega

/-- The strings of a placed program are found under the handles that it was given. -/
theorem Placed.string? (p : Placed program h h') (hsize : h'.strings.size ≤ handleCount) {i : Nat}
    (hi : i < program.strings.size) :
    h'.string? (UInt32.ofNat (h.strings.size + i)) = program.strings[i]? := by
  rw [p.strings, Array.size_append] at hsize
  rw [Heap.string?, toNat_ofNat_of_lt (by omega), p.strings, Array.getElem?_append_right (by omega),
    Nat.add_sub_cancel_left]

/-- The bodies of a placed program stand behind the functions of the heap. -/
theorem Placed.getElem?_functions (p : Placed program h h') {i : Nat} {b : Prototype}
    (hb : program.bodies[i]? = some b) :
    h'.functions[h.functions.size + i]? = some (linkedFunction
      (handlesFrom h.strings.size program.strings.size)
      (handlesFrom h.functions.size program.prototypes.size) b) := by
  rw [p.functions, Array.getElem?_append_right (Nat.le_add_right _ _), Nat.add_sub_cancel_left,
    List.getElem?_toArray, List.getElem?_map, hb, Option.map_some]

/-- They are found under the handles that they were given. -/
theorem Placed.function? (p : Placed program h h') (hsize : h'.functions.size ≤ handleCount)
    {i : Nat} {b : Prototype} (hb : program.bodies[i]? = some b) :
    h'.function? (UInt32.ofNat (h.functions.size + i)) = some (linkedFunction
      (handlesFrom h.strings.size program.strings.size)
      (handlesFrom h.functions.size program.prototypes.size) b) := by
  have hi := (List.getElem?_eq_some_iff.1 hb).1
  rw [p.functions_size] at hsize
  rw [Heap.function?, toNat_ofNat_of_lt (by omega), p.getElem?_functions hb]

theorem placed_of_bind {image image' : Image} {sizeHint : Nat} {unit : LinkedUnit}
    (hbind : bind image program sizeHint = .ok (unit, image'))
    (hsize : image'.heap.functions.size ≤ handleCount) : Placed program image.heap image'.heap :=
  have hheap := (bind_heap hbind hsize).2.2.2
  ⟨hheap.1, hheap.2⟩

/-- A constant that was checked means the same in both images. -/
theorem alike_resolveConstant (a : h.Alike ρ k) (p : Placed program h h')
    (q : Placed program k k') (hroom : k'.Roomy) (hroom' : h'.Roomy) {c : Constant}
    (hc : constantOk program.strings.size program.prototypes.size c = true) :
    (resolveConstant (handlesFrom h.strings.size program.strings.size)
      (handlesFrom h.functions.size program.prototypes.size) c).Alike ρ h' k'
      (resolveConstant (handlesFrom k.strings.size program.strings.size)
        (handlesFrom k.functions.size program.prototypes.size) c) := by
  cases c with
  | int n => exact .int _
  | bool b => exact .bool b
  | nil => exact .nil
  | str i =>
    have hi : i.toNat < program.strings.size := by simpa [constantOk] using hc
    simp only [resolveConstant, getD_handlesFrom hi]
    have hs := Array.getElem?_eq_getElem hi
    exact .string ((p.string? hroom'.strings hi).trans hs) ((q.string? hroom.strings hi).trans hs)
  | fn i =>
    have hi : i.toNat < program.prototypes.size := by simpa [constantOk] using hc
    have hbodies := length_bodies program
    have hsize := hroom.functions
    have hsize' := hroom'.functions
    have hp := p.functions_size
    have hq := q.functions_size
    simp only [resolveConstant, getD_handlesFrom hi]
    refine .function ?_ ?_
    · rw [toNat_ofNat_of_lt (by omega)]
      omega
    · have hle := a.start_le
      rw [toNat_ofNat_of_lt (by omega), toNat_ofNat_of_lt (by omega), Shift.place_of_le (by omega),
        a.functions_size]
      omega

/-- Alike heaps stay alike when one program is placed in both. -/
theorem alike_placed (a : h.Alike ρ k) (p : Placed program h h') (q : Placed program k k')
    (hroom : k'.Roomy)
    (hverify : ∀ b ∈ program.bodies, ∀ c ∈ b.constants,
      constantOk program.strings.size program.prototypes.size c = true) : h'.Alike ρ k' := by
  have hstrings := a.strings_le
  have hsize := a.functions_size
  have hp := p.functions_size
  have hq := q.functions_size
  have hroom' : h'.Roomy := by
    have hs := hroom.strings
    have hf := hroom.functions
    rw [q.strings, Array.size_append] at hs
    constructor
    · rw [p.strings, Array.size_append]
      omega
    · omega
  refine ⟨?_, a.start_le.trans p.grows.functions_size, by omega, ?_⟩
  · rw [p.strings, q.strings, Array.size_append, Array.size_append]
    omega
  · intro i f hf
    rw [p.functions, Array.getElem?_append] at hf
    split_ifs at hf with hi
    · obtain ⟨g, hg, hfg⟩ := a.functions i f hf
      exact ⟨g, q.grows.functions _ g hg, hfg.grows p.grows q.grows⟩
    · rw [List.getElem?_toArray, List.getElem?_map, Option.map_eq_some_iff] at hf
      obtain ⟨b, hb, rfl⟩ := hf
      have hle := a.start_le
      refine ⟨linkedFunction (handlesFrom k.strings.size program.strings.size)
        (handlesFrom k.functions.size program.prototypes.size) b, ?_, rfl, rfl, rfl, rfl, ?_⟩
      · rw [Shift.place_of_le (by omega), q.functions, Array.getElem?_append_right (by omega),
          List.getElem?_toArray, List.getElem?_map, Option.map_eq_some_iff]
        refine ⟨b, ?_, rfl⟩
        rw [← hb]
        congr 1
        omega
      · intro j
        simp only [linkedFunction, Array.getElem?_map]
        cases hj : b.constants[j]? with
        | none => exact .none
        | some c =>
          have hc := hverify b (List.mem_of_getElem? hb) c (Array.mem_of_getElem? hj)
          exact .some (alike_resolveConstant a p q hroom hroom' hc)

end Link

/-! ## Alike images -/

/-- Images that hold alike globals in alike heaps, and the same primitives, which cannot tell such
heaps apart. -/
structure Image.Alike (ρ : Shift) (i j : Image) : Prop where
  heap : i.heap.Alike ρ j.heap
  globals : AlikeArrays ρ i.heap j.heap i.globals.slots j.globals.slots
  primitives : i.primitives = j.primitives
  additive : i.primitives.Additive
  insensitive : i.primitives.Insensitive

namespace Link

variable {ρ : Shift} {i j : Image}

/-- Linking one program into alike images leaves them alike, with its main body at matching
places. -/
theorem alike_place (a : i.Alike ρ j) {program : Program} {sizeHint : Nat}
    {unit unit' : LinkedUnit} {i' j' : Image} (hi : place i program sizeHint = (unit, i'))
    (hj : place j program sizeHint = (unit', j'))
    (hverify : verify program j.primitives.count = .ok ()) (hroom : j'.heap.Roomy) :
    i'.Alike ρ j' ∧ unit.main.toNat < i'.heap.functions.size ∧
      unit'.main.toNat = ρ.place unit.main.toNat := by
  have hroomy := hroom.functions
  have hsize : i'.heap.functions.size ≤ handleCount := by
    have hi' := place_functions_size i program sizeHint
    have hj' := place_functions_size j program sizeHint
    have hfunctions := a.heap.functions_size
    rw [hi] at hi'
    rw [hj] at hj'
    simp only at hi' hj'
    omega
  obtain ⟨hmain, hglobals, hprimitives, hstrings, hfunctions⟩ :=
    bind_heap (bind_eq_ok_iff.2 ⟨hverify, hj⟩) hroomy
  obtain ⟨hmain', hglobals', hprimitives', hstrings', hfunctions'⟩ :=
    bind_heap (bind_eq_ok_iff.2 ⟨a.primitives ▸ hverify, hi⟩) hsize
  have p : Placed program i.heap i'.heap := ⟨hstrings', hfunctions'⟩
  have q : Placed program j.heap j'.heap := ⟨hstrings, hfunctions⟩
  have hheap := alike_placed a.heap p q hroom fun b hb c hc =>
    (verify_eq_ok_iff.1 hverify b hb).constants c hc
  have hbodies : program.bodies.length = program.prototypes.size + 1 := by simp [Program.bodies]
  have hp := p.functions_size
  have hq := q.functions_size
  refine ⟨⟨hheap, ?_, ?_, ?_, ?_⟩, ?_, ?_⟩
  · rw [hglobals, hglobals']
    exact a.globals.grows p.grows q.grows
  · rw [hprimitives, hprimitives', a.primitives]
  · rw [hprimitives']
    exact a.additive
  · rw [hprimitives']
    exact a.insensitive
  · rw [hmain', toNat_ofNat_of_lt (by omega)]
    omega
  · have hle := a.heap.start_le
    rw [hmain, hmain', toNat_ofNat_of_lt (by omega), toNat_ofNat_of_lt (by omega),
      Shift.place_of_le (by omega), a.heap.functions_size]
    omega

/-- Results of runs on machines `m` and `n` that go together. -/
inductive RunResult.Alike (ρ : Shift) (m n : Machine) : RunResult → RunResult → Prop
  | finished {v w : Value} (hv : v.Alike ρ m.heap n.heap w) :
    Alike ρ m n (.finished ⟨v, m.pending.toList⟩) (.finished ⟨w, n.pending.toList⟩)
  | faulted (e : Fault) : Alike ρ m n (.faulted e) (.faulted e)
  | unfinished : Alike ρ m n .unfinished .unfinished

/-- The image that a run leaves, read off from the machine. -/
theorem image_of_continues {m : Machine} {sink : Sink} {fuel : Option Nat}
    (h : (Machine.new i.heap i.globals i.primitives sink fuel).Continues m) :
    ({ i with heap := m.heap } : Image) = ⟨m.globals, m.primitives, m.heap⟩ := by
  rw [h.globals, h.primitives]
  rfl

/-- Units at matching places run alike, unless the handles run out. -/
theorem alike_run (a : i.Alike ρ j) {text text' : String} {unit unit' : LinkedUnit}
    {sink sink' : Sink} (hsink : sink.Alike text text' sink') {fuel : Option Nat} {patience : Nat}
    (hmain : unit.main.toNat < i.heap.functions.size)
    (hplace : unit'.main.toNat = ρ.place unit.main.toNat)
    (hroom : (unit'.run j sink' fuel patience).2.1.heap.Roomy) :
    ∃ m n : Machine, m.Alike ρ text text' n ∧
      (unit.run i sink fuel patience).2 = (⟨m.globals, m.primitives, m.heap⟩, m.sink) ∧
      (unit'.run j sink' fuel patience).2 = (⟨n.globals, n.primitives, n.heap⟩, n.sink) ∧
      RunResult.Alike ρ m n (unit.run i sink fuel patience).1
        (unit'.run j sink' fuel patience).1 := by
  have hstart : (Machine.new i.heap i.globals i.primitives sink fuel).Alike ρ text text'
      (.new j.heap j.globals j.primitives sink' fuel) :=
    ⟨a.heap, a.globals, a.primitives, a.additive, a.insensitive, fun _ => by simp [Machine.new],
      fun _ => .none, .nil, hsink, rfl, rfl⟩
  have hends := Machine.along_execute hplace patience _ _ ⟨hstart, hmain⟩
  have hkeeps := Machine.endState_continues (Machine.keeps_execute
    (m := .new i.heap i.globals i.primitives sink fuel) a.additive unit.main patience)
  have hkeeps' := Machine.endState_continues (Machine.keeps_execute
    (m := .new j.heap j.globals j.primitives sink' fuel) (a.primitives ▸ a.additive) unit'.main
    patience)
  rw [unit'.run_eq] at hroom ⊢
  rw [unit.run_eq]
  revert hends hroom hkeeps hkeeps'
  generalize Machine.execute unit.main patience _ = r
  generalize Machine.execute unit'.main patience _ = r'
  intro hroom hends hkeeps hkeeps'
  cases hends with
  | error h =>
    exact ⟨_, _, h, Prod.ext (image_of_continues hkeeps) rfl,
      Prod.ext (image_of_continues hkeeps') rfl, .faulted _⟩
  | ok h =>
    obtain ⟨hmn, hvalue⟩ := h
    cases hvalue with
    | none =>
      exact ⟨_, _, hmn, Prod.ext (image_of_continues hkeeps) rfl,
        Prod.ext (image_of_continues hkeeps') rfl, .unfinished⟩
    | some hv =>
      exact ⟨_, _, hmn, Prod.ext (image_of_continues hkeeps) rfl,
        Prod.ext (image_of_continues hkeeps') rfl, .finished hv⟩
  | full hfull =>
    cases r' with
    | error e n => exact absurd hfull hroom.not_full
    | ok x n =>
      cases x with
      | none => exact absurd hfull hroom.not_full
      | some v => exact absurd hfull hroom.not_full

end Link
end ScriptMachine
