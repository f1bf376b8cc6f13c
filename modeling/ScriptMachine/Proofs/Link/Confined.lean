import ScriptMachine.Proofs.Link.AlikeUnits
import ScriptMachine.Proofs.Machine.Commit
import ScriptMachine.Proofs.Machine.Regions

/-!
# Confined images

The functions that the globals of an image lead to, at once or through constants, may be all that code
can ever call. When their code writes to certain slots only, no run can write to another one, but for
what its main body writes.
-/

namespace ScriptMachine

open Bytecode

/-- A value that is no function other than a known one. -/
def Value.LeadsTo (known : UInt32 → Prop) (v : Value) : Prop :=
  v.kind = .function → known v.handle

/-- The region in which known functions and others run, but only known ones are held. -/
def Region.among (known others : UInt32 → Prop) (slot : Nat → Prop) : Region where
  value := Value.LeadsTo known
  function h := known h ∨ others h
  slot := slot
  plain _ hv hk := absurd hk hv.2
  callable _ hv hk := .inl (hv hk)

/-- An image whose globals lead to known functions, which lead to no others and write to certain slots
only. -/
structure Image.Confined (image : Image) (known : UInt32 → Prop) (slot : Nat → Prop) : Prop where
  lead : ∀ h, known h → h.toNat < image.heap.functions.size
  globals : ∀ v ∈ image.globals.slots, v.LeadsTo known
  functions : ∀ h f, known h → image.heap.function? h = some f →
    f.KeepsTo (Value.LeadsTo known) slot

theorem Function.KeepsTo.mono {value value' : Value → Prop} {slot slot' : Nat → Prop} {f : Function}
    (h : f.KeepsTo value slot) (hvalue : ∀ v, value v → value' v)
    (hslot : ∀ i, slot i → slot' i) : f.KeepsTo value' slot' :=
  ⟨fun v hv => hvalue v (h.constants v hv), fun ip w hw hwrites =>
    hslot _ (h.writes ip w hw hwrites)⟩

namespace Image

variable {image : Image} {known : UInt32 → Prop} {slot slot' : Nat → Prop}

theorem Confined.mono (h : image.Confined known slot) (hslot : ∀ i, slot i → slot' i) :
    image.Confined known slot' :=
  ⟨h.lead, h.globals, fun i f hi hf => (h.functions i f hi hf).mono (fun _ hv => hv) hslot⟩

/-- A confined image stays so when its heap grows. -/
theorem Confined.grows (h : image.Confined known slot) {image' : Image}
    (hglobals : image'.globals = image.globals) (hheap : image.heap.Grows image'.heap) :
    image'.Confined known slot where
  lead i hi := (h.lead i hi).trans_le hheap.functions_size
  globals := hglobals ▸ h.globals
  functions i f hi hf := by
    obtain ⟨g, hg⟩ := Heap.function?_of_lt (h.lead i hi)
    obtain rfl : g = f := Option.some.inj ((hheap.function? hg).symm.trans hf)
    exact h.functions i g hi hg

/-- It stays so when the writes of a run in its region are stored. -/
theorem Confined.commit (h : image.Confined known slot) {table : GlobalTable} {pending : Writes}
    {n : Nat} (hpending : ∀ (i : Nat) (v : Value), pending[i]? = some v → v.LeadsTo known)
    (htable : ∀ i : Nat, table.slots[i]? =
      (pending[i]?).or (image.globals.ensureLength n).slots[i]?) :
    Confined { image with globals := table } known slot where
  lead := h.lead
  functions := h.functions
  globals v hv := by
    obtain ⟨i, hi⟩ := Array.mem_iff_getElem?.1 hv
    rw [htable] at hi
    cases hp : pending[i]? with
    | some u =>
      rw [hp] at hi
      cases hi
      exact hpending i _ hp
    | none =>
      rw [hp, Option.none_or, GlobalTable.getElem?_ensureLength] at hi
      split_ifs at hi
      · exact h.globals v (Array.mem_of_getElem? hi)
      · cases hi
        exact fun hk => by simp at hk

end Image

namespace Link

/-- The functions of a unit that is stored behind `start` functions, and those known before. -/
def joined (known : UInt32 → Prop) (start : Nat) (program : Program) (h : UInt32) : Prop :=
  known h ∨ start ≤ h.toNat ∧ h.toNat < start + program.prototypes.size

theorem leadsTo_resolveConstant {known : UInt32 → Prop} {start : Nat} {program : Program}
    (strings : Array UInt32) (hsize : start + program.prototypes.size ≤ handleCount) {k : Constant}
    (hk : constantOk program.strings.size program.prototypes.size k = true) :
    (resolveConstant strings (handlesFrom start program.prototypes.size) k).LeadsTo
      (joined known start program) := by
  cases k with
  | bool b => cases b <;> simp [resolveConstant, Value.LeadsTo]
  | fn i =>
    intro _
    have hi : i.toNat < program.prototypes.size := by simpa [constantOk] using hk
    refine .inr ?_
    rw [resolveConstant, getD_handlesFrom hi, Value.handle_function, toNat_ofNat_of_lt (by omega)]
    omega
  | _ => simp [resolveConstant, Value.LeadsTo]

variable {image image' : Image} {known : UInt32 → Prop} {slot slot' : Nat → Prop}
  {program : Program} {sizeHint : Nat} {unit : LinkedUnit}

/-- A body of a linked program keeps to the functions of its program and those known before. -/
theorem keepsTo_linkedFunction {p : Prototype} {start : Nat} (strings : Array UInt32)
    (hsize : start + program.prototypes.size ≤ handleCount)
    (hconstants : ∀ k ∈ p.constants,
      constantOk program.strings.size program.prototypes.size k = true)
    (hwrites : ∀ (ip : Nat) (w : Word), p.code[ip]? = some w → w.WritesGlobal → slot w.bx) :
    (linkedFunction strings (handlesFrom start program.prototypes.size) p).KeepsTo
      (Value.LeadsTo (joined known start program)) slot where
  constants v hv := by
    obtain ⟨k, hk, rfl⟩ := Array.mem_map.1 hv
    exact leadsTo_resolveConstant strings hsize (hconstants k hk)
  writes := hwrites

/-- Linking keeps an image confined when the functions of the program write to certain slots only. -/
theorem confined_of_bind (h : image.Confined known slot)
    (hbind : bind image program sizeHint = .ok (unit, image'))
    (hsize : image'.heap.functions.size ≤ handleCount) (hslot : ∀ i, slot i → slot' i)
    (hwrites : ∀ p ∈ program.prototypes.toList, ∀ (ip : Nat) (w : Word), p.code[ip]? = some w →
      w.WritesGlobal → slot' w.bx) :
    image'.Confined (joined known image.heap.functions.size program) slot' := by
  have hplaced := placed_of_bind hbind hsize
  have htotal := hplaced.functions_size
  have hbodies := length_bodies program
  obtain ⟨-, hglobals, -, -, -⟩ := bind_heap hbind hsize
  have hverify := verify_eq_ok_iff.1 (bind_eq_ok_iff.1 hbind).1
  refine ⟨fun i hi => ?_, fun v hv hk => ?_, fun i f hi hf => ?_⟩
  · rcases hi with hi | hi
    · exact (h.lead i hi).trans_le hplaced.grows.functions_size
    · omega
  · rw [hglobals] at hv
    exact .inl (h.globals v hv hk)
  · rcases hi with hi | ⟨hle, hlt⟩
    · obtain ⟨g, hg⟩ := Heap.function?_of_lt (h.lead i hi)
      obtain rfl : g = f := Option.some.inj ((hplaced.grows.function? hg).symm.trans hf)
      exact (h.functions i g hi hg).mono (fun v hv hk => .inl (hv hk)) hslot
    · -- the handle is the place of a function behind those that were there
      obtain ⟨j, hj⟩ := Nat.exists_eq_add_of_le hle
      have hjlt : j < program.prototypes.size := by omega
      have hbody := hplaced.function? hsize (getElem?_bodies hjlt)
      rw [← hj, UInt32.ofNat_toNat, hf, Option.some.injEq] at hbody
      rw [hbody]
      have hmem : program.prototypes[j] ∈ program.prototypes.toList := Array.getElem_mem_toList _
      refine keepsTo_linkedFunction _ (by omega) (fun k hk => ?_) (hwrites _ hmem)
      exact (hverify _ (List.mem_append_left _ hmem)).constants k hk

/-- A machine about to run a unit in a confined image is within the region of what is known and the
main body, if that writes to slots of the region too. -/
theorem within_of_bind (h : image'.Confined (joined known image.heap.functions.size program) slot)
    (hbind : bind image program sizeHint = .ok (unit, image'))
    (hsize : image'.heap.functions.size ≤ handleCount)
    (hprimitives : ∀ p ∈ image.primitives.entries, p ∈ Standard.primitives)
    (hslot : ∀ i, slot i → slot' i)
    (hwrites : ∀ (ip : Nat) (w : Word), program.main.code[ip]? = some w → w.WritesGlobal →
      slot' w.bx) (sink : Sink) (fuel : Option Nat) :
    (Machine.new image'.heap image'.globals image'.primitives sink fuel).Within
      (.among (joined known image.heap.functions.size program) (· = unit.main) slot') where
  functions := by
    have hplaced := placed_of_bind hbind hsize
    have htotal := hplaced.functions_size
    have hbodies := length_bodies program
    have hverify := verify_eq_ok_iff.1 (bind_eq_ok_iff.1 hbind).1
    -- no constant leads to the main body, which is in the region by its handle alone
    rintro i f (hi | rfl) hf
    · exact (h.functions i f hi hf).mono (fun _ hv => hv) hslot
    · have hmain := hplaced.function? hsize (getElem?_bodies_main program)
      rw [(bind_heap hbind hsize).1] at hf
      obtain rfl := Option.some.inj (hf.symm.trans hmain)
      refine keepsTo_linkedFunction _ (by omega) (fun k hk => ?_) hwrites
      exact (hverify _ (List.mem_append_right _ (List.mem_singleton_self _))).constants k hk
  primitives p hp := by
    rw [Machine.new, (bind_heap hbind hsize).2.2.1] at hp
    exact hprimitives p hp
  globals v hv _ := h.globals v hv
  registers := by simp [Machine.new]
  pending := by simp [Machine.new]
  frames := by simp [Machine.new]

end Link
end ScriptMachine
