import ScriptMachine.Proofs.Link.Soundness
import ScriptMachine.Proofs.Machine.InPlace
import ScriptMachine.Proofs.Machine.Writes

/-!
# Writes beside the table

A run collects its writes beside the table of globals, which are stored when it has succeeded. What
comes of that is what a machine comes to that changes the table at each write; and a run that does
not succeed leaves the table as it was.
-/

namespace ScriptMachine

open Bytecode Machine

/-! ## Constants -/

/-- No function of a heap has an empty constant. -/
def Heap.Filled (heap : Heap) : Prop :=
  ∀ f ∈ heap.functions, ∀ v ∈ f.constants, v.kind ≠ .empty

theorem Heap.Filled.setConstants {heap : Heap} (h : heap.Filled) (handle : UInt32)
    {constants : Array Value} (hconstants : ∀ v ∈ constants, v.kind ≠ .empty) :
    (heap.setConstants handle constants).Filled := by
  intro f hf
  obtain ⟨i, hi⟩ := Array.mem_iff_getElem?.1 hf
  simp only [Heap.setConstants, Array.getElem?_modify] at hi
  split_ifs at hi
  · obtain ⟨g, -, rfl⟩ := Option.map_eq_some_iff.1 hi
    exact hconstants
  · exact h f (Array.mem_of_getElem? hi)

namespace Link

theorem resolveConstant_kind (strings functions : Array UInt32) (k : Constant) :
    (resolveConstant strings functions k).kind ≠ .empty := by
  cases k with
  | bool b => cases b <;> simp [resolveConstant]
  | _ => simp [resolveConstant]

/-- Linking leaves no constant empty, whether or not handles wrap. -/
theorem filled_place {image : Image} (h : image.heap.Filled) (program : Program) (sizeHint : Nat) :
    (place image program sizeHint).2.heap.Filled := by
  obtain ⟨globals, primitives, heap⟩ := image
  obtain ⟨b₁, h₁⟩ := allocStrings_eq heap program.strings
  obtain ⟨b₂, h₂⟩ := allocBodies_eq ⟨heap.strings ++ program.strings, heap.functions, b₁⟩
    program.prototypes.toList
  simp only [place, h₁, h₂, Heap.allocFunction]
  refine List.foldlRecOn _ _ ?_ fun heap hfilled x _ => ?_
  · -- the new functions are bare
    intro f hf
    simp only [Array.mem_push, Array.mem_append, List.mem_toArray, List.mem_map] at hf
    rcases hf with (hf | ⟨p, -, rfl⟩) | rfl
    · exact h f hf
    · simp [bareFunction]
    · simp [bareFunction]
  · refine hfilled.setConstants x.1 fun v hv => ?_
    obtain ⟨k, -, rfl⟩ := Array.mem_map.1 hv
    exact resolveConstant_kind _ _ k

theorem Linked.filled {primitives : Nat} {heap : Heap} (h : Linked primitives heap) :
    heap.Filled := by
  induction h with
  | empty => exact fun f hf => by simp [Heap.empty] at hf
  | strings _ hadd ih =>
    intro f hf
    rw [hadd.functions] at hf
    exact ih f hf
  | @bind image image' program sizeHint unit _ _ hbind ih =>
    have hfilled := filled_place ih program sizeHint
    rwa [(bind_eq_ok_iff.1 hbind).2] at hfilled

/-! ## Runs -/

/-- The writes to globals that the run of a unit makes, in order. -/
def LinkedUnit.writesOf (unit : LinkedUnit) (image : Image) (sink : Sink) (fuel : Option Nat)
    (patience : Nat) : List Write :=
  match enter unit.main (.new image.heap image.globals image.primitives sink fuel) with
  | .ok () m => Machine.writesOf (stepsFor m.fuel patience) m
  | .error _ _ => []

/-- Runs a unit's main body on a machine that changes the table of globals in place. -/
def LinkedUnit.runInPlace (unit : LinkedUnit) (image : Image) (sink : Sink) (fuel : Option Nat)
    (patience : Nat) : EStateM.Result Fault Machine (Option Value) :=
  InPlace.execute unit.main patience (.new image.heap image.globals image.primitives sink fuel)

/-- What a run that succeeded has to do with one in place. The latter has the same value, and leaves
the same output and heap, and the table that storing the writes leaves, which does not fail. Each
slot is written once, in the order of slots, with the value that the run wrote last, and was bound
before unless the run has defined it. -/
structure LinkedUnit.Overlays (unit : LinkedUnit) (image : Image) (sink : Sink) (fuel : Option Nat)
    (patience : Nat) (o : Outcome) (after : Image) (printed : Sink) : Prop where
  inPlace : ∃ m, unit.runInPlace image sink fuel patience = .ok (some o.value) m ∧
    m.sink = printed ∧ m.heap = after.heap ∧
    o.commit after = .ok () { after with globals := m.globals } ∧
    unit.runAndCommit image sink fuel patience =
      (.finished o, { after with globals := m.globals }, printed)
  sorted : o.writes.Pairwise fun w w' => w.1 < w'.1
  last : ∀ slot, o.writes.lookup slot = lastWrite (unit.writesOf image sink fuel patience) slot
  defined : ∀ w ∈ o.writes, image.globals.isBound w.1 = true ∨
    ∃ x ∈ unit.writesOf image sink fuel patience, x.defines = true ∧ x.slot = w.1

/-- A machine about to run in a linked image holds no empty value. -/
theorem within_everything {image : Image} (hheap : image.heap.Filled)
    (hprimitives : ∀ p ∈ image.primitives.entries, p ∈ Standard.primitives) (sink : Sink)
    (fuel : Option Nat) :
    (Machine.new image.heap image.globals image.primitives sink fuel).Within .everything where
  functions _ f _ hf := ⟨hheap f (Array.mem_of_getElem? hf), fun _ _ _ _ => trivial⟩
  primitives := hprimitives
  globals _ _ hk := hk
  registers := by simp [Machine.new]
  pending := by simp [Machine.new]
  frames := by simp [Machine.new]

theorem stored_new (heap : Heap) (globals : GlobalTable) (primitives : Registry) (sink : Sink)
    (fuel : Option Nat) :
    (Machine.new heap globals primitives sink fuel).stored =
      Machine.new heap globals primitives sink fuel :=
  congrArg (fun table => Machine.new heap table primitives sink fuel) globals.after_empty

/-- What a machine has collected at the end of a run that went well. -/
theorem overlays_of_execute {unit : LinkedUnit} {image : Image} {sink : Sink} {fuel : Option Nat}
    {patience : Nat} {v : Value} {m : Machine}
    (hwithin : (Machine.new image.heap image.globals image.primitives sink fuel).Within .everything)
    (h : execute unit.main patience (.new image.heap image.globals image.primitives sink fuel) =
      .ok (some v) m) :
    unit.Overlays image sink fuel patience ⟨v, m.pending.toList⟩ { image with heap := m.heap }
      m.sink := by
  obtain ⟨_, m₁, henter, hrest⟩ := ok_of_bind h
  have hrun : run (stepsFor m₁.fuel patience) m₁ = .ok (some v) m := hrest
  obtain ⟨hglobals₁, hpending₁⟩ := (blind_enter unit.main).globals_eq henter
  obtain ⟨hglobals, hpending, hknown⟩ := writes_of_run hrun
  have hwrites : unit.writesOf image sink fuel patience =
      Machine.writesOf (stepsFor m₁.fuel patience) m₁ := by
    unfold LinkedUnit.writesOf
    rw [henter]
  have hwithin₁ : m₁.Within .everything := ((guards_enter trivial).ok hwithin henter).2
  -- the run in place goes through the same machines with their writes stored in the table
  have hinPlace : unit.runInPlace image sink fuel patience = .ok (some v) m.stored := by
    have henter' := (blind_enter unit.main).stored henter
    rw [stored_new] at henter'
    exact (bind_of_ok henter').trans (run_stored hwithin₁ hrun)
  have htable : m.globals = image.globals := hglobals.trans hglobals₁
  have hcommit : Outcome.commit ⟨v, m.pending.toList⟩ { image with heap := m.heap } =
      .ok () { image with heap := m.heap, globals := m.stored.globals } := by
    unfold Outcome.commit
    simp only [image.globals.commit_after m.pending]
    show _ = EStateM.Result.ok () (Image.mk (m.globals.after m.pending) _ _)
    rw [htable]
  have hfinished : unit.run image sink fuel patience =
      (.finished ⟨v, m.pending.toList⟩, { image with heap := m.heap }, m.sink) := by
    rw [unit.run_eq, h]
  refine ⟨⟨m.stored, hinPlace, rfl, rfl, hcommit, ?_⟩, ?_, fun slot => ?_, fun w hw => ?_⟩
  · unfold LinkedUnit.runAndCommit
    simp only [hfinished, hcommit]
  · exact Std.TreeMap.ordered_keys_toList.imp Nat.compare_eq_lt.1
  · rw [hwrites, GlobalTable.lookup_toList, hpending, collect_eq, hpending₁]
    simp [Machine.new]
  · obtain ⟨slot, u⟩ := w
    have hslot : m.Known slot := by
      refine .inl ?_
      rw [Std.TreeMap.contains_eq_isSome_getElem?,
        Std.TreeMap.mem_toList_iff_getElem?_eq_some.1 hw]
      rfl
    rw [hwrites]
    refine (hknown slot hslot).imp_left fun hbefore => ?_
    unfold Known at hbefore
    rw [hpending₁, hglobals₁] at hbefore
    simpa [Machine.new] using hbefore

/-- Collecting writes beside the table comes to the same as changing it in place. When a unit has
been linked into an image whose other functions were linked too, and whose primitives are standard
ones, then a run that succeeds agrees with the run in place, whatever fuel it has. No run touches the
table while it goes on, and one that does not succeed leaves it as it was. -/
theorem overlay_refines_in_place {primitives : Nat} {image image' : Image} {program : Program}
    {sizeHint : Nat} {unit : LinkedUnit} (hheap : Linked primitives image.heap)
    (hprimitives : ∀ p ∈ image.primitives.entries, p ∈ Standard.primitives)
    (hbind : bind image program sizeHint = .ok (unit, image')) (sink : Sink) (fuel : Option Nat)
    (patience : Nat) :
    (∀ o after printed, unit.run image' sink fuel patience = (.finished o, after, printed) →
      unit.Overlays image' sink fuel patience o after printed) ∧
    (∀ n, Runs (· = Machine.new image'.heap image'.globals image'.primitives sink fuel)
      (do enter unit.main; run n) (fun _ m => m.globals = image'.globals)
      fun _ m => m.globals = image'.globals) ∧
    ((∀ o, (unit.run image' sink fuel patience).1 ≠ .finished o) →
      unit.runAndCommit image' sink fuel patience = unit.run image' sink fuel patience ∧
        (unit.run image' sink fuel patience).2.1.globals = image'.globals) := by
  have hplace := (bind_eq_ok_iff.1 hbind).2
  have hfilled := filled_place hheap.filled program sizeHint
  have hsame : (place image program sizeHint).2.primitives = image.primitives := rfl
  rw [hplace] at hfilled hsame
  have hstandard : ∀ p ∈ image'.primitives.entries, p ∈ Standard.primitives := hsame ▸ hprimitives
  refine ⟨fun o after printed hrun => ?_, fun n => ?_, fun hfailed => ?_⟩
  · have hwithin := within_everything hfilled hstandard sink fuel
    rw [unit.run_eq] at hrun
    cases hr : execute unit.main patience
        (.new image'.heap image'.globals image'.primitives sink fuel) with
    | error e m =>
      rw [hr] at hrun
      cases hrun
    | ok r m =>
      rw [hr] at hrun
      cases r with
      | none => cases hrun
      | some v =>
        cases hrun
        exact overlays_of_execute hwithin hr
  · rintro m rfl
    have hkeeps := ((keeps_enter unit.main).bind fun _ =>
      keeps_run (fun p hp => Standard.additive_primitives p (hstandard p hp)) n) _
      (.refl (Machine.new image'.heap image'.globals image'.primitives sink fuel))
    cases hr : (do enter unit.main; run n : Action (Option Value))
        (.new image'.heap image'.globals image'.primitives sink fuel) with
    | ok r m =>
      rw [hr] at hkeeps
      exact Continues.globals hkeeps
    | error e m =>
      rw [hr] at hkeeps
      exact Continues.globals hkeeps
  · constructor
    · unfold LinkedUnit.runAndCommit
      split
      · next o after printed hrun => exact absurd (congrArg Prod.fst hrun) (hfailed o)
      · next hrun => exact hrun.symm
    · rw [unit.run_eq]
      split <;> rfl

/-- A program that defines the global slot 2, assigns to it and reads it back. -/
def overwritingProgram : Program :=
  ⟨#[], #[], ⟨"main", 0, 2, #[.int 5, .int 7], #[.abx .loadConst 1 0, .abx .defGlobal 1 2,
    .abx .loadConst 1 1, .abx .setGlobal 1 2, .abx .getGlobal 0 2, .abc .ret 0 0 0]⟩⟩

theorem overwritingProgram_overlays : ∃ unit image,
    bind .standard overwritingProgram 6 = .ok (unit, image) ∧
      (unit.run image .unbounded (some 9) 0).1 = .finished ⟨.int 7, [(2, .int 7)]⟩ ∧
      unit.Overlays image .unbounded (some 9) 0 ⟨.int 7, [(2, .int 7)]⟩
        (unit.run image .unbounded (some 9) 0).2.1 (unit.run image .unbounded (some 9) 0).2.2 := by
  have hbind : bind .standard overwritingProgram 6 = .ok (place .standard overwritingProgram 6) :=
    bind_eq_ok_iff.2 ⟨by decide, rfl⟩
  have hrun : ((place .standard overwritingProgram 6).1.run (place .standard overwritingProgram 6).2
      .unbounded (some 9) 0).1 = .finished ⟨.int 7, [(2, .int 7)]⟩ := by decide +kernel
  have hprimitives : ∀ p ∈ Image.standard.primitives.entries, p ∈ Standard.primitives :=
    fun p hp => Array.mem_toList_iff.2 hp
  have hempty : Linked 8 Image.standard.heap := .empty
  have h := overlay_refines_in_place hempty hprimitives hbind .unbounded (some 9) 0
  exact ⟨_, _, hbind, hrun, h.1 _ _ _ (Prod.ext hrun rfl)⟩

end Link
end ScriptMachine
