import ScriptMachine.Proofs.Link.AlikeUnits
import ScriptMachine.Proofs.Machine.Commit
import ScriptMachine.Proofs.Session.Fragments
import ScriptMachine.Proofs.Simulation.Fragments

/-!
# Units that follow their fragments

An image models globals when the values in its table stand for them. There the unit that a fragment
is compiled to follows the fragment, and once the writes of its run are stored the image models the
globals that the fragment leaves.
-/

namespace ScriptMachine

open Source Bytecode Compile Evaluation Link

namespace Simulation

variable {σ σ' : Slots} {n : Nat} {heap heap' : Heap} {program : Program} {names after : Names}
  {f : Fragment} {c : Compiled} {fs : List Closure} {held : Nat → Option Datum}
  {image image' : Image}

/-! ## More declarations -/

/-- The declarations known from some handles are known from them still. -/
def Slots.Extends (σ σ' : Slots) : Prop :=
  ∀ (i : UInt32) (slot : Nat), σ i = some slot → σ' i = some slot

theorem Stands.extend {v : Value} {d : Datum} (h : Stands σ n heap v d) (hσ : σ.Extends σ') :
    Stands σ' n heap v d := by
  cases h with
  | int h => exact .int h
  | nil => exact .nil
  | bool b => exact .bool b
  | text hs => exact .text hs
  | function hg hf hslot horder hn => exact .function hg hf (hσ _ _ hslot) horder hn
  | primitive hi => exact .primitive hi

/-- The declarations are told apart by their handles, which lead to functions, and have slots that
were given out. -/
structure Slots.Known (σ : Slots) (n : Nat) (heap : Heap) : Prop where
  distinct : σ.Distinct
  handles : ∀ (i : UInt32) (slot : Nat), σ i = some slot →
    i.toNat < heap.functions.size ∧ slot < n

/-- The slots of more declarations, which have the handles from `base` on. -/
def Slots.extend (σ : Slots) (base : Nat) (fs : List Closure) : Slots := fun i =>
  if i.toNat < base then σ i else (fs[i.toNat - base]?).map Closure.slot

theorem Slots.Known.extends (h : σ.Known n heap) (fs : List Closure) :
    σ.Extends (σ.extend heap.functions.size fs) := by
  intro i slot hi
  rw [Slots.extend, if_pos (h.handles i slot hi).1, hi]

theorem closure_of_extend {base : Nat} {i : UInt32} {slot : Nat} (hi : ¬ i.toNat < base)
    (h : σ.extend base fs i = some slot) : ∃ f ∈ fs, fs[i.toNat - base]? = some f ∧ f.slot = slot := by
  rw [Slots.extend, if_neg hi, Option.map_eq_some_iff] at h
  obtain ⟨f, hf, hslot⟩ := h
  exact ⟨f, List.mem_of_getElem? hf, hf, hslot⟩

/-- The functions of a fragment define slots in order, after all that were given out. -/
theorem Slots.Known.extend (h : σ.Known names.nextSlot heap) (hlaid : c.Laid names f fs)
    (hplaced : Placed c.program heap heap') :
    (σ.extend heap.functions.size fs).Known (names.commit c.definitions).nextSlot heap' where
  distinct := by
    intro i j slot hi hj
    -- old functions have slots below `names.nextSlot`, new ones have slots from there on
    by_cases hi' : i.toNat < heap.functions.size <;> by_cases hj' : j.toNat < heap.functions.size
    · rw [Slots.extend, if_pos hi'] at hi
      rw [Slots.extend, if_pos hj'] at hj
      exact h.distinct i j slot hi hj
    · rw [Slots.extend, if_pos hi'] at hi
      obtain ⟨g, hg, -, hslot⟩ := closure_of_extend hj' hj
      have hbetween := hlaid.between g hg
      have hlt := (h.handles i slot hi).2
      omega
    · rw [Slots.extend, if_pos hj'] at hj
      obtain ⟨g, hg, -, hslot⟩ := closure_of_extend hi' hi
      have hbetween := hlaid.between g hg
      have hlt := (h.handles j slot hj).2
      omega
    · obtain ⟨g, -, hg, hslot⟩ := closure_of_extend hi' hi
      obtain ⟨g', -, hg', hslot'⟩ := closure_of_extend hj' hj
      have hnodup : (fs.map Closure.slot).Nodup := hlaid.rising.imp fun hlt => Nat.ne_of_lt hlt
      have hlt : i.toNat - heap.functions.size < (fs.map Closure.slot).length := by
        rw [List.length_map]
        exact (List.getElem?_eq_some_iff.1 hg).1
      have heq := (List.getElem?_inj hlt hnodup).1 (show
        (fs.map Closure.slot)[i.toNat - heap.functions.size]? =
          (fs.map Closure.slot)[j.toNat - heap.functions.size]? by
        rw [List.getElem?_map, List.getElem?_map, hg, hg', Option.map_some, Option.map_some, hslot,
          hslot'])
      exact UInt32.toNat_inj.1 (by omega)
  handles := by
    intro i slot hi
    have hsize := hplaced.functions_size
    have hbodies := length_bodies c.program
    by_cases hi' : i.toNat < heap.functions.size
    · rw [Slots.extend, if_pos hi'] at hi
      have hlt := (h.handles i slot hi).2
      rw [Names.nextSlot_commit _ _ hlaid.row]
      exact ⟨by omega, by omega⟩
    · obtain ⟨g, hmem, hg, hslot⟩ := closure_of_extend hi' hi
      have hlt := (List.getElem?_eq_some_iff.1 hg).1
      have hlength := hlaid.functions.length_eq
      rw [Array.length_toList] at hlength
      have hbetween := hlaid.between g hmem
      exact ⟨by omega, by omega⟩

/-! ## Linked bodies -/

section

variable {p : Prototype}

theorem literal_resolveConstant (hplaced : Placed program heap heap') (hroomy : heap'.Roomy)
    {k : Constant} {d : Datum}
    (hk : constantOk program.strings.size program.prototypes.size k = true)
    (hd : Denotes program.strings k d) :
    Literal heap' (resolveConstant (handlesFrom heap.strings.size program.strings.size)
      (handlesFrom heap.functions.size program.prototypes.size) k) d := by
  cases hd with
  | int n => exact .int (by simpa [constantOk] using hk)
  | text hs =>
    have hi := (Array.getElem?_eq_some_iff.1 hs).1
    simp only [resolveConstant, getD_handlesFrom hi]
    exact .text ((hplaced.string? hroomy.strings hi).trans hs)

theorem has_linkedFunction (hplaced : Placed program heap heap') (hroomy : heap'.Roomy)
    (hp : SoundPrototype program.strings.size program.prototypes.size p) (returns : Bool) :
    Has heap' (linkedFunction (handlesFrom heap.strings.size program.strings.size)
      (handlesFrom heap.functions.size program.prototypes.size) p)
      (coding program.strings returns p) where
  code := rfl
  slots := rfl
  constants := by
    rintro i d ⟨k, hk, hd⟩
    refine ⟨_, ?_, literal_resolveConstant hplaced hroomy
      (hp.constants k (Array.mem_of_getElem? hk)) hd⟩
    simp [linkedFunction, hk]

theorem implements_linkedFunction (hplaced : Placed program heap heap') (hroomy : heap'.Roomy)
    (hp : SoundPrototype program.strings.size program.prototypes.size p) {g : Closure}
    (hg : FunctionAt program.strings p g) :
    Implements heap' (linkedFunction (handlesFrom heap.strings.size program.strings.size)
      (handlesFrom heap.functions.size program.prototypes.size) p) g where
  name := hg.name
  arity := hg.arity
  distinct := hg.distinct
  code := by
    obtain ⟨k, hbody, hret, -⟩ := hg.body
    exact ⟨_, has_linkedFunction hplaced hroomy hp true, rfl, hg.room, k, hbody, hret⟩

end

/-- The constants of the main body that are functions lead to the linked functions. -/
theorem makes_main (hlaid : c.Laid names f fs) (hplaced : Placed c.program heap heap')
    (hroomy : heap'.Roomy) :
    Makes (σ.extend heap.functions.size fs) heap'
      (UInt32.ofNat (heap.functions.size + c.program.prototypes.size))
      (Made c.program.main fs) := by
  rintro k g ⟨i, hi, hg⟩
  obtain ⟨hlt, rfl⟩ := List.getElem?_eq_some_iff.1 hg
  have hlength := hlaid.functions.length_eq
  rw [Array.length_toList] at hlength
  have hi' : i.toNat < c.program.prototypes.size := by omega
  have hall := hlaid.functions.get (by rwa [Array.length_toList]) hlt
  have hsize := hplaced.functions_size.symm.trans_le hroomy.functions
  have hbodies := length_bodies c.program
  have hhandle : (UInt32.ofNat (heap.functions.size + i.toNat)).toNat =
      heap.functions.size + i.toNat := toNat_ofNat_of_lt (by omega)
  refine ⟨_, _, hplaced.function? hroomy.functions (getElem?_bodies_main _), ?_, _,
    hplaced.function? hroomy.functions (getElem?_bodies hi'),
    implements_linkedFunction hplaced hroomy hall.1 (hall.2 (hplaced.few hroomy).1), ?_⟩
  · rw [linkedFunction, Array.getElem?_map, hi, Option.map_some]
    simp only [resolveConstant]
    rw [getD_handlesFrom (by omega)]
  · rw [Slots.extend, hhandle, if_neg (by omega), Nat.add_sub_cancel_left, hg, Option.map_some]

/-! ## Images and globals -/

/-- The values in the table of an image stand for globals, of which exactly those with slots that
were given out are bound. -/
structure Models (σ : Slots) (names : Names) (image : Image) (held : Nat → Option Datum) :
    Prop where
  known : σ.Known names.nextSlot image.heap
  order : names.InOrder
  primitives : image.primitives = .standard
  globals : ∀ slot : Nat, Option.Rel (Stands σ names.nextSlot image.heap)
    image.globals.slots[slot]? (held slot)
  bound : ∀ slot, (held slot).isSome ↔ slot < names.nextSlot

theorem Slots.Known.grows (h : σ.Known n heap) (hg : heap.Grows heap') : σ.Known n heap' where
  distinct := h.distinct
  handles i slot hi :=
    ⟨lt_of_lt_of_le (h.handles i slot hi).1 hg.functions_size, (h.handles i slot hi).2⟩

/-- An image models the same globals when its heap grows. -/
theorem Models.grows (h : Models σ names image held) (hg : image.heap.Grows heap) :
    Models σ names { image with heap := heap } held where
  known := h.known.grows hg
  order := h.order
  primitives := h.primitives
  globals slot := rel_mono (fun _ _ hv => hv.grows hg) (h.globals slot)
  bound := h.bound

/-- The table has just the slots that were given out, and all are bound. -/
theorem Models.slots (h : Models σ names image held) :
    image.globals.slots.size = names.nextSlot ∧ ∀ v ∈ image.globals.slots, v.kind ≠ .empty := by
  have hlt : ∀ i, i < image.globals.slots.size ↔ i < names.nextSlot := by
    intro i
    rw [← h.bound i, ← not_iff_not, Nat.not_lt, ← Array.getElem?_eq_none_iff,
      rel_none_iff (h.globals i), Option.not_isSome_iff_eq_none]
  refine ⟨?_, fun v hv => ?_⟩
  · have hself := hlt image.globals.slots.size
    have hother := hlt names.nextSlot
    omega
  · obtain ⟨i, hi, rfl⟩ := Array.mem_iff_getElem.1 hv
    have hrel := h.globals i
    rw [Array.getElem?_eq_getElem hi] at hrel
    generalize held i = d at hrel
    cases hrel with
    | some hv => exact hv.kind_ne_empty

/-- The machine when a function with this many registers has been entered. -/
def entered (m : Machine) (handle : UInt32) (slots : Nat) : Machine :=
  { m with stack := Array.replicate slots .nil, frames := [⟨handle, 0, 0, 0⟩] }

/-- A function whose registers fit on the stack is entered. -/
theorem enter_eq {g : Function} {handle : UInt32} {m : Machine}
    (hg : m.heap.function? handle = some g) (hslots : g.slots ≤ stackLimit) :
    Machine.enter handle m = .ok () (entered m handle g.slots) := by
  have hregs : Machine.ensureRegs 0 g.slots { m with stack := #[], frames := [] } =
      .ok () { m with stack := Array.replicate g.slots .nil, frames := [] } := by
    unfold Machine.ensureRegs
    rw [if_neg (by omega)]
    by_cases hzero : g.slots = 0 <;> simp [hzero]
  unfold Machine.enter
  simp only [hg]
  rw [Machine.bind_of_ok hregs]
  rfl

theorem here_entered {C : Coding} {g : Function} {handle : UInt32} {m : Machine} {s : Store}
    (hg : m.heap.function? handle = some g) (hC : Has m.heap g C) (hm : Matches σ n m s)
    (hlocals : s.locals = []) :
    Here σ n ⟨handle, 0, 0, [], #[]⟩ C topScope 0 s (entered m handle g.slots) where
  frames := rfl
  code := ⟨g, hg, hC⟩
  room := by
    show 0 + C.slots ≤ (Array.replicate g.slots Value.nil).size
    rw [Array.size_replicate, hC.slots, Nat.zero_add]
  locals := by
    rw [hlocals]
    exact .nil
  size_le := Nat.zero_le _
  below _ h := absurd h (Nat.not_lt_zero _)
  matched := ⟨hm.sink, hm.primitives, hm.globals, hm.bound⟩

/-- In an image that models globals, the run of the unit of a fragment follows the fragment. -/
theorem Models.tracks {unit : LinkedUnit} {sizeHint : Nat} (h : Models σ names image held)
    (hcompile : compileFragment names f = .ok c)
    (hbind : bind image c.program sizeHint = .ok (unit, image'))
    (hsize : image'.heap.functions.size ≤ handleCount) (sink : Sink) (fuel : Option Nat) :
    ∃ (σ' : Slots) (m : Machine), σ'.Known (names.commit c.definitions).nextSlot image'.heap ∧
      Machine.enter unit.main
        (.new image'.heap image'.globals image'.primitives sink fuel) = .ok () m ∧
      ∀ k, Tracks σ' (names.commit c.definitions).nextSlot k m
        (evaluate k names f ⟨[], held, sink⟩) := by
  obtain ⟨fs, hlaid⟩ := laid_of_compileFragment hcompile
  have hplaced := placed_of_bind hbind hsize
  obtain ⟨hunit, hglobals, hprimitives, -, -⟩ := bind_heap hbind hsize
  have hknown := h.known.extend hlaid hplaced
  have hfunction := hplaced.function? hsize (getElem?_bodies_main _)
  rw [← hunit] at hfunction
  have hmatches : Matches (σ.extend image.heap.functions.size fs) names.nextSlot
      (Machine.new image'.heap image'.globals image'.primitives sink fuel) ⟨[], held, sink⟩ := by
    refine ⟨rfl, hprimitives.trans h.primitives, fun slot => ?_, h.bound⟩
    show Option.Rel _ (((∅ : ScriptMachine.Writes)[slot]?).or image'.globals.slots[slot]?) (held slot)
    rw [Std.TreeMap.getElem?_emptyc, Option.none_or, hglobals]
    exact rel_mono (fun _ _ hv => (hv.extend (h.known.extends fs)).grows hplaced.grows)
      (h.globals slot)
  have hslots : c.program.main.slots.toNat ≤ stackLimit :=
    Nat.le_trans hlaid.main.slots_le (by decide)
  have henter := enter_eq (m := .new image'.heap image'.globals image'.primitives sink fuel)
    hfunction hslots
  refine ⟨_, _, hknown, henter, fun k => ?_⟩
  -- a heap with more strings than handles is at its limit before the first step
  by_cases hfull : image'.heap.Full
  · exact .lost (.of_full hfull)
  · have hroomy : image'.heap.Roomy := ⟨Nat.le_of_not_lt hfull, hsize⟩
    obtain ⟨hstrings, hprototypes⟩ := hplaced.few hroomy
    have hhas := has_linkedFunction hplaced hroomy hlaid.main false
    have hmakes := makes_main (σ := σ) hlaid hplaced hroomy
    rw [← hunit] at hmakes
    exact tracks_main hknown.distinct (fun h => absurd h Bool.false_ne_true) rfl
      (hlaid.code hstrings hprototypes) h.order (here_entered hfunction hhas hmatches rfl) hmakes k

/-! ## Storing what a run wrote -/

/-- Where the writes of a run and the table leave no gap, the new table holds what the run saw. -/
theorem slots_of_commit {pending : ScriptMachine.Writes} {table table' : GlobalTable}
    (hcommit : ∀ i : Nat, table'.slots[i]? = (pending[i]?).or
      (table.ensureLength (GlobalTable.lengthFor pending.toList)).slots[i]?)
    (hbound : ∀ i : Nat, ((pending[i]?).or table.slots[i]?).isSome ↔ i < n) (i : Nat) :
    table'.slots[i]? = (pending[i]?).or table.slots[i]? := by
  rw [hcommit]
  cases hp : pending[i]? with
  | some v => rfl
  | none =>
    rw [Option.none_or, Option.none_or, GlobalTable.getElem?_ensureLength]
    split_ifs with hlt hlength
    · rfl
    · -- a slot behind `i` was written, so `i` is bound, yet neither the run nor the table has it
      exfalso
      obtain ⟨⟨slot, v⟩, hmem, hle⟩ : ∃ w ∈ pending.toList, i ≤ w.1 := by
        by_contra hnone
        push Not at hnone
        exact absurd hlength (Nat.not_lt.2 (GlobalTable.lengthFor_le_iff.2 hnone))
      have hslot := (hbound slot).1 (by
        rw [Std.TreeMap.mem_toList_iff_getElem?_eq_some.1 hmem]
        rfl)
      have hi := (hbound i).2 (Nat.lt_of_le_of_lt hle hslot)
      rw [hp, Option.none_or, Option.isSome_iff_ne_none, Ne, Array.getElem?_eq_none_iff] at hi
      exact hi (Nat.le_of_not_lt hlt)
    · rw [Array.getElem?_eq_none (Nat.le_of_not_lt hlt)]

/-- Once the writes of a run are stored, the image models what the fragment has left. -/
theorem models_of_matches {m : Machine} {s : Store} {table : GlobalTable}
    (hknown : σ.Known after.nextSlot m.heap) (horder : after.InOrder)
    (hm : Matches σ after.nextSlot m s)
    (hcommit : ∀ i : Nat, table.slots[i]? = (m.pending[i]?).or
      (m.globals.ensureLength (GlobalTable.lengthFor m.pending.toList)).slots[i]?) :
    Models σ after ⟨table, m.primitives, m.heap⟩ s.globals where
  known := hknown
  order := horder
  primitives := hm.primitives
  globals slot := by
    show Option.Rel _ table.slots[slot]? _
    rw [slots_of_commit hcommit (n := after.nextSlot) fun i => ?_]
    · exact hm.globals slot
    · rw [← hm.bound i]
      have hrel := hm.globals i
      unfold Machine.global? at hrel
      rw [← not_iff_not, Option.not_isSome_iff_eq_none, Option.not_isSome_iff_eq_none,
        rel_none_iff hrel]
  bound := hm.bound

end Simulation
end ScriptMachine
