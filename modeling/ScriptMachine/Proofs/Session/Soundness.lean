import ScriptMachine.Proofs.Link.AlikeUnits
import ScriptMachine.Proofs.Machine.Commit
import ScriptMachine.Proofs.Session.Turns

/-!
# Sessions in order

All functions in the heap of a session are in order, and its globals are live: so it begins, and so
every turn leaves it, whether the turn succeeds or not. What a turn does is read off from what the
run of its unit does.
-/

namespace ScriptMachine.Session

open Bytecode Compile Link

/-! ## Units -/

/-- What is left to do once a unit has been run. -/
def finish (s : Session) (u : FragmentUnit) (r : RunResult × Image × Sink) :
    TurnOutcome × Session :=
  let s := { s with image := r.2.1, output := r.2.2.text }
  match r.1 with
  | .finished o => s.commit u o
  | .faulted e => (.faulted e, s)
  | .unfinished => (.unfinished, s)

theorem runUnit_eq (s : Session) (u : FragmentUnit) :
    s.runUnit u =
      match s.linker.read s.image.primitives.count u.bytes u.sizeHint with
      | (.error e, linker) => (.linkFailed e, { s with linker := linker })
      | (.ok program, linker) =>
        finish { s with linker := linker } u
          ((place s.image program u.sizeHint).1.run (place s.image program u.sizeHint).2
            ⟨s.output, none⟩ s.limits.fuel s.limits.patience) := by
  obtain ⟨image, linker, names, compiler, files, limits, libraries, output⟩ := s
  rcases hread : linker.read image.primitives.count u.bytes u.sizeHint with ⟨e | program, linker'⟩
  · simp only [runUnit, hread]
  · simp only [runUnit, hread]
    rfl

theorem commit_eq (s : Session) (u : FragmentUnit) (o : Outcome) :
    s.commit u o =
      match o.commit s.image with
      | .error e image => (.linkFailed e, { s with image := image })
      | .ok () image =>
        let s := { s with image := image, names := s.names.commit u.definitions }
        (.evaluated (u.definitions.filterMap s.binding?)
          (if u.yieldsValue then some (s.shown o.value) else none), s) := by
  obtain ⟨image, linker, names, compiler, files, limits, libraries, output⟩ := s
  cases hcommit : o.commit image with
  | ok _ image' => simp only [commit, hcommit]
  | error e image' => simp only [commit, hcommit]

/-- The writes of a run are always stored. -/
theorem commit_writes (s : Session) (u : FragmentUnit) (v : Value) (pending : Writes) :
    ∃ table : GlobalTable,
      table.slots.size = max s.image.globals.slots.size (GlobalTable.lengthFor pending.toList) ∧
      (∀ i : Nat, table.slots[i]? = (pending[i]?).or
        (s.image.globals.ensureLength (GlobalTable.lengthFor pending.toList)).slots[i]?) ∧
      s.commit u ⟨v, pending.toList⟩ =
        let s' : Session := { s with
          image := { s.image with globals := table }, names := s.names.commit u.definitions }
        (.evaluated (u.definitions.filterMap s'.binding?)
          (if u.yieldsValue then some (s'.shown v) else none), s') := by
  obtain ⟨table, hcommit, hsize, hslots⟩ := s.image.globals.commit_eq pending
  refine ⟨table, hsize, hslots, ?_⟩
  rw [commit_eq]
  unfold Outcome.commit
  simp only [hcommit]

/-- How the run of a linked unit ends. One that does not succeed leaves nothing but a larger heap;
otherwise the writes of the run are stored, and the definitions of the unit are taken over. -/
theorem finish_ends (s : Session) (u : FragmentUnit) (unit : LinkedUnit) (image : Image)
    (hadd : image.primitives.Additive) :
    (∃ (m : Machine) (o : TurnOutcome), image.heap.Grows m.heap ∧ o.isSuccess = false ∧
      finish s u (unit.run image ⟨s.output, none⟩ s.limits.fuel s.limits.patience) =
        (o, { s with image := { image with heap := m.heap }, output := m.sink.text })) ∨
    ∃ (v : Value) (m : Machine) (table : GlobalTable),
      Machine.execute unit.main s.limits.patience (.new image.heap image.globals image.primitives
        ⟨s.output, none⟩ s.limits.fuel) = .ok (some v) m ∧ image.heap.Grows m.heap ∧
      (∀ i : Nat, table.slots[i]? = (m.pending[i]?).or
        (image.globals.ensureLength (GlobalTable.lengthFor m.pending.toList)).slots[i]?) ∧
      (finish s u (unit.run image ⟨s.output, none⟩ s.limits.fuel s.limits.patience)).2 = { s with
        image := { image with heap := m.heap, globals := table },
        output := m.sink.text, names := s.names.commit u.definitions } := by
  have hkeeps := Machine.keeps_execute (m := .new image.heap image.globals image.primitives
    ⟨s.output, none⟩ s.limits.fuel) hadd unit.main s.limits.patience _ (.refl _)
  rw [unit.run_eq]
  cases hr : Machine.execute unit.main s.limits.patience
      (.new image.heap image.globals image.primitives ⟨s.output, none⟩ s.limits.fuel) with
  | error e m =>
    rw [hr] at hkeeps
    exact .inl ⟨m, .faulted e, (Machine.Continues.heap hkeeps).grows, rfl, rfl⟩
  | ok v m =>
    rw [hr] at hkeeps
    have hheap := (Machine.Continues.heap hkeeps).grows
    cases v with
    | none => exact .inl ⟨m, .unfinished, hheap, rfl, rfl⟩
    | some v =>
      obtain ⟨table, -, hslots, hcommit⟩ := commit_writes
        { s with image := { image with heap := m.heap }, output := m.sink.text } u v m.pending
      exact .inr ⟨v, m, table, rfl, hheap, hslots, congrArg Prod.snd hcommit⟩

/-! ## Linkers -/

/-- What a linker hands back depends on its backend alone, which stays. -/
theorem read_eq (l : Linker) (count : Nat) (bytes : Bytes) (sizeHint : Nat) :
    (l.read count bytes sizeHint).2.backend = l.backend ∧
      ∀ l' : Linker, l'.backend = l.backend →
        (l'.read count bytes sizeHint).1 = (l.read count bytes sizeHint).1 := by
  constructor
  · unfold Linker.read
    split
    · rfl
    · simp only
      split
      · rfl
      · split <;> rfl
  · intro l' hl
    unfold Linker.read
    rw [hl]
    split
    · rfl
    · simp only
      split
      · rfl
      · split <;> rfl

/-- A linker hands back verified programs only. -/
theorem verify_of_read {l l' : Linker} {count : Nat} {bytes : Bytes} {sizeHint : Nat}
    {program : Program} (h : l.read count bytes sizeHint = (.ok program, l')) :
    verify program count = .ok () := by
  unfold Linker.read at h
  split at h
  · simp at h
  · simp only at h
    split at h
    · simp at h
    · split at h
      · simp at h
      · next hverify =>
        simp only [Prod.mk.injEq, Except.ok.injEq] at h
        rwa [h.1] at hverify

/-! ## What every run leaves -/

/-- The handles of a session last, and its primitives take nothing back. -/
structure Fine (s : Session) : Prop where
  room : s.image.heap.Roomy
  additive : s.image.primitives.Additive

theorem Fine.of_image {s t : Session} (h : s.Fine)
    (hheap : t.image.heap.strings.size ≤ s.image.heap.strings.size ∧
      t.image.heap.functions.size ≤ s.image.heap.functions.size)
    (hprimitives : t.image.primitives = s.image.primitives) : t.Fine :=
  ⟨⟨hheap.1.trans h.room.strings, hheap.2.trans h.room.functions⟩, hprimitives ▸ h.additive⟩

theorem finish_image (s : Session) (u : FragmentUnit) (r : RunResult × Image × Sink) :
    (finish s u r).2.image.heap = r.2.1.heap ∧
      (finish s u r).2.image.primitives = r.2.1.primitives := by
  obtain ⟨result, image, sink⟩ := r
  cases result with
  | faulted e => exact ⟨rfl, rfl⟩
  | unfinished => exact ⟨rfl, rfl⟩
  | finished o =>
    simp only [finish, commit_eq, Outcome.commit]
    cases image.globals.commit o.writes with
    | ok _ table => exact ⟨rfl, rfl⟩
    | error e table => exact ⟨rfl, rfl⟩

theorem runUnit_primitives (s : Session) (u : FragmentUnit) :
    (s.runUnit u).2.image.primitives = s.image.primitives := by
  rw [runUnit_eq]
  split
  · rfl
  · refine (finish_image _ u _).2.trans ?_
    rw [LinkedUnit.run_eq]
    split <;> rfl

/-- Running a unit only adds to the heap. -/
theorem sizes_le_runUnit {s : Session} (u : FragmentUnit)
    (hadd : s.image.primitives.Additive) :
    s.image.heap.strings.size ≤ (s.runUnit u).2.image.heap.strings.size ∧
      s.image.heap.functions.size ≤ (s.runUnit u).2.image.heap.functions.size := by
  rw [runUnit_eq]
  rcases hread : s.linker.read s.image.primitives.count u.bytes u.sizeHint with
    ⟨e | program, linker⟩
  · exact ⟨le_refl _, le_refl _⟩
  · simp only
    rw [(finish_image { s with linker := linker } u _).1]
    have hadds := run_adds_strings (place s.image program u.sizeHint).1
      (place s.image program u.sizeHint).2 hadd ⟨s.output, none⟩ s.limits.fuel s.limits.patience
    obtain ⟨hfunctions, hstrings⟩ := place_sizes s.image program u.sizeHint
    have hstrings' := hadds.grows.strings_size
    have hfunctions' := hadds.grows.functions_size
    omega

/-- All that a unit stores is there after its run. -/
theorem functions_size_le_runUnit {s : Session} {u : FragmentUnit} {program : Program}
    {linker : Linker} (hadd : s.image.primitives.Additive)
    (hread : s.linker.read s.image.primitives.count u.bytes u.sizeHint = (.ok program, linker)) :
    (place s.image program u.sizeHint).2.heap.functions.size ≤
      (s.runUnit u).2.image.heap.functions.size := by
  rw [runUnit_eq, hread, (finish_image { s with linker := linker } u _).1]
  exact (run_adds_strings (place s.image program u.sizeHint).1 (place s.image program u.sizeHint).2
    hadd ⟨s.output, none⟩ s.limits.fuel s.limits.patience).grows.functions_size

/-- A session that is fine after a unit was fine before. -/
theorem fine_before_runUnit {s : Session} (u : FragmentUnit) (h : (s.runUnit u).2.Fine) :
    s.Fine := by
  have hprimitives := runUnit_primitives s u
  exact h.of_image (sizes_le_runUnit u (hprimitives ▸ h.additive)) hprimitives.symm

/-- A session whose functions are in order and whose globals are live. -/
structure InOrder (s : Session) : Prop where
  heap : s.image.heap.InOrder s.image.primitives.count
  primitives : ∀ p ∈ s.image.primitives.entries, p ∈ Standard.primitives
  globals : ∀ v ∈ s.image.globals.slots, v.kind ≠ .empty →
    v.Live s.image.heap s.image.primitives.count

theorem InOrder.additive {s : Session} (h : s.InOrder) : s.image.primitives.Additive :=
  fun p hp => Standard.additive_primitives p (h.primitives p hp)

theorem InOrder.sound {s : Session} (h : s.InOrder) : s.image.primitives.Sound :=
  fun p hp => Standard.sound_primitives p (h.primitives p hp)

/-- What a session is after a run that ended on a safe machine. -/
theorem inOrder_finish {s : Session} (u : FragmentUnit) {m : Machine} (hm : m.Safe)
    (hprimitives : ∀ p ∈ m.primitives.entries, p ∈ Standard.primitives)
    {r : RunResult × Image × Sink} (hr : r.2 = (⟨m.globals, m.primitives, m.heap⟩, m.sink))
    (hresult : (∃ v, r.1 = .finished ⟨v, m.pending.toList⟩) ∨ (∃ e, r.1 = .faulted e) ∨
      r.1 = .unfinished) : (finish s u r).2.InOrder := by
  obtain ⟨result, image, sink⟩ := r
  simp only [Prod.mk.injEq] at hr hresult
  obtain ⟨rfl, rfl⟩ := hr
  obtain ⟨v, rfl⟩ | ⟨e, rfl⟩ | rfl := hresult
  · obtain ⟨table, -, hslots, hcommit⟩ := commit_writes
      { s with image := ⟨m.globals, m.primitives, m.heap⟩, output := m.sink.text } u v m.pending
    simp only [finish, hcommit]
    refine ⟨hm.heap, hprimitives, fun w hw hk => ?_⟩
    obtain ⟨i, hi, rfl⟩ := Array.mem_iff_getElem.1 hw
    have hslot := hslots i
    rw [Array.getElem?_eq_getElem hi] at hslot
    cases hp : m.pending[i]? with
    | some x =>
      rw [hp] at hslot
      cases hslot
      exact hm.pending i _ hp
    | none =>
      rw [hp, Option.none_or, GlobalTable.getElem?_ensureLength] at hslot
      split_ifs at hslot
      · exact hm.globals _ (Array.mem_of_getElem? hslot.symm) hk
      · rw [Option.some.inj hslot] at hk
        exact absurd Value.kind_empty hk
  · exact ⟨hm.heap, hprimitives, hm.globals⟩
  · exact ⟨hm.heap, hprimitives, hm.globals⟩

/-- A unit was linked as `unit` into `image` and run there, which ended on the machine `m` with the
result `r`. -/
structure Ran (s : Session) (u : FragmentUnit) (program : Program) (linker : Linker)
    (unit : LinkedUnit) (image : Image) (m : Machine) (r : RunResult × Image × Sink) : Prop where
  read : s.linker.read s.image.primitives.count u.bytes u.sizeHint = (.ok program, linker)
  bind : bind s.image program u.sizeHint = .ok (unit, image)
  size : image.heap.functions.size ≤ handleCount
  safe : m.Safe
  continues : (Machine.new image.heap image.globals image.primitives ⟨s.output, none⟩
    s.limits.fuel).Continues m
  run : r = unit.run image ⟨s.output, none⟩ s.limits.fuel s.limits.patience
  state : r.2 = (⟨m.globals, m.primitives, m.heap⟩, m.sink)
  result : (∃ v, r.1 = .finished ⟨v, m.pending.toList⟩) ∨
    (∃ e, r.1 = .faulted e ∧ ¬ e.Internal) ∨ r.1 = .unfinished
  finish : s.runUnit u = finish { s with linker := linker } u r

theorem Ran.globals {s : Session} {u : FragmentUnit} {program : Program} {linker : Linker}
    {unit : LinkedUnit} {image : Image} {m : Machine} {r : RunResult × Image × Sink}
    (h : s.Ran u program linker unit image m r) : m.globals = s.image.globals :=
  h.continues.globals.trans (bind_heap h.bind h.size).2.1

theorem Ran.primitives {s : Session} {u : FragmentUnit} {program : Program} {linker : Linker}
    {unit : LinkedUnit} {image : Image} {m : Machine} {r : RunResult × Image × Sink}
    (h : s.Ran u program linker unit image m r) : m.primitives = s.image.primitives :=
  h.continues.primitives.trans (bind_heap h.bind h.size).2.2.1

theorem Ran.grows {s : Session} {u : FragmentUnit} {program : Program} {linker : Linker}
    {unit : LinkedUnit} {image : Image} {m : Machine} {r : RunResult × Image × Sink}
    (h : s.Ran u program linker unit image m r) : s.image.heap.Grows m.heap :=
  (grows_of_bind h.bind h.size).trans h.continues.heap.grows

/-- A unit is refused by the linker, or it is run in a session in order. -/
theorem runUnit_ends {s : Session} (u : FragmentUnit) (h : s.InOrder)
    (hfine : (s.runUnit u).2.Fine) :
    (∃ e linker, s.linker.read s.image.primitives.count u.bytes u.sizeHint = (.error e, linker) ∧
      s.runUnit u = (.linkFailed e, { s with linker := linker })) ∨
    ∃ program linker unit image m r, s.Ran u program linker unit image m r := by
  have heq := runUnit_eq s u
  rcases hread : s.linker.read s.image.primitives.count u.bytes u.sizeHint with
    ⟨e | program, linker⟩
  · rw [hread] at heq
    exact .inl ⟨e, linker, rfl, heq⟩
  · rw [hread] at heq
    simp only at heq
    rcases hplace : place s.image program u.sizeHint with ⟨unit, image⟩
    rw [hplace] at heq
    have hbind := bind_eq_ok_iff.2 ⟨verify_of_read hread, hplace⟩
    have hsize : image.heap.functions.size ≤ handleCount := by
      have hstored := functions_size_le_runUnit h.additive hread
      rw [hplace] at hstored
      exact hstored.trans hfine.room.functions
    have hprimitives : image.primitives = s.image.primitives := (bind_heap hbind hsize).2.2.1
    have hready := safe_of_bind h.heap h.sound h.globals hbind hsize ⟨s.output, none⟩
      s.limits.fuel
    obtain ⟨m, hm, hcont, hr, hresult⟩ :=
      run_ends s.limits.patience (hprimitives ▸ h.additive) hready
    refine .inr ⟨program, linker, unit, image, m, _, hread, hbind, hsize, hm, hcont, rfl, ?_, hresult,
      heq⟩
    rw [hr, hcont.globals, hcont.primitives]
    rfl

/-- A session in order stays in order when a unit is run, however that ends. -/
theorem inOrder_runUnit {s : Session} (u : FragmentUnit) (h : s.InOrder)
    (hfine : (s.runUnit u).2.Fine) : (s.runUnit u).2.InOrder := by
  rcases runUnit_ends u h hfine with ⟨e, linker, -, heq⟩ | ⟨_, linker, _, _, m, r, hran⟩
  · rw [heq]
    exact ⟨h.heap, h.primitives, h.globals⟩
  · rw [hran.finish]
    refine inOrder_finish u hran.safe (hran.primitives ▸ h.primitives) hran.state ?_
    obtain hv | ⟨e, he, -⟩ | hu := hran.result
    · exact .inl hv
    · exact .inr (.inl ⟨e, he⟩)
    · exact .inr (.inr hu)

/-! ## Turns -/

theorem runSource_image (s : Session) (text : List Char) :
    (s.runSource text).2 = s ∨ ∃ u, s.runSource text = s.runUnit u := by
  unfold runSource
  split
  · exact .inl rfl
  · next u _ => exact .inr ⟨u, rfl⟩

/-- Turns leave the primitives as they are. -/
theorem kept_primitives (r : Registry) :
    Kept (fun s t => s = t ∧ t.image.primitives = r) (fun _ => True) (fun _ => True) where
  files h := h.1 ▸ rfl
  sections h := h.1 ▸ rfl
  libraries h := h.1 ▸ rfl
  withLibraries l h := ⟨h.1 ▸ rfl, h.2⟩
  source := by
    rintro s t text ⟨rfl, hs⟩ -
    refine ⟨rfl, fun _ _ => trivial, rfl, ?_⟩
    rcases s.runSource_image text with heq | ⟨u, heq⟩ <;> rw [heq]
    · exact hs
    · exact (runUnit_primitives s u).trans hs
  fine_source _ _ := trivial
  fine_libraries _ _ := trivial
  good_quit := trivial
  good_directive _ := trivial
  good_refusal _ := trivial

theorem runTurns_primitives (s : Session) (texts : List String) :
    (s.runTurns texts).2.image.primitives = s.image.primitives :=
  (kept_runTurns (kept_primitives _) texts ⟨rfl, rfl⟩ trivial).2.2.2

theorem fine_before_runSource {s : Session} (text : List Char) (h : (s.runSource text).2.Fine) :
    s.Fine := by
  rcases s.runSource_image text with heq | ⟨u, heq⟩ <;> rw [heq] at h
  · exact h
  · exact fine_before_runUnit u h

/-- Turns keep sessions in order. -/
theorem kept_inOrder : Kept (fun s t => s = t ∧ t.InOrder) (fun _ => True) Fine where
  files h := h.1 ▸ rfl
  sections h := h.1 ▸ rfl
  libraries h := h.1 ▸ rfl
  withLibraries l h := ⟨h.1 ▸ rfl, h.2.heap, h.2.primitives, h.2.globals⟩
  source := by
    rintro s t text ⟨rfl, hs⟩ hfine
    refine ⟨rfl, fun _ _ => trivial, rfl, ?_⟩
    rcases s.runSource_image text with heq | ⟨u, heq⟩ <;> rw [heq] at hfine ⊢
    · exact hs
    · exact inOrder_runUnit u hs hfine
  fine_source text h := fine_before_runSource text h
  fine_libraries l h := ⟨h.room, h.additive⟩
  good_quit := trivial
  good_directive _ := trivial
  good_refusal _ := trivial

/-- A new session is in order. -/
theorem inOrder_new (compiler : FragmentCompiler) (files : Files) (limits : Limits) :
    (Session.new compiler files limits).InOrder where
  heap := fun i f hf => by
    have hnone : (#[] : Array Function)[i]? = some f := hf
    simp at hnone
  primitives := fun p hp => Array.mem_toList_iff.2 hp
  globals := fun v hv => by
    have hmem : v ∈ (#[] : Array Value) := hv
    simp at hmem

/-- Every session that turns lead to is in order. -/
theorem inOrder_runTurns {s : Session} (h : s.InOrder) (texts : List String)
    (hfine : (s.runTurns texts).2.Fine) : (s.runTurns texts).2.InOrder :=
  (kept_runTurns kept_inOrder texts ⟨rfl, h⟩ hfine).2.2.2

end ScriptMachine.Session
