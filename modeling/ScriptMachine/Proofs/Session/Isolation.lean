import ScriptMachine.Proofs.Session.Soundness

/-!
# A failed turn is invisible

A fragment that is refused or that faults leaves garbage in the heap and nothing else. So a session
that has seen it and one that has not are alike, and whatever turns follow, they have the same
outcomes and print the same.
-/

namespace ScriptMachine.Session

open Bytecode Compile Link

/-- Sessions that differ in what stands in their heaps beside what they use, and in what was printed
before. -/
structure Alike (ρ : Shift) (a b : String) (s t : Session) : Prop where
  image : s.image.Alike ρ t.image
  backend : s.linker.backend = t.linker.backend
  names : s.names = t.names
  compiler : s.compiler = t.compiler
  files : s.files = t.files
  limits : s.limits = t.limits
  libraries : s.libraries = t.libraries
  output : ∃ more, s.output = a ++ more ∧ t.output = b ++ more

variable {ρ : Shift} {a b : String} {s t : Session}

/-! ## Reports -/

theorem Alike.shown_eq (h : s.Alike ρ a b t) {v w : Value}
    (hv : v.Alike ρ s.image.heap t.image.heap w) : s.shown v = t.shown w := by
  have hrepr := hv.repr_eq h.image.heap s.image.primitives.name?
  unfold shown Image.legend
  rw [hv.typeName_eq, hrepr, h.image.primitives]

theorem Alike.binding?_eq (h : s.Alike ρ a b t) (d : Definition) :
    s.binding? d = t.binding? d := by
  unfold binding?
  rw [h.names]
  split_ifs
  · have hslot := h.image.globals d.slot
    unfold GlobalTable.get
    generalize s.image.globals.slots[d.slot]? = x at hslot
    generalize t.image.globals.slots[d.slot]? = y at hslot
    cases hslot with
    | none => rfl
    | some hv => simp only [h.shown_eq hv]
  · rfl

theorem boundCount_eq {g g' : GlobalTable} {h k : Heap}
    (hg : AlikeArrays ρ h k g.slots g'.slots) : g.boundCount = g'.boundCount := by
  have hlist := hg.extract 0 g.slots.size
  rw [Array.extract_size, hg.size_eq, Array.extract_size] at hlist
  unfold GlobalTable.boundCount
  rw [← Array.countP_toList, ← Array.countP_toList]
  generalize g.slots.toList = xs at hlist ⊢
  generalize g'.slots.toList = ys at hlist ⊢
  induction hlist with
  | nil => rfl
  | cons hv _ ih => rw [List.countP_cons, List.countP_cons, hv.kind_eq, ih]

theorem Alike.sections_eq (h : s.Alike ρ a b t) : s.image.sections = t.image.sections := by
  have hlength : s.image.globals.length = t.image.globals.length := h.image.globals.size_eq
  unfold Image.sections
  rw [hlength, boundCount_eq h.image.globals, h.image.primitives]

/-! ## Units -/

theorem rel_swap {α β : Type} {R : α → β → Prop} {x : Option α} {y : Option β}
    (h : Option.Rel R x y) : Option.Rel (fun b a => R a b) y x := by
  cases h with
  | none => exact .none
  | some h => exact .some h

/-- Writes to the same slots need no longer table. -/
theorem lengthFor_le {R : Value → Value → Prop} {pending pending' : Writes}
    (h : ∀ slot : Nat, Option.Rel R pending[slot]? pending'[slot]?) :
    GlobalTable.lengthFor pending.toList ≤ GlobalTable.lengthFor pending'.toList := by
  rw [GlobalTable.lengthFor_le_iff]
  rintro ⟨slot, v⟩ hw
  have hslot := h slot
  rw [Std.TreeMap.mem_toList_iff_getElem?_eq_some.1 hw] at hslot
  cases hp : pending'[slot]? with
  | none =>
    rw [hp] at hslot
    cases hslot
  | some w => exact GlobalTable.lt_lengthFor hp

/-- Storing alike writes in alike tables leaves them alike. -/
theorem alike_table {h k : Heap} {g g' table table' : GlobalTable} {pending pending' : Writes}
    (hg : AlikeArrays ρ h k g.slots g'.slots)
    (hpending : ∀ slot : Nat, Option.Rel (Value.Alike ρ h k) pending[slot]? pending'[slot]?)
    (htable : ∀ i : Nat, table.slots[i]? = (pending[i]?).or
      (g.ensureLength (GlobalTable.lengthFor pending.toList)).slots[i]?)
    (htable' : ∀ i : Nat, table'.slots[i]? = (pending'[i]?).or
      (g'.ensureLength (GlobalTable.lengthFor pending'.toList)).slots[i]?) :
    AlikeArrays ρ h k table.slots table'.slots := by
  have hlength := Nat.le_antisymm (lengthFor_le hpending)
    (lengthFor_le fun slot => (rel_swap (hpending slot)))
  intro i
  have hslot := hpending i
  rw [htable, htable', GlobalTable.getElem?_ensureLength, GlobalTable.getElem?_ensureLength,
    hlength, hg.size_eq]
  generalize pending[i]? = x at hslot
  generalize pending'[i]? = y at hslot
  cases hslot with
  | some hv => exact .some hv
  | none =>
    simp only [Option.none_or]
    split_ifs
    · exact hg i
    · exact .some (.same _ (by simp) (by simp))
    · exact .none

/-- Alike machines leave alike sessions, with the same outcome. -/
theorem alike_finish (h : s.Alike ρ a b t) (u : FragmentUnit) {m n : Machine}
    (hmn : m.Alike ρ a b n) {r r' : RunResult × Image × Sink}
    (hr : r.2 = (⟨m.globals, m.primitives, m.heap⟩, m.sink))
    (hr' : r'.2 = (⟨n.globals, n.primitives, n.heap⟩, n.sink))
    (hresult : RunResult.Alike ρ m n r.1 r'.1) :
    (finish s u r).1 = (finish t u r').1 ∧ (finish s u r).2.Alike ρ a b (finish t u r').2 := by
  obtain ⟨result, image, sink⟩ := r
  obtain ⟨result', image', sink'⟩ := r'
  simp only [Prod.mk.injEq] at hr hr' hresult
  obtain ⟨rfl, rfl⟩ := hr
  obtain ⟨rfl, rfl⟩ := hr'
  have himage : Image.Alike ρ ⟨m.globals, m.primitives, m.heap⟩
      ⟨n.globals, n.primitives, n.heap⟩ :=
    ⟨hmn.heap, hmn.globals, hmn.primitives, hmn.additive, hmn.insensitive⟩
  have houtput : ∃ more, m.sink.text = a ++ more ∧ n.sink.text = b ++ more := by
    obtain ⟨more, hs, ht⟩ := hmn.sink
    exact ⟨more, by rw [hs], by rw [ht]⟩
  cases hresult with
  | faulted e => exact ⟨rfl, { h with image := himage, output := houtput }⟩
  | unfinished => exact ⟨rfl, { h with image := himage, output := houtput }⟩
  | @finished v w hv =>
    obtain ⟨table, -, hslots, hcommit⟩ := commit_writes
      { s with image := ⟨m.globals, m.primitives, m.heap⟩, output := m.sink.text } u v m.pending
    obtain ⟨table', -, hslots', hcommit'⟩ := commit_writes
      { t with image := ⟨n.globals, n.primitives, n.heap⟩, output := n.sink.text } u w n.pending
    have hnext : Alike ρ a b
        { s with image := ⟨table, m.primitives, m.heap⟩, output := m.sink.text,
                 names := s.names.commit u.definitions }
        { t with image := ⟨table', n.primitives, n.heap⟩, output := n.sink.text,
                 names := t.names.commit u.definitions } :=
      { h with
        image := ⟨hmn.heap, alike_table hmn.globals hmn.pending hslots hslots', hmn.primitives,
          hmn.additive, hmn.insensitive⟩
        names := congrArg (Names.commit · u.definitions) h.names
        output := houtput }
    simp only [finish, hcommit, hcommit']
    refine ⟨?_, hnext⟩
    rw [hnext.shown_eq hv, funext hnext.binding?_eq]

theorem alike_runUnit (h : s.Alike ρ a b t) (u : FragmentUnit) (hfine : (t.runUnit u).2.Fine) :
    (s.runUnit u).1 = (t.runUnit u).1 ∧ (s.runUnit u).2.Alike ρ a b (t.runUnit u).2 := by
  have hread := (read_eq t.linker t.image.primitives.count u.bytes u.sizeHint).2 s.linker h.backend
  have hbackend : (s.linker.read t.image.primitives.count u.bytes u.sizeHint).2.backend =
      (t.linker.read t.image.primitives.count u.bytes u.sizeHint).2.backend := by
    rw [(read_eq _ _ _ _).1, (read_eq _ _ _ _).1, h.backend]
  rw [runUnit_eq] at hfine ⊢
  rw [runUnit_eq, h.image.primitives]
  rcases hs : s.linker.read t.image.primitives.count u.bytes u.sizeHint with ⟨x, l⟩
  rcases ht : t.linker.read t.image.primitives.count u.bytes u.sizeHint with ⟨y, l'⟩
  rw [hs, ht] at hread hbackend
  rw [ht] at hfine
  simp only at hread hbackend
  subst hread
  cases x with
  | error e => exact ⟨rfl, { h with backend := hbackend }⟩
  | ok program =>
    simp only at hfine ⊢
    rcases hi : place s.image program u.sizeHint with ⟨unit, i⟩
    rcases hj : place t.image program u.sizeHint with ⟨unit', j⟩
    rw [hj] at hfine
    have hlimits := h.limits
    obtain ⟨more, hout, hout'⟩ := h.output
    have hroom : (unit'.run j ⟨t.output, none⟩ t.limits.fuel t.limits.patience).2.1.heap.Roomy := by
      rw [← (finish_image { t with linker := l' } u _).1]
      exact hfine.room
    have hadd : j.primitives.Additive := by
      rw [← congrArg (fun r => r.2.primitives) hj]
      exact h.image.primitives ▸ h.image.additive
    have hroom' : j.heap.Roomy := by
      have hgrows := (run_adds_strings unit' _ hadd ⟨t.output, none⟩ t.limits.fuel
        t.limits.patience).grows
      exact ⟨hgrows.strings_size.trans hroom.strings, hgrows.functions_size.trans hroom.functions⟩
    obtain ⟨himage, hmain, hplace⟩ := alike_place h.image hi hj (verify_of_read ht) hroom'
    have hsink : Sink.Alike a b ⟨s.output, none⟩ ⟨t.output, none⟩ :=
      ⟨more, by rw [hout], by rw [hout']⟩
    obtain ⟨m, n, hmn, hr, hr', hresult⟩ := alike_run himage hsink hmain hplace hroom
    have hlinked : Alike ρ a b { s with linker := l, limits := t.limits }
        { t with linker := l' } :=
      { h with backend := hbackend, limits := rfl }
    rw [hlimits]
    exact alike_finish hlinked u hmn hr hr' hresult

/-! ## Turns -/

theorem alike_runSource (h : s.Alike ρ a b t) (text : List Char)
    (hfine : (t.runSource text).2.Fine) :
    (s.runSource text).1 = (t.runSource text).1 ∧
      (s.runSource text).2.Alike ρ a b (t.runSource text).2 := by
  unfold runSource at hfine ⊢
  rw [h.compiler, h.names]
  cases hc : t.compiler t.names (String.ofList text) with
  | error d => exact ⟨rfl, h⟩
  | ok u =>
    rw [hc] at hfine
    exact alike_runUnit h u hfine

/-- Turns keep sessions alike. -/
theorem kept_alike : Kept (Alike ρ a b) (fun _ => True) Fine where
  files h := h.files
  sections h := h.sections_eq
  libraries h := h.libraries
  withLibraries l h := { h with libraries := rfl }
  source text h hfine := by
    obtain ⟨heq, hnext⟩ := alike_runSource h text hfine
    exact ⟨heq, fun _ _ => trivial, hnext⟩
  fine_source text h := fine_before_runSource text h
  fine_libraries l h := ⟨h.room, h.additive⟩
  good_quit := trivial
  good_directive _ := trivial
  good_refusal _ := trivial

/-! ## Failed turns -/

/-- Whether a fragment was refused or faulted. -/
def TurnOutcome.failed : TurnOutcome → Bool
  | .compileFailed _ | .linkFailed _ | .faulted _ => true
  | _ => false

/-- The shift from a heap to one that it has grown into. -/
def growth (h k : Heap) : Shift :=
  ⟨h.functions.size, k.functions.size - h.functions.size⟩

/-- A live value means the same when the heap has grown. -/
theorem alike_of_live {h k : Heap} {primitives : Nat} (hg : h.Grows k) {v : Value}
    (hv : v.Live h primitives) : v.Alike (growth h k) h k v := by
  cases hv with
  | int n => exact .int n
  | nil => exact .nil
  | bool b => exact .bool b
  | string i hi =>
    obtain ⟨s, hs⟩ := Heap.string?_of_lt hi
    exact .string hs (hg.string? hs)
  | function i hi => exact .function hi (Shift.place_of_lt hi).symm
  | primitive i hi => exact .primitive i

/-- A heap in order is alike to what it grows into. -/
theorem alike_of_grows {h k : Heap} {primitives : Nat} (hg : h.Grows k)
    (horder : h.InOrder primitives) : h.Alike (growth h k) k where
  strings_le := hg.strings_size
  start_le := le_refl _
  functions_size := by
    have := hg.functions_size
    simp only [growth]
    omega
  functions := by
    intro i f hf
    have hi : i < h.functions.size := (Array.getElem?_eq_some_iff.1 hf).1
    refine ⟨f, ?_, rfl, rfl, rfl, rfl, fun j => ?_⟩
    · rw [Shift.place_of_lt hi]
      exact hg.functions i f hf
    · cases hj : f.constants[j]? with
      | none => exact .none
      | some v =>
        exact .some (alike_of_live hg ((horder i f hf).constants v (Array.mem_of_getElem? hj)))

/-- What a failed turn leaves: the heap may have grown, and something may have been printed. -/
structure Untouched (s t : Session) : Prop where
  globals : t.image.globals = s.image.globals
  names : t.names = s.names
  primitives : t.image.primitives = s.image.primitives
  heap : s.image.heap.Grows t.image.heap
  backend : t.linker.backend = s.linker.backend
  compiler : t.compiler = s.compiler
  files : t.files = s.files
  limits : t.limits = s.limits
  libraries : t.libraries = s.libraries

/-- A session in order is alike to itself after a failed turn. -/
theorem Untouched.alike (h : s.Untouched t) (hs : s.InOrder) :
    s.Alike (growth s.image.heap t.image.heap) s.output t.output t where
  image := by
    refine ⟨alike_of_grows h.heap hs.heap, ?_, h.primitives.symm, hs.additive,
      fun p hp => Standard.insensitive_primitives p (hs.primitives p hp)⟩
    intro i
    rw [h.globals]
    cases hi : s.image.globals.slots[i]? with
    | none => exact .none
    | some v =>
      by_cases hk : v.kind = .empty
      · exact .some (.same v (by simp [hk]) (by simp [hk]))
      · exact .some (alike_of_live h.heap (hs.globals v (Array.mem_of_getElem? hi) hk))
  backend := h.backend.symm
  names := h.names.symm
  compiler := h.compiler.symm
  files := h.files.symm
  limits := h.limits.symm
  libraries := h.libraries.symm
  output := ⟨"", by simp, by simp⟩

/-- A unit that fails leaves the session untouched. -/
theorem untouched_of_failed {s : Session} (u : FragmentUnit) (hs : s.InOrder)
    (hfailed : (s.runUnit u).1.failed = true) (hfine : (s.runUnit u).2.Fine) :
    s.Untouched (s.runUnit u).2 := by
  have hbackend := (read_eq s.linker s.image.primitives.count u.bytes u.sizeHint).1
  rcases runUnit_ends u hs hfine with ⟨e, linker, hread, heq⟩ | ⟨_, linker, _, _, m, r, hran⟩
  · rw [heq]
    rw [hread] at hbackend
    exact ⟨rfl, rfl, rfl, .refl _, hbackend, rfl, rfl, rfl, rfl⟩
  · rw [hran.read] at hbackend
    rw [hran.finish] at hfailed ⊢
    have hglobals := hran.globals
    have hprimitives := hran.primitives
    have hgrows := hran.grows
    have hstate := hran.state
    have hresult := hran.result
    obtain ⟨result, image, sink⟩ := r
    simp only [Prod.mk.injEq] at hstate hresult
    obtain ⟨rfl, rfl⟩ := hstate
    obtain ⟨v, rfl⟩ | ⟨e, rfl, -⟩ | rfl := hresult
    · -- a run that ends with a value has its writes stored, so it does not fail
      obtain ⟨table, -, -, hcommit⟩ := commit_writes
        { s with image := ⟨m.globals, m.primitives, m.heap⟩, linker := linker,
                 output := m.sink.text } u v m.pending
      simp only [Session.finish, hcommit] at hfailed
      cases hfailed
    · exact ⟨hglobals, rfl, hprimitives, hgrows, hbackend, rfl, rfl, rfl, rfl⟩
    · cases hfailed

theorem untouched_runSource {s : Session} (text : List Char) (hs : s.InOrder)
    (hfailed : (s.runSource text).1.failed = true) (hfine : (s.runSource text).2.Fine) :
    s.Untouched (s.runSource text).2 := by
  unfold runSource at hfailed hfine ⊢
  cases hc : s.compiler s.names (String.ofList text) with
  | error d => exact ⟨rfl, rfl, rfl, .refl _, rfl, rfl, rfl, rfl, rfl⟩
  | ok u =>
    rw [hc] at hfailed hfine
    exact untouched_of_failed u hs hfailed hfine

/-- A failed turn is invisible. In a session that turns have led to, code that is refused by the
compiler or the linker, or that faults, changes no global, no name and no primitive, and only adds
to the heap. Whatever turns follow, they have the outcomes and reports, and print the text, that
they would have without it, as long as the handles last. -/
theorem failed_turn_invisible (compiler : FragmentCompiler) (files : Files) (limits : Limits)
    (before : List String) (text : List Char) (later : List String) (s s' : Session)
    (o : TurnOutcome)
    (hs : ((Session.new compiler files limits).runTurns before).2 = s)
    (hturn : s.runSource text = (o, s')) (hfailed : o.failed = true)
    (hroom : (s'.runTurns later).2.image.heap.Roomy) :
    s'.image.globals = s.image.globals ∧ s'.names = s.names ∧
      s'.image.primitives = s.image.primitives ∧ s.image.heap.Grows s'.image.heap ∧
      (s'.runTurns later).1 = (s.runTurns later).1 ∧
      (∀ echo, TurnOutcome.reportAll echo (s'.runTurns later).1 =
        TurnOutcome.reportAll echo (s.runTurns later).1) ∧
      ∃ printed, (s.runTurns later).2.output = s.output ++ printed ∧
        (s'.runTurns later).2.output = s'.output ++ printed := by
  have hprimitives : s.image.primitives = .standard := by
    rw [← hs, runTurns_primitives]
    rfl
  have hadd : Registry.Additive .standard := fun p hp =>
    Standard.additive_primitives p (Array.mem_toList_iff.2 hp)
  have hs' : (s.runSource text).2 = s' := by rw [hturn]
  have hprimitives' : s'.image.primitives = .standard := by
    rw [← hs', ← hprimitives]
    rcases s.runSource_image text with heq | ⟨u, heq⟩ <;> rw [heq]
    exact runUnit_primitives s u
  have hfine : (s'.runTurns later).2.Fine :=
    ⟨hroom, by rw [runTurns_primitives, hprimitives']; exact hadd⟩
  have hfine' : (s.runSource text).2.Fine := by
    rw [hs']
    exact fine_before_runTurns kept_inOrder later hfine
  have horder : s.InOrder := by
    rw [← hs]
    refine inOrder_runTurns (inOrder_new _ _ _) before ?_
    rw [hs]
    exact fine_before_runSource text hfine'
  have huntouched := untouched_runSource text horder (by rw [hturn]; exact hfailed) hfine'
  rw [hs'] at huntouched
  obtain ⟨heq, -, hnext⟩ := kept_runTurns kept_alike later (huntouched.alike horder) hfine
  obtain ⟨more, hout, hout'⟩ := hnext.output
  exact ⟨huntouched.globals, huntouched.names, huntouched.primitives, huntouched.heap, heq.symm,
    fun echo => by rw [heq], more, hout, hout'⟩

/-- A session that knows a function which may divide by zero. -/
def dividingSession : Session :=
  ((Session.new standardCompiler (FileTree.empty []).toFiles ⟨some 100, 0⟩).runTurns
    ["fn f(n) \x7b print(n); 10 / n \x7d"]).2

theorem dividingSession_runTurns :
    (dividingSession.runSource "f(0);".toList).1.failed = true ∧
      ((dividingSession.runSource "f(0);".toList).2.runTurns ["f(5);", "f;"]).1 =
        (dividingSession.runTurns ["f(5);", "f;"]).1 := by
  have hfailed : (dividingSession.runSource "f(0);".toList).1.failed = true := by decide +kernel
  have hstrings : ((dividingSession.runSource "f(0);".toList).2.runTurns
      ["f(5);", "f;"]).2.image.heap.strings.size ≤ handleCount := by decide +kernel
  have hfunctions : ((dividingSession.runSource "f(0);".toList).2.runTurns
      ["f(5);", "f;"]).2.image.heap.functions.size ≤ handleCount := by decide +kernel
  have h := failed_turn_invisible standardCompiler (FileTree.empty []).toFiles ⟨some 100, 0⟩
    ["fn f(n) \x7b print(n); 10 / n \x7d"] "f(0);".toList ["f(5);", "f;"] dividingSession _ _ rfl
    rfl hfailed ⟨hstrings, hfunctions⟩
  exact ⟨hfailed, h.2.2.2.2.1⟩

end ScriptMachine.Session
