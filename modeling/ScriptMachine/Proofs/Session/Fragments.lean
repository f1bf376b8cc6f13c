import ScriptMachine.Proofs.Compile.Linkable
import ScriptMachine.Proofs.Session.Soundness

/-!
# Fragments in sessions

What a session does with the code of a turn: the code is refused by the compiler, or its file is too
large for the loader, or it is linked and run. The linker turns down nothing else that the compiler
makes.
-/

namespace ScriptMachine.Session

open Source Bytecode Compile Link

/-! ## Sessions of the language -/

/-- A session that compiles and links with the means of the language, and knows names in order. -/
structure Standard (s : Session) : Prop where
  compiler : s.compiler = standardCompiler
  backend : s.linker.backend = some .bytecode
  primitives : s.image.primitives = .standard
  order : s.names.InOrder

theorem standardNames_inOrder : standardNames.InOrder where
  globals _ _ h := nomatch h
  primitives name i h := by
    have hall : ∀ x ∈ standardNames.primitives, x.2 < Evaluation.routines.length := by decide
    have hlookup : (Scope.mk standardNames.primitives 0).reg? name = some i := h
    exact hall _ (Scope.mem_of_reg? hlookup)

theorem standard_new (files : Files) (limits : Limits) :
    (Session.new standardCompiler files limits).Standard :=
  ⟨rfl, rfl, rfl, standardNames_inOrder⟩

/-- The handles of a session's functions last, all units handed to its linker have lengths that the
format can write, and its primitives take nothing back. -/
structure Bounded (s : Session) : Prop where
  functions : s.image.heap.functions.size ≤ handleCount
  requests : ∀ r ∈ s.linker.requests, r.length < 256 ^ 4
  additive : s.image.primitives.Additive

theorem finish_linker (s : Session) (u : FragmentUnit) (r : RunResult × Image × Sink) :
    (finish s u r).2.linker = s.linker := by
  obtain ⟨result, image, sink⟩ := r
  cases result with
  | faulted e => rfl
  | unfinished => rfl
  | finished o =>
    simp only [finish, commit_eq]
    cases o.commit image with
    | ok _ image' => rfl
    | error e image' => rfl

theorem runUnit_linker (s : Session) (u : FragmentUnit) :
    (s.runUnit u).2.linker = (s.linker.read s.image.primitives.count u.bytes u.sizeHint).2 := by
  rw [runUnit_eq]
  rcases s.linker.read s.image.primitives.count u.bytes u.sizeHint with ⟨e | program, linker⟩
  · rfl
  · exact finish_linker _ u _

/-- A linker notes what it is handed. -/
theorem requests_read (l : Linker) (count : Nat) (bytes : Bytes) (sizeHint : Nat) :
    l.requests <:+ (l.read count bytes sizeHint).2.requests ∧
      (l.backend.isSome → ∃ r ∈ (l.read count bytes sizeHint).2.requests,
        r.length = bytes.length) := by
  unfold Linker.read
  cases l.backend with
  | none => exact ⟨List.suffix_refl _, fun h => absurd h (by simp)⟩
  | some b =>
    simp only
    split
    · exact ⟨List.suffix_cons _ _, fun _ => ⟨_, List.mem_cons_self, rfl⟩⟩
    · split
      · exact ⟨List.suffix_cons _ _, fun _ => ⟨_, List.mem_cons_self, rfl⟩⟩
      · exact ⟨List.suffix_cons _ _, fun _ => ⟨_, List.mem_cons_self, rfl⟩⟩

/-- A session that is bounded after a unit was bounded before. -/
theorem bounded_before_runUnit {s : Session} (u : FragmentUnit) (h : (s.runUnit u).2.Bounded) :
    s.Bounded where
  functions := by
    have hadd := h.additive
    rw [runUnit_primitives] at hadd
    exact (sizes_le_runUnit u hadd).2.trans h.functions
  requests r hr := by
    refine h.requests r ?_
    rw [runUnit_linker]
    exact (requests_read ..).1.subset hr
  additive := by
    have hadd := h.additive
    rwa [runUnit_primitives] at hadd

theorem bounded_before_runSource {s : Session} (text : List Char)
    (h : (s.runSource text).2.Bounded) : s.Bounded := by
  rcases s.runSource_image text with heq | ⟨u, heq⟩ <;> rw [heq] at h
  · exact h
  · exact bounded_before_runUnit u h

/-! ## Code -/

/-- A fragment was compiled in a session and linked as `unit` into `image`; its run is what the
session has gone on with. -/
structure RanFragment (s : Session) (f : Fragment) (c : Compiled) (linker : Linker)
    (unit : LinkedUnit) (image : Image) (r : TurnOutcome × Session) : Prop where
  compile : compileFragment s.names f = .ok c
  measured : c.program.Measured
  backend : linker.backend = s.linker.backend
  bind : bind s.image c.program c.sizeHint = .ok (unit, image)
  size : image.heap.functions.size ≤ handleCount
  finish : r = finish { s with linker := linker } (.ofCompiled c)
    (unit.run image ⟨s.output, none⟩ s.limits.fuel s.limits.patience)

/-- How the run of a linked fragment ends. One that does not succeed leaves nothing but a larger heap;
otherwise the writes of the run are stored, and the definitions of the fragment are taken over. -/
theorem RanFragment.ends {s : Session} {f : Fragment} {c : Compiled} {linker : Linker}
    {unit : LinkedUnit} {image : Image} {r : TurnOutcome × Session}
    (hran : s.RanFragment f c linker unit image r) (hadd : image.primitives.Additive) :
    (∃ (m : Machine) (o : TurnOutcome), image.heap.Grows m.heap ∧ o.isSuccess = false ∧ r = (o, { s with
      linker := linker, image := { image with heap := m.heap }, output := m.sink.text })) ∨
    ∃ (v : Value) (m : Machine) (table : GlobalTable),
      Machine.execute unit.main s.limits.patience (.new image.heap image.globals image.primitives
        ⟨s.output, none⟩ s.limits.fuel) = .ok (some v) m ∧ image.heap.Grows m.heap ∧
      (∀ i : Nat, table.slots[i]? = (m.pending[i]?).or
        (image.globals.ensureLength (GlobalTable.lengthFor m.pending.toList)).slots[i]?) ∧
      r.2 = { s with
        linker := linker, image := { image with heap := m.heap, globals := table },
        output := m.sink.text, names := s.names.commit c.definitions } :=
  hran.finish ▸ finish_ends { s with linker := linker } (.ofCompiled c) unit image hadd

/-- What the linker makes of a compiled fragment: it refuses a file that is too large, and otherwise
hands back the program. -/
theorem read_compiled {s : Session} {f : Fragment} {c : Compiled} (h : s.Standard)
    (hcompile : compileFragment s.names f = .ok c) (hmeasured : c.program.Measured) :
    (s.linker.read s.image.primitives.count c.bytes c.sizeHint).1 = .ok c.program ∧
        verify c.program s.image.primitives.count = .ok () ∨
      ∃ e, (s.linker.read s.image.primitives.count c.bytes c.sizeHint).1 =
        .error (.malformed (.unreadable e)) ∧ e.kind = .security := by
  have hverify : verify c.program s.image.primitives.count = .ok () := by
    refine verify_eq_ok_iff.2 (inOrder_of_compileFragment hcompile
      (Nat.le_of_lt hmeasured.strings) (Nat.le_of_lt hmeasured.prototypes) fun ident index hindex => ?_)
    rw [h.primitives]
    exact h.order.primitives ident index hindex
  have hreads := reads_program hmeasured
  unfold Linker.read
  rw [h.backend]
  simp only [Backend.bytecode, Compiled.bytes]
  generalize Program.decode c.program.encode = r at hreads
  cases hreads with
  | ok =>
    refine .inl ⟨?_, hverify⟩
    simp only [hverify]
  | refused he => exact .inr ⟨_, rfl, he⟩

/-- What running a compiled fragment comes to. -/
theorem runCompiled_ends {s : Session} {f : Fragment} {c : Compiled} (h : s.Standard)
    (hcompile : compileFragment s.names f = .ok c)
    (hbounded : (s.runUnit (.ofCompiled c)).2.Bounded) :
    (∃ e linker, s.runUnit (.ofCompiled c) =
        (.linkFailed (.malformed (.unreadable e)), { s with linker := linker }) ∧
      e.kind = .security ∧ linker.backend = s.linker.backend) ∨
    ∃ linker unit image, s.RanFragment f c linker unit image (s.runUnit (.ofCompiled c)) := by
  have hmeasured : c.program.Measured := by
    obtain ⟨r, hr, hlength⟩ := (requests_read s.linker s.image.primitives.count c.bytes
      c.sizeHint).2 (by rw [h.backend]; rfl)
    have hlt := hbounded.requests r (by rw [runUnit_linker]; exact hr)
    rw [hlength] at hlt
    exact Program.measured_of_length hlt
  have hread := read_compiled h hcompile hmeasured
  have hbackend := (read_eq s.linker s.image.primitives.count c.bytes c.sizeHint).1
  have heq := runUnit_eq s (.ofCompiled c)
  rcases hresult : s.linker.read s.image.primitives.count c.bytes c.sizeHint with ⟨result, linker⟩
  have hresult' : s.linker.read s.image.primitives.count (FragmentUnit.ofCompiled c).bytes
      (FragmentUnit.ofCompiled c).sizeHint = (result, linker) := hresult
  rw [hresult] at hread hbackend
  rw [hresult'] at heq
  rcases hread with ⟨rfl, hverify⟩ | ⟨e, rfl, hkind⟩
  · have hbind : bind s.image c.program c.sizeHint = .ok (place s.image c.program c.sizeHint) :=
      bind_eq_ok_iff.2 ⟨hverify, rfl⟩
    refine .inr ⟨linker, _, _, hcompile, hmeasured, hbackend, hbind, ?_, heq⟩
    have hadd : s.image.primitives.Additive := by
      have hprimitives := hbounded.additive
      rwa [runUnit_primitives] at hprimitives
    exact (functions_size_le_runUnit hadd hresult').trans hbounded.functions
  · exact .inl ⟨e, linker, heq, hkind, hbackend⟩

/-- What the compiler of the language makes of a text is a compiled fragment. -/
theorem standardCompiler_ok {names : Names} {source : String} {u : FragmentUnit}
    (h : standardCompiler names source = .ok u) :
    ∃ f c, Fragment.parse source = .ok f ∧ compileFragment names f = .ok c ∧ u = .ofCompiled c := by
  unfold standardCompiler compile at h
  cases hparse : Fragment.parse source with
  | error e =>
    rw [hparse] at h
    cases h
  | ok f =>
    simp only [hparse] at h
    cases hc : compileFragment names f with
    | error e =>
      rw [hc] at h
      cases h
    | ok c =>
      rw [hc] at h
      cases h
      exact ⟨f, c, rfl, hc, rfl⟩

/-- What running code comes to. -/
theorem runSource_ends {s : Session} (text : List Char) (h : s.Standard)
    (hbounded : (s.runSource text).2.Bounded) :
    (∃ message, s.runSource text = (.compileFailed message, s)) ∨
    (∃ e linker, s.runSource text =
        (.linkFailed (.malformed (.unreadable e)), { s with linker := linker }) ∧
      e.kind = .security ∧ linker.backend = s.linker.backend) ∨
    ∃ f c linker unit image, Fragment.parse (String.ofList text) = .ok f ∧
      s.compiler s.names (String.ofList text) = .ok (.ofCompiled c) ∧
      s.RanFragment f c linker unit image (s.runSource text) := by
  unfold runSource at hbounded ⊢
  cases hu : s.compiler s.names (String.ofList text) with
  | error d => exact .inl ⟨_, rfl⟩
  | ok u =>
    rw [hu] at hbounded
    rw [h.compiler] at hu
    obtain ⟨f, c, hparse, hcompile, rfl⟩ := standardCompiler_ok hu
    refine .inr ((runCompiled_ends h hcompile hbounded).imp_right ?_)
    rintro ⟨linker, unit, image, hran⟩
    exact ⟨f, c, linker, unit, image, hparse, rfl, hran⟩

end ScriptMachine.Session
