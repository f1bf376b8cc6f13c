import ScriptMachine.Proofs.Link.SplitUnits
import ScriptMachine.Proofs.Session.InStep
import ScriptMachine.Proofs.Session.OwnRegisters

/-!
# Fragments split into turns

The statements of a fragment may be run in two turns as well as in one. When both turns succeed, so does
the one, and it prints the same and leaves the same names with the same values, under other handles.
-/

namespace ScriptMachine.Session

open Source Bytecode Compile Link Simulation

/-! ## Turns of one fragment -/

/-- Compiles and runs statements. -/
def runFragment (s : Session) (f : Fragment) : Except CompileError (TurnOutcome × Session) :=
  match compileFragment s.names f with
  | .error e => .error e
  | .ok c => .ok (s.runUnit (.ofCompiled c))

/-- The session with runs that have no limit on fuel and get this many steps. -/
def unlimited (s : Session) (patience : Nat) : Session :=
  { s with limits := ⟨none, patience⟩ }

/-- A turn of code without directives runs the statements that it is made of. -/
theorem runTurn_of_parse {s : Session} (hcompiler : s.compiler = standardCompiler) {text : String}
    {source : List Char} (hcode : segments text.toList = [.code source]) {f : Fragment}
    (hparse : Fragment.parse (String.ofList source) = .ok f) {r : TurnOutcome × Session}
    (hr : s.runFragment f = .ok r) : s.runTurn text = r := by
  have hsource : s.runTurn text = s.runSource source := by
    unfold runTurn runSegments
    rw [hcode]
    exact runPiece_code ..
  rw [hsource]
  unfold runFragment at hr
  unfold runSource
  rw [hcompiler]
  unfold standardCompiler compile
  rw [hparse]
  cases hcompile : compileFragment s.names f with
  | error e =>
    rw [hcompile] at hr
    cases hr
  | ok c =>
    rw [hcompile] at hr
    cases hr
    simp only [hcompile]

theorem runFragment_eq {s : Session} {f : Fragment} {c : Compiled}
    (h : compileFragment s.names f = .ok c) : s.runFragment f = .ok (s.runUnit (.ofCompiled c)) := by
  unfold runFragment
  rw [h]

/-- The session when a run of a fragment that has ended on the machine `m` has been stored. -/
def stored (s : Session) (linker : Linker) (c : Compiled) (m : Machine) : Session :=
  { s with
    image := ⟨s.image.globals.after m.pending, s.image.primitives, m.heap⟩
    linker := linker
    names := s.names.commit c.definitions
    output := m.sink.text }

section

variable {s : Session} {f : Fragment} {c : Compiled} {linker : Linker} {unit : LinkedUnit}
  {image : Image} {r : TurnOutcome × Session}

/-- The run of a fragment in a session without a limit on fuel. -/
theorem RanFragment.finish_starting (hran : s.RanFragment f c linker unit image r) (h : s.Standard)
    (hfuel : s.limits.fuel = none) :
    Placed c.program s.image.heap image.heap ∧
      r = Session.finish { s with linker := linker } (.ofCompiled c) (handedBack
        ⟨s.image.globals, s.image.primitives, image.heap⟩ (Machine.run s.limits.patience
          (starting c.program s.image.heap image.heap s.image.globals ⟨s.output, none⟩))) := by
  have hplaced := placed_of_bind hran.bind hran.size
  obtain ⟨hmain, hglobals, hprimitives, -, -⟩ := bind_heap hran.bind hran.size
  have hfunction := hplaced.function? hran.size (getElem?_bodies_main _)
  have hslots : c.program.main.slots.toNat ≤ stackLimit :=
    Nat.le_trans (laid_declared hran.compile).main.slots_le (by decide)
  have hstandard : image.primitives = .standard := hprimitives.trans h.primitives
  have himage : image = ⟨s.image.globals, s.image.primitives, image.heap⟩ := by
    rw [← hglobals, ← hprimitives]
  have henter := enter_eq (m := .new image.heap image.globals image.primitives ⟨s.output, none⟩ none)
    hfunction hslots
  rw [← hmain] at henter
  refine ⟨hplaced, hran.finish.trans ?_⟩
  rw [hfuel, run_of_enter henter, ← himage]
  unfold starting
  rw [mainHandle, ← hmain, hglobals, hstandard]
  rfl

/-- A run that comes to its end is stored and reported. -/
theorem finish_handedBack (s : Session) (linker : Linker) (c : Compiled) (v : Value) (m : Machine) :
    ∃ bindings, Session.finish { s with linker := linker } (.ofCompiled c)
        (handedBack ⟨s.image.globals, s.image.primitives, m.heap⟩ (.ok (some v) m)) =
      (.evaluated bindings (if c.yieldsValue then some ((s.stored linker c m).shown v) else none),
        s.stored linker c m) := by
  have hcommit := s.image.globals.commit_after m.pending
  unfold Session.finish handedBack
  simp only [commit_eq, Outcome.commit, hcommit]
  exact ⟨_, rfl⟩

/-- When the run of a fragment comes to its end, the turn does what the fragment says. -/
theorem RanFragment.evaluated (hran : s.RanFragment f c linker unit image r) (h : s.Standard)
    (hfuel : s.limits.fuel = none) {v : Value} {m : Machine}
    (hrun : Machine.run s.limits.patience (starting c.program s.image.heap image.heap s.image.globals
      ⟨s.output, none⟩) = .ok (some v) m) :
    ∃ bindings, r = (.evaluated bindings (if c.yieldsValue then some ((s.stored linker c m).shown v)
      else none), s.stored linker c m) := by
  obtain ⟨-, hfinish⟩ := hran.finish_starting h hfuel
  obtain ⟨bindings, heq⟩ := finish_handedBack s linker c v m
  rw [hrun] at hfinish
  exact ⟨bindings, hfinish.trans heq⟩

end

/-! ## Sessions that hold the same -/

/-- In two sessions the same was printed, and the same names have the same slots, which hold the same
values but for the handles of strings and functions: strings have one content, and functions correspond,
of which each belongs to one other. -/
structure SameButHandles (s t : Session) : Prop where
  output : s.output = t.output
  names : s.names = t.names
  length : s.image.globals.length = t.image.globals.length
  values : ∃ r : Nat → Nat → Prop, OneToOne r ∧
    (∀ i j, r i j → ∃ f g, s.image.heap.functions[i]? = some f ∧ t.image.heap.functions[j]? = some g ∧
      f.Corresponds r s.image.heap t.image.heap g) ∧
    ∀ slot : Nat, Option.Rel (Value.Renamed r s.image.heap t.image.heap)
      s.image.globals.slots[slot]? t.image.globals.slots[slot]?

/-- What a run saw of the globals is what the table holds afterwards. -/
theorem getD_after (t : GlobalTable) (pending : Writes) (slot : Nat) :
    ((t.after pending).slots[slot]?).getD .empty =
      ((pending[slot]?).or t.slots[slot]?).getD .empty := by
  rw [GlobalTable.getElem?_after, GlobalTable.getElem?_ensureLength]
  cases pending[slot]? with
  | some v => rfl
  | none =>
    rw [Option.none_or, Option.none_or]
    split_ifs with hold hnew
    · rfl
    · rw [Array.getElem?_eq_none (Nat.le_of_not_lt hold)]
      rfl
    · rw [Array.getElem?_eq_none (Nat.le_of_not_lt hold)]

/-- In tables of one length, slots are related when what they hold is. -/
theorem rel_of_getD {R : Value → Value → Prop} {xs ys : Array Value} (hsize : xs.size = ys.size)
    (slot : Nat) (h : R ((xs[slot]?).getD .empty) ((ys[slot]?).getD .empty)) :
    Option.Rel R xs[slot]? ys[slot]? := by
  by_cases hlt : slot < xs.size
  · rw [Array.getElem?_eq_getElem hlt, Array.getElem?_eq_getElem (hsize ▸ hlt)] at h ⊢
    exact .some h
  · rw [Array.getElem?_eq_none (Nat.le_of_not_lt hlt),
      Array.getElem?_eq_none (hsize ▸ Nat.le_of_not_lt hlt)]
    exact .none

section

variable {P : Pairing} {m n : Machine}

/-- Functions that belong together correspond in the heaps of the machines. -/
theorem corresponds_of_paired (hP : P.Lawful) (hmn : m.Paired P n) (i j : Nat)
    (hij : P.function i j) : ∃ f g, m.heap.functions[i]? = some f ∧ n.heap.functions[j]? = some g ∧
      f.Corresponds P.function m.heap n.heap g := by
  obtain ⟨f, g, hf, hg, hfg, -⟩ := hP.corresponds i j hij
  exact ⟨f, g, hmn.heap.first.grows.functions _ _ hf, hmn.heap.second.grows.functions _ _ hg,
    hfg.mono (fun _ _ h => h) hmn.heap.first.grows hmn.heap.second.grows⟩

theorem shownAlike_of_paired (hP : P.Lawful) (hmn : m.Paired P n) :
    ShownAlike P.function m.heap n.heap := by
  intro i j hij
  obtain ⟨f, g, hf, hg, hfg⟩ := corresponds_of_paired hP hmn i j hij
  exact ⟨f, g, hf, hg, hfg.name, hfg.arity⟩

/-- What two such machines have written is stored in tables that hold the same. -/
theorem sameButHandles_stored {s t : Session} {linker linker' : Linker} {c c' : Compiled}
    (hP : P.Lawful) (hmn : m.Paired P n) (hglobals : m.globals = s.image.globals)
    (hglobals' : n.globals = t.image.globals)
    (hnames : (s.stored linker c m).names = (t.stored linker' c' n).names)
    (hlength : (s.stored linker c m).image.globals.length =
      (t.stored linker' c' n).image.globals.length) :
    SameButHandles (s.stored linker c m) (t.stored linker' c' n) where
  output := congrArg Sink.text hmn.sink
  names := hnames
  length := hlength
  values := by
    refine ⟨P.function, hP.oneToOne, corresponds_of_paired hP hmn, fun slot => ?_⟩
    have hslot := hmn.globals slot
    unfold Machine.global? at hslot
    rw [hglobals, hglobals', ← getD_after, ← getD_after] at hslot
    exact rel_of_getD hlength slot hslot

/-- Values that such machines hand back are reported alike. -/
theorem shown_stored {s t : Session} {linker linker' : Linker} {c c' : Compiled} {v w : Value}
    (hP : P.Lawful) (hmn : m.Paired P n) (hprimitives : s.image.primitives = t.image.primitives)
    (hvw : v.Renamed P.function m.heap n.heap w) :
    (s.stored linker c m).shown v = (t.stored linker' c' n).shown w := by
  have hrepr := hvw.repr_eq (shownAlike_of_paired hP hmn) s.image.primitives.name?
  unfold shown Image.legend stored
  rw [hvw.typeName_eq, hrepr, hprimitives]

end

/-! ## Splitting -/

theorem Modelled.unlimited {s : Session} (h : s.Modelled) (patience : Nat) :
    (s.unlimited patience).Modelled :=
  ⟨⟨h.compiler, h.backend, h.primitives, h.order⟩, h.apart, h.models⟩

/-- A fragment whose file is read back is linked and run. -/
theorem ran_of_read {s : Session} {f : Fragment} {c : Compiled} (h : s.Standard)
    (hcompile : compileFragment s.names f = .ok c) (hlength : c.bytes.length < 256 ^ 4)
    (hloads : ∃ program,
      (s.linker.read s.image.primitives.count c.bytes c.sizeHint).1 = .ok program)
    (hsize : s.image.heap.functions.size + c.program.bodies.length ≤ handleCount) :
    ∃ linker unit image, s.RanFragment f c linker unit image (s.runUnit (.ofCompiled c)) := by
  have hmeasured : c.program.Measured := Program.measured_of_length hlength
  have hbackend := (read_eq s.linker s.image.primitives.count c.bytes c.sizeHint).1
  have heq := runUnit_eq s (.ofCompiled c)
  rcases read_compiled h hcompile hmeasured with ⟨hread, hverify⟩ | ⟨e, hread, -⟩
  · have hread' : s.linker.read s.image.primitives.count (FragmentUnit.ofCompiled c).bytes
        (FragmentUnit.ofCompiled c).sizeHint =
        (.ok c.program, (s.linker.read s.image.primitives.count c.bytes c.sizeHint).2) :=
      Prod.ext hread rfl
    rw [hread'] at heq
    have hbind : bind s.image c.program c.sizeHint = .ok (place s.image c.program c.sizeHint) :=
      bind_eq_ok_iff.2 ⟨hverify, rfl⟩
    exact ⟨_, _, _, hcompile, hmeasured, hbackend, hbind,
      (place_functions_size _ _ c.sizeHint).trans_le hsize, heq⟩
  · obtain ⟨program, hprogram⟩ := hloads
    rw [hread] at hprogram
    cases hprogram

/-- A turn has compiled a fragment and put it into the heap, which became `heap`, and its run has ended
with the value `v` on the machine `m`. -/
structure Succeeded (s : Session) (f : Fragment) (c : Compiled) (linker : Linker) (heap : Heap)
    (v : Value) (m : Machine) (r : TurnOutcome × Session) : Prop where
  compile : compileFragment s.names f = .ok c
  placed : Placed c.program s.image.heap heap
  run : Machine.run s.limits.patience
    (starting c.program s.image.heap heap s.image.globals ⟨s.output, none⟩) = .ok (some v) m
  outcome : ∃ bindings,
    r.1 = .evaluated bindings (if c.yieldsValue then some ((s.stored linker c m).shown v) else none)
  session : r.2 = s.stored linker c m
  modelled : r.2.Modelled

theorem endsInExpr_append {p q : List Stmt} (h : endsInExpr q = true) :
    endsInExpr (p ++ q) = true := by
  cases hq : q.getLast? with
  | none =>
    rw [endsInExpr, hq] at h
    cases h
  | some stmt =>
    rw [endsInExpr, List.getLast?_append, hq]
    rw [endsInExpr, hq] at h
    exact h

/-- Two turns that have succeeded, of which the second one found what the first one had left, go along
in one turn. -/
theorem Succeeded.split {s : Session} {p q : Fragment} {c c' whole : Compiled}
    {linker linker' : Linker} {heap heap' : Heap} {v v' : Value} {m m' : Machine}
    {r r' : TurnOutcome × Session} {patience patience' : Nat} (hs : s.Modelled) (horder : s.InOrder)
    (hdefinite : ∀ f ∈ s.image.heap.functions, Definite f.arity f.code)
    (h : (s.unlimited patience).Succeeded p c linker heap v m r)
    (h' : r.2.Succeeded q c' linker' heap' v' m' r')
    (hpq : compileFragment s.names (p ++ q) = .ok whole) (hlength : whole.bytes.length < 256 ^ 4)
    (hloads : ∃ program,
      (s.linker.read s.image.primitives.count whole.bytes whole.sizeHint).1 = .ok program)
    (hroom : r'.2.image.heap.Roomy) (hpatience : 2 * patience ≤ patience') :
    ∃ t, (s.unlimited patience').runFragment (p ++ q) = .ok t ∧ t.1.isSuccess = true ∧
      SameButHandles r'.2 t.2 ∧
      (endsInExpr q = true → ∃ bindings bindings' v, r'.1 = .evaluated bindings (some v) ∧
        t.1 = .evaluated bindings' (some v)) := by
  obtain ⟨r₁, t₁⟩ := r
  obtain ⟨r₂, t₂⟩ := r'
  obtain rfl : t₁ = (s.unlimited patience).stored linker c m := h.session
  obtain rfl : t₂ = ((s.unlimited patience).stored linker c m).stored linker' c' m' := h'.session
  have hcontinues := continues_of_run h.run
  have hcontinues' := continues_of_run h'.run
  have hstored : ∀ slot : Nat, ((s.image.globals.after m.pending).slots[slot]?).getD .empty =
      (m.global? slot).getD .empty := by
    intro slot
    rw [getD_after, Machine.global?, hcontinues.globals]
    rfl
  have hroomless : m.sink.room = none := hcontinues.sink.room
  have hsink : m.sink = ⟨m.sink.text, none⟩ := by
    rw [← hroomless]
  have hrun' : Machine.run patience (starting c'.program m.heap heap'
      (s.image.globals.after m.pending) m.sink) = .ok (some v') m' := by
    rw [hsink]
    exact h'.run
  have hsize : s.image.heap.functions.size + whole.program.bodies.length ≤ handleCount :=
    functions_fit (split_of_compileFragment h.compile h'.compile hpq) h.placed hcontinues.heap.grows
      h'.placed (roomy_of_grows hcontinues'.heap.grows hroom)
  have hstandard := (hs.unlimited patience').toStandard
  obtain ⟨linkerW, unit, image, hran⟩ := ran_of_read hstandard hpq hlength hloads hsize
  obtain ⟨hnames, P, n, w, hP, hslack, hrunW, hpaired, hvalue⟩ := run_of_split h.compile h'.compile hpq
    horder.heap hdefinite horder.globals h.placed h'.placed (hran.finish_starting hstandard rfl).1 rfl
    h.run hstored hrun' hroom
  obtain ⟨bindings, heq⟩ := hran.evaluated hstandard rfl (hrunW patience' hpatience)
  have hstrings : n.heap.strings.size ≤ handleCount := by
    have hle := hpaired.heap.strings.trans_eq (by rw [hslack, Nat.add_zero])
    exact hle.trans hroom.strings
  have hmodelled := (modelled_of_ran (hs.unlimited patience') hran (by
    rw [heq]
    exact hstrings)).2
  refine ⟨_, runFragment_eq hpq, ?_, ?_, fun hends => ?_⟩
  · rw [heq]
    rfl
  · have hglobals : m'.globals = s.image.globals.after m.pending := hcontinues'.globals
    have hglobalsW : n.globals = s.image.globals :=
      (continues_of_run (hrunW patience' hpatience)).globals
    have hlength := h'.modelled.inStep.length
    have hlengthW := hmodelled.inStep.length
    rw [heq] at hlengthW ⊢
    refine sameButHandles_stored hP hpaired hglobals hglobalsW hnames.symm ?_
    rw [hlength, hlengthW]
    exact congrArg Names.nextSlot hnames.symm
  · obtain ⟨bindings', hout⟩ := h'.outcome
    have hyields : c'.yieldsValue = true := (yieldsValue_eq h'.compile).trans hends
    have hyieldsW : whole.yieldsValue = true :=
      (yieldsValue_eq hpq).trans (endsInExpr_append hends)
    rw [if_pos hyields] at hout
    rw [if_pos hyieldsW] at heq
    have hshown : (((s.unlimited patience).stored linker c m).stored linker' c' m').shown v' =
        ((s.unlimited patience').stored linkerW whole n).shown w :=
      shown_stored hP hpaired rfl (hvalue hends)
    refine ⟨bindings', bindings, _, hout, ?_⟩
    rw [heq, ← hshown]

end ScriptMachine.Session
