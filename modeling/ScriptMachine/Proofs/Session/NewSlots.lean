import ScriptMachine.Proofs.Session.Immutable

/-!
# New slots

The names of a session count the slots that were given out, and its table grows by whatever a run
writes. As long as units that were compiled elsewhere write to slots that were given out, the table
is never longer than that count, so a definition gets a slot that held nothing. A unit that writes
further on is not noticed by the names: the next definition overwrites what it stored.
-/

namespace ScriptMachine

open Bytecode

/-- The code of a program writes only to slots below `n`. -/
def Bytecode.Program.WritesBelow (n : Nat) (p : Program) : Prop :=
  ∀ b ∈ p.bodies, ∀ w ∈ b.code, w.WritesGlobal → w.bx < n

instance (w : Word) : Decidable w.WritesGlobal :=
  inferInstanceAs (Decidable (_ ∨ _))

-- the code is looked through word by word; there are too many words to look through them all
instance (n : Nat) (p : Program) : Decidable (p.WritesBelow n) :=
  decidable_of_iff ((p.bodies.all fun b => b.code.all fun w => w.WritesGlobal → w.bx < n) = true)
    (by simp only [Program.WritesBelow, List.all_eq_true, Array.all_eq_true_iff_forall_mem,
      decide_eq_true_eq])

/-- The table that holds the writes of a run is as long as it was, or as the writes ask for. -/
theorem GlobalTable.size_le_of_stored {table before : GlobalTable} {pending : Writes} {n : Nat}
    (hslots : ∀ i : Nat, table.slots[i]? = (pending[i]?).or
      (before.ensureLength (lengthFor pending.toList)).slots[i]?)
    (hbefore : before.slots.size ≤ n)
    (hpending : ∀ (i : Nat) (v : Value), pending[i]? = some v → i < n) : table.slots.size ≤ n := by
  have hlength : lengthFor pending.toList ≤ n := by
    refine lengthFor_le_iff.2 fun w hw => ?_
    obtain ⟨i, v⟩ := w
    exact hpending i v (Std.TreeMap.mem_toList_iff_getElem?_eq_some.1 hw)
  have hnone : pending[n]? = none := by
    rw [Option.eq_none_iff_forall_ne_some]
    intro v hv
    exact absurd (hpending n v hv) (Nat.lt_irrefl n)
  have hslot := hslots n
  rw [hnone, Option.none_or, getElem?_ensureLength, if_neg (by omega), if_neg (by omega)] at hslot
  exact Array.getElem?_eq_none_iff.1 hslot

theorem GlobalTable.isBound_of_size_le {t : GlobalTable} {slot : Nat} (h : t.slots.size ≤ slot) :
    t.isBound slot = false := by
  simp [isBound, Array.getElem?_eq_none h]

namespace Session

open Source Compile Link Machine

/-! ## Tidy sessions -/

/-- A session whose table is no longer than the slots that were given out, and in which the functions
that the globals lead to write to no others. -/
structure Tidy (s : Session) : Prop extends Standard s where
  confined : ∃ known, s.image.Confined known (· < s.names.nextSlot)
  short : s.image.globals.slots.size ≤ s.names.nextSlot

variable {s t : Session}

theorem tidy_new (files : Files) (limits : Limits) :
    (Session.new standardCompiler files limits).Tidy where
  toStandard := standard_new files limits
  confined := by
    obtain ⟨known, hknown⟩ := (guarded_new files limits).confined
    exact ⟨known, hknown.mono fun slot hslot => hslot.2⟩
  short := Nat.zero_le _

/-- A session in which nothing happened but that the heap has grown. -/
theorem Tidy.grows (h : s.Tidy) (hcompiler : t.compiler = s.compiler)
    (hbackend : t.linker.backend = s.linker.backend) (hnames : t.names = s.names)
    (hglobals : t.image.globals = s.image.globals)
    (hprimitives : t.image.primitives = s.image.primitives)
    (hheap : s.image.heap.Grows t.image.heap) : t.Tidy where
  compiler := hcompiler.trans h.compiler
  backend := hbackend.trans h.backend
  primitives := hprimitives.trans h.primitives
  order := hnames ▸ h.order
  confined := by
    obtain ⟨known, hknown⟩ := h.confined
    exact ⟨known, hnames ▸ hknown.grows hglobals hheap⟩
  short := by
    rw [hglobals, hnames]
    exact h.short

/-! ## Units -/

/-- A unit that writes to slots that were given out, its own among them, leaves a session tidy. -/
theorem tidy_finish {u : FragmentUnit} {program : Program} {linker : Linker} {unit : LinkedUnit}
    {image : Image} (h : s.Tidy) (hrow : InARow s.names.nextSlot u.definitions)
    (hbackend : linker.backend = s.linker.backend)
    (hbind : bind s.image program u.sizeHint = .ok (unit, image))
    (hsize : image.heap.functions.size ≤ handleCount)
    (hwrites : program.WritesBelow (s.names.commit u.definitions).nextSlot) :
    (finish { s with linker := linker } u
      (unit.run image ⟨s.output, none⟩ s.limits.fuel s.limits.patience)).2.Tidy := by
  obtain ⟨-, hglobals, hprimitives, -, -⟩ := bind_heap hbind hsize
  have hbound := grows_of_bind hbind hsize
  have hadd : image.primitives.Additive := by
    rw [hprimitives, h.primitives]
    exact Registry.additive_standard
  rcases finish_ends { s with linker := linker } u unit image hadd with
    ⟨m, o, hheap, -, heq⟩ | ⟨v, m, table, hrun, hheap, hslots, heq⟩
  · rw [heq]
    exact h.grows rfl hbackend rfl hglobals hprimitives (hbound.trans hheap)
  · -- the run has stayed among the slots that are given out by now
    obtain ⟨known, hknown⟩ := h.confined
    have hle : s.names.nextSlot ≤ (s.names.commit u.definitions).nextSlot := by
      rw [Names.nextSlot_commit _ _ hrow]
      exact Nat.le_add_right _ _
    have hconfined := confined_of_bind hknown hbind hsize (fun slot hslot => hslot.trans_le hle)
      fun p hp ip w hw => hwrites p (List.mem_append_left _ hp) w (Array.mem_of_getElem? hw)
    have hprimitives' : ∀ p ∈ s.image.primitives.entries, p ∈ ScriptMachine.Standard.primitives := by
      rw [h.primitives]
      exact fun p hp => Array.mem_toList_iff.2 hp
    have hwithin := within_of_bind hconfined hbind hsize hprimitives' (fun slot hslot => hslot)
      (fun ip w hw => hwrites _ (List.mem_append_right _ (List.mem_singleton_self _)) w
        (Array.mem_of_getElem? hw)) ⟨s.output, none⟩ s.limits.fuel
    have hentered : (Region.among (joined known s.image.heap.functions.size program)
        (· = unit.main) (· < (s.names.commit u.definitions).nextSlot)).function unit.main := .inr rfl
    have hpending := ((guards_execute hentered s.limits.patience).ok hwithin hrun).2.pending
    have hgrown : Image.Confined { image with heap := m.heap } _ _ := hconfined.grows rfl hheap
    rw [heq]
    exact {
      compiler := h.compiler
      backend := hbackend.trans h.backend
      primitives := hprimitives.trans h.primitives
      order := h.order.commit hrow
      confined := ⟨_, hgrown.commit (fun i v hv => (hpending i v hv).1) hslots⟩
      short := GlobalTable.size_le_of_stored hslots (hglobals ▸ h.short.trans hle)
        fun i v hv => (hpending i v hv).2 }

/-- A compiled fragment writes to slots that are given out once it has succeeded. -/
theorem writesBelow_of_compileFragment {names : Names} {f : Fragment} {c : Compiled}
    (h : compileFragment names f = .ok c) (hnames : names.InOrder) (hm : c.program.Measured) :
    c.program.WritesBelow (names.commit c.definitions).nextSlot := by
  obtain ⟨fs, hlaid⟩ := laid_of_compileFragment h
  have hstrings := Nat.le_of_lt hm.strings
  have hnext := Names.nextSlot_commit names c.definitions hlaid.row
  have hold : ∀ slot, names.Assignable slot → slot < (names.commit c.definitions).nextSlot := by
    rintro slot ⟨name, g, hg, -, rfl⟩
    have hbelow := hnames.globals name g hg
    omega
  intro b hb w hw hwrites
  obtain ⟨ip, hip⟩ := Array.mem_iff_getElem?.1 hw
  rcases List.mem_append.1 hb with hb | hb
  · rcases assignable_of_prototype h hstrings hb hip hwrites with hassigned | ⟨d, hd, -, hslot⟩
    · exact hold _ hassigned
    · have hbetween := hlaid.row.between hd
      omega
  · obtain rfl := List.mem_singleton.1 hb
    rcases assignable_of_main h hstrings (Nat.le_of_lt hm.prototypes) hip hwrites with
      hassigned | ⟨-, hslot⟩
    · exact hold _ hassigned
    · exact hslot

/-- Code leaves a session tidy. -/
theorem tidy_runSource (text : List Char) (h : s.Tidy) (hbounded : (s.runSource text).2.Bounded) :
    (s.runSource text).2.Tidy := by
  rcases runSource_ends text h.toStandard hbounded with
    ⟨message, heq⟩ | ⟨e, linker, heq, -, hbackend⟩ | ⟨f, c, linker, unit, image, -, -, hran⟩
  · rw [heq]
    exact h
  · rw [heq]
    exact h.grows rfl hbackend rfl rfl rfl (.refl _)
  · obtain ⟨fs, hlaid⟩ := laid_of_compileFragment hran.compile
    rw [hran.finish]
    exact tidy_finish h hlaid.row hran.backend hran.bind hran.size
      (writesBelow_of_compileFragment hran.compile h.order hran.measured)

/-- A linker with the backend of the language hands back what the bytes say. -/
theorem decode_of_read {l l' : Linker} {count : Nat} {bytes : Bytes} {sizeHint : Nat}
    {program : Program} (hl : l.backend = some .bytecode)
    (h : l.read count bytes sizeHint = (.ok program, l')) : Program.decode bytes = .ok program := by
  unfold Linker.read at h
  rw [hl] at h
  simp only [Backend.bytecode] at h
  split at h
  · simp at h
  · next hdecode =>
    split at h
    · simp at h
    · simp only [Prod.mk.injEq, Except.ok.injEq] at h
      rwa [← h.1]

/-- So does a unit from elsewhere, if it writes to slots that were given out. -/
theorem tidy_runFile {bytes : Bytes} (h : s.Tidy) (hbounded : (s.runFile bytes).2.Bounded)
    (hwrites : ∀ p, Program.decode bytes = .ok p → p.WritesBelow s.names.nextSlot) :
    (s.runFile bytes).2.Tidy := by
  unfold runFile at hbounded ⊢
  generalize hu : (⟨bytes, announcedSize bytes, [], true⟩ : FragmentUnit) = u at hbounded ⊢
  have hrow : InARow s.names.nextSlot u.definitions := by
    rw [← hu]
    trivial
  have hbackend := (read_eq s.linker s.image.primitives.count u.bytes u.sizeHint).1
  rcases hread : s.linker.read s.image.primitives.count u.bytes u.sizeHint with
    ⟨e | program, linker⟩
  · rw [runUnit_eq, hread]
    rw [hread] at hbackend
    exact h.grows rfl hbackend rfl rfl rfl (.refl _)
  · have hadd : s.image.primitives.Additive := by
      rw [h.primitives]
      exact Registry.additive_standard
    have hsize := (functions_size_le_runUnit hadd hread).trans hbounded.functions
    have hbind : bind s.image program u.sizeHint = .ok (place s.image program u.sizeHint) :=
      bind_eq_ok_iff.2 ⟨verify_of_read hread, rfl⟩
    have hbelow : program.WritesBelow (s.names.commit u.definitions).nextSlot := by
      rw [Names.nextSlot_commit _ _ hrow, ← hu]
      exact hwrites program (by simpa [← hu] using decode_of_read h.backend hread)
    rw [hread] at hbackend
    rw [runUnit_eq, hread]
    exact tidy_finish h hrow hbackend hbind hsize hbelow

/-- What a session leads to is tidy. -/
theorem tidy_of_leads (h : s.Leads t) (hs : s.Tidy) (hbounded : t.Bounded) : t.Tidy := by
  induction h with
  | refl => exact hs
  | code _ text ih => exact tidy_runSource text (ih (bounded_before_runSource text hbounded)) hbounded
  | libraries _ l ih =>
    have hbefore := ih ⟨hbounded.functions, hbounded.requests, hbounded.additive⟩
    exact hbefore.grows rfl rfl rfl rfl rfl (.refl _)

/-! ## Drivers -/

/-- What a driver asks of a session: to run a turn, or a unit that was compiled elsewhere. -/
inductive Order
  | turn (text : String)
  | file (bytes : Bytes)

/-- Carries out an order. -/
def obey (s : Session) : Order → Session
  | .turn text => (s.runTurn text).2
  | .file bytes => (s.runFile bytes).2

/-- The units among orders write to slots that have been given out when they are run. -/
def Respects (s : Session) : List Order → Prop
  | [] => True
  | .turn text :: rest => Respects (s.obey (.turn text)) rest
  | .file bytes :: rest =>
    (∀ p, Program.decode bytes = .ok p → p.WritesBelow s.names.nextSlot) ∧
      Respects (s.obey (.file bytes)) rest

theorem leads_runTurn (s : Session) (text : String) : s.Leads (s.runTurn text).2 :=
  leads_runTurns .refl [text]

theorem bounded_before_obey (s : Session) (order : Order) (h : (s.obey order).Bounded) :
    s.Bounded := by
  cases order with
  | turn text => exact bounded_before_leads (leads_runTurn s text) h
  | file bytes => exact bounded_before_runUnit _ h

theorem bounded_before_orders (orders : List Order) (s : Session)
    (h : (orders.foldl obey s).Bounded) : s.Bounded := by
  induction orders generalizing s with
  | nil => exact h
  | cons order rest ih => exact bounded_before_obey s order (ih _ h)

/-- Orders leave a session tidy. -/
theorem tidy_orders (orders : List Order) (s : Session) (h : s.Tidy)
    (hrespects : s.Respects orders) (hbounded : (orders.foldl obey s).Bounded) :
    (orders.foldl obey s).Tidy := by
  induction orders generalizing s with
  | nil => exact h
  | cons order rest ih =>
    have hnext := bounded_before_orders rest _ hbounded
    cases order with
    | turn text => exact ih _ (tidy_of_leads (leads_runTurn s text) h hnext) hrespects hbounded
    | file bytes => exact ih _ (tidy_runFile h hnext hrespects.1) hrespects.2 hbounded

/-! ## Definitions -/

/-- What has been defined since names were those of `s`: a name has the slot that it had, or one of
those that were given out since. -/
structure DefinedSince (s t : Session) : Prop where
  next : s.names.nextSlot ≤ t.names.nextSlot
  global : ∀ name g, t.names.global? name = some g → s.names.global? name = some g ∨
    s.names.nextSlot ≤ g.slot ∧ g.slot < t.names.nextSlot

theorem DefinedSince.refl (s : Session) : DefinedSince s s :=
  ⟨le_refl _, fun _ _ hg => .inl hg⟩

theorem DefinedSince.commit {ds : List Definition} {w : Session} (h : DefinedSince s t)
    (hrow : InARow t.names.nextSlot ds) (hw : w.names = t.names.commit ds) :
    DefinedSince s w := by
  have hnext := Names.nextSlot_commit t.names ds hrow
  refine ⟨?_, fun name g hg => ?_⟩
  · rw [hw, hnext]
    exact Nat.le_add_right_of_le h.next
  · rw [hw] at hg
    rw [hw, hnext]
    have hle := h.next
    rcases Names.global?_commit hg with ⟨d, hd, rfl⟩ | hold
    · have hbetween := hrow.between hd
      right
      show s.names.nextSlot ≤ d.slot ∧ d.slot < _
      omega
    · rcases h.global name g hold with hsame | hnew
      · exact .inl hsame
      · right
        omega

theorem definedSince_of_leads (h : s.Leads t) (hs : s.Tidy) (hbounded : t.Bounded) :
    DefinedSince s t := by
  induction h with
  | refl => exact .refl s
  | @code t h text ih =>
    have hbefore := bounded_before_runSource text hbounded
    have hsince := ih hbefore
    rcases runSource_ends text (tidy_of_leads h hs hbefore).toStandard hbounded with
      ⟨message, heq⟩ | ⟨e, linker, heq, -, -⟩ | ⟨f, c, linker, unit, image, -, -, hran⟩
    · rw [heq]
      exact hsince
    · rw [heq]
      exact ⟨hsince.next, hsince.global⟩
    · obtain ⟨fs, hlaid⟩ := laid_of_compileFragment hran.compile
      have hadd : image.primitives.Additive := by
        rw [(bind_heap hran.bind hran.size).2.2.1]
        exact hbefore.additive
      rcases hran.ends hadd with ⟨m, o, -, -, heq⟩ | ⟨v, m, table, -, -, -, heq⟩
      · rw [heq]
        exact ⟨hsince.next, hsince.global⟩
      · exact hsince.commit hlaid.row (by rw [heq])
  | libraries _ l ih =>
    have hsince := ih ⟨hbounded.functions, hbounded.requests, hbounded.additive⟩
    exact ⟨hsince.next, hsince.global⟩

theorem primitives_of_orders (orders : List Order) (s : Session) :
    (orders.foldl obey s).image.primitives = s.image.primitives := by
  induction orders generalizing s with
  | nil => rfl
  | cons order rest ih =>
    refine (ih _).trans ?_
    cases order with
    | turn text => exact primitives_of_leads (leads_runTurn s text)
    | file bytes => exact runUnit_primitives s _

/-- A definition overwrites nothing, as long as units from elsewhere write to slots that were given
out. Let a session have carried out such orders. Then no slot from the next free one on is bound; a
name that a turn binds anew gets one of these slots; and so does every definition of code that is
compiled in the course of the turn, which finds its slot unbound. -/
theorem new_slots_unbound (files : Files) (limits : Limits) (orders : List Order) (text : String)
    (s s' : Session) (o : TurnOutcome)
    (hs : orders.foldl obey (Session.new standardCompiler files limits) = s)
    (hrespects : (Session.new standardCompiler files limits).Respects orders)
    (hturn : s.runTurn text = (o, s')) (hroom : s'.image.heap.functions.size ≤ handleCount)
    (hlengths : ∀ r ∈ s'.linker.requests, r.length < 256 ^ 4) :
    (∀ slot, s.names.nextSlot ≤ slot → s.image.globals.isBound slot = false) ∧
      (∀ name g, s'.names.global? name = some g → s.names.global? name = some g ∨
        s.names.nextSlot ≤ g.slot ∧ g.slot < s'.names.nextSlot ∧
          s.image.globals.isBound g.slot = false) ∧
      ∀ (w : Session) (code : String) (u : FragmentUnit) (d : Definition), s.Leads w → w.Leads s' →
        w.compiler w.names code = .ok u → d ∈ u.definitions →
        s.image.globals.isBound d.slot = false ∧ w.image.globals.isBound d.slot = false := by
  have hleads : s.Leads s' := by
    have h := leads_runTurn s text
    rwa [hturn] at h
  have hadd : s'.image.primitives.Additive := by
    rw [primitives_of_leads hleads, ← hs, primitives_of_orders]
    exact Registry.additive_standard
  have hbounded : s'.Bounded := ⟨hroom, hlengths, hadd⟩
  have htidy : s.Tidy := by
    have hbefore : s.Bounded := bounded_before_leads hleads hbounded
    rw [← hs] at hbefore ⊢
    exact tidy_orders orders _ (tidy_new files limits) hrespects hbefore
  have hunbound : ∀ slot, s.names.nextSlot ≤ slot → s.image.globals.isBound slot = false :=
    fun slot hslot => GlobalTable.isBound_of_size_le (htidy.short.trans hslot)
  refine ⟨hunbound, fun name g hg => ?_, fun w code u d hsw hws hcompile hd => ?_⟩
  · rcases (definedSince_of_leads hleads htidy hbounded).global name g hg with hold | ⟨hle, hlt⟩
    · exact .inl hold
    · exact .inr ⟨hle, hlt, hunbound g.slot hle⟩
  · have hbefore := bounded_before_leads hws hbounded
    have hw := tidy_of_leads hsw htidy hbefore
    rw [hw.compiler] at hcompile
    obtain ⟨f, c, -, hc, rfl⟩ := standardCompiler_ok hcompile
    obtain ⟨fs, hlaid⟩ := laid_of_compileFragment hc
    have hslot := (hlaid.row.between hd).1
    have hnext := (definedSince_of_leads hsw htidy hbefore).next
    exact ⟨hunbound _ (hnext.trans hslot), GlobalTable.isBound_of_size_le (hw.short.trans hslot)⟩

/-- A unit that stores a number in slot 0. -/
def storingUnit : Program :=
  ⟨#[], #[], ⟨"main", 0, 1, #[.int 7],
    #[.abx .loadConst 0 0, .abx .defGlobal 0 0, .abc .ret 0 0 0]⟩⟩

/-- A new session for short runs, without files. -/
def plainSession : Session :=
  Session.new standardCompiler (FileTree.empty []).toFiles ⟨some 100, 0⟩

/-- Orders that give out slot 0 before the unit stores its number there. -/
def respectfulOrders : List Order :=
  [.turn "mut g = 1", .file storingUnit.encode]

/-- After these orders a definition gets slot 1, which is not bound. -/
theorem respectfulOrders_new_slot :
    plainSession.Respects respectfulOrders ∧
      (respectfulOrders.foldl obey plainSession).image.globals.slots[0]? = some (.int 7) ∧
      ((respectfulOrders.foldl obey plainSession).runTurn "let x = 2").2.names.global? "x" =
        some ⟨1, false⟩ ∧
      (respectfulOrders.foldl obey plainSession).image.globals.isBound 1 = false := by
  have hdecode : Program.decode storingUnit.encode = .ok storingUnit := by decide +kernel
  have hrespects : plainSession.Respects respectfulOrders := by
    refine ⟨fun p hp => ?_, trivial⟩
    obtain rfl := Except.ok.inj (hdecode.symm.trans hp)
    decide +kernel
  have hdefined : ((respectfulOrders.foldl obey plainSession).runTurn
      "let x = 2").2.names.global? "x" = some ⟨1, false⟩ := by decide +kernel
  refine ⟨hrespects, by decide +kernel, hdefined, ?_⟩
  have hnew := new_slots_unbound (FileTree.empty []).toFiles ⟨some 100, 0⟩ respectfulOrders "let x = 2"
    (respectfulOrders.foldl obey plainSession) _ _ rfl hrespects rfl (by decide +kernel)
    (by decide +kernel)
  rcases hnew.2.1 "x" ⟨1, false⟩ hdefined with hold | ⟨-, -, hunbound⟩
  · exact absurd hold (by decide +kernel)
  · exact hunbound

/-- A unit that stores its number in a slot that was not given out: the next definition takes the
slot, and the number is lost. -/
theorem definition_overwrites_unit :
    (plainSession.obey (.file storingUnit.encode)).image.globals.isBound 0 = true ∧
      (plainSession.obey (.file storingUnit.encode)).image.globals.slots[0]? = some (.int 7) ∧
      ((plainSession.obey (.file storingUnit.encode)).runTurn "let x = 1").1.isSuccess = true ∧
      ((plainSession.obey (.file storingUnit.encode)).runTurn "let x = 1").2.names.global? "x" =
        some ⟨0, false⟩ ∧
      ((plainSession.obey (.file storingUnit.encode)).runTurn "let x = 1").2.image.globals.slots[0]? =
        some (.int 1) := by
  decide +kernel

end Session
end ScriptMachine
