import ScriptMachine.Proofs.Link.UnitParts

/-!
# Two units in place of one

Two fragments are linked and run one after the other, and their statements are linked and run as one
fragment. The second run goes along the first two, one after the other.
-/

namespace ScriptMachine.Link

open Bytecode Compile Source Simulation

/-! ## Tables -/

/-- What compiles has constants that mean something. -/
theorem checked_of_compileFragment {names : Names} {f : Fragment} {c : Compiled}
    (h : compileFragment names f = .ok c) : Checked c.program := by
  have hlaid := laid_declared h
  intro p hp
  rcases List.mem_append.1 hp with hp | hp
  · obtain ⟨-, -, hsound, -⟩ := hlaid.exists_closure hp
    exact hsound.constants
  · obtain rfl := List.mem_singleton.1 hp
    exact hlaid.main.constants

theorem roomy_of_grows {h k : Heap} (hg : h.Grows k) (hk : k.Roomy) : h.Roomy :=
  ⟨hg.strings_size.trans hk.strings, hg.functions_size.trans hk.functions⟩

theorem prototypes_size {c c' whole : Compiled} (h : Split c c' whole) :
    whole.program.prototypes.size = c.program.prototypes.size + c'.program.prototypes.size := by
  have hlength := h.functions.length_eq
  simp only [List.length_append, Array.length_toList] at hlength
  omega

/-- Where the functions of two fragments have room one after the other, those of the two as one have. -/
theorem functions_fit {c c' whole : Compiled} (hsplit : Split c c' whole) {h₀ h₁ h h₂ : Heap}
    (hplaced : Placed c.program h₀ h₁) (hg : h₁.Grows h) (hplaced' : Placed c'.program h h₂)
    (hroomy : h₂.Roomy) :
    h₀.functions.size + whole.program.bodies.length ≤ handleCount := by
  have hcount := prototypes_size hsplit
  have hgrows := hg.functions_size
  have hroom := hroomy.functions
  rw [hplaced'.functions_size, length_bodies] at hroom
  rw [hplaced.functions_size, length_bodies] at hgrows
  rw [length_bodies]
  omega

/-- Where two fragments have room one after the other, the two as one have. -/
theorem roomy_whole {c c' whole : Compiled} (hsplit : Split c c' whole) {h₀ h₁ h h₂ k : Heap}
    (hplaced : Placed c.program h₀ h₁) (hg : h₁.Grows h) (hplaced' : Placed c'.program h h₂)
    (hwhole : Placed whole.program h₀ k) (hroomy : h₂.Roomy) : k.Roomy := by
  constructor
  · have hstrings := hsplit.strings
    have hgrows := hg.strings_size
    have hroom := hroomy.strings
    rw [hplaced'.strings, Array.size_append] at hroom
    rw [hplaced.strings, Array.size_append] at hgrows
    rw [hwhole.strings, Array.size_append]
    omega
  · rw [hwhole.functions_size]
    exact functions_fit hsplit hplaced hg hplaced' hroomy

/-! ## Runs -/

/-- The machine on which a program starts that was put into `heap`, which then became `heap'`. -/
def starting (program : Program) (heap heap' : Heap) (globals : GlobalTable) (sink : Sink) : Machine :=
  entered (.new heap' globals .standard sink none) (mainHandle program heap)
    program.main.slots.toNat

/-- A run from there leaves the table as it is, and adds strings to the heap and text to the output. -/
theorem continues_of_run {program : Program} {heap heap' : Heap} {globals : GlobalTable} {sink : Sink}
    {steps : Nat} {v : Option Value} {m : Machine}
    (hrun : Machine.run steps (starting program heap heap' globals sink) = .ok v m) :
    (starting program heap heap' globals sink).Continues m :=
  (Machine.keeps_run Registry.additive_standard steps).ok (.refl _) hrun

/-- Such a machine holds the same as another one when its heap and table do. -/
theorem paired_starting {P : Pairing} {program : Program} {heap heap' : Heap} {globals : GlobalTable}
    {sink : Sink} {n : Machine} (hheap : P.Heaps heap' n.heap) (hprimitives : n.primitives = .standard)
    (hglobals : ∀ slot : Nat, ((globals.slots[slot]?).getD .empty).Renamed P.function heap' n.heap
      ((n.global? slot).getD .empty))
    (hstack : program.main.slots.toNat ≤ n.stack.size) (hleast : P.least ≤ n.stack.size)
    (hsink : sink = n.sink) (hroom : sink.room = none) (hfuel : n.fuel = none) :
    (starting program heap heap' globals sink).Paired P n where
  heap := hheap
  primitives := rfl
  primitives' := hprimitives
  globals slot := by
    have hslot : (starting program heap heap' globals sink).global? slot = globals.slots[slot]? := rfl
    rw [hslot]
    exact hglobals slot
  pending slot hslot := absurd hslot (by simp [starting, entered, Machine.new])
  stack := by simpa [starting, entered] using hstack
  least := hleast
  sink := hsink
  room := hroom
  fuel := rfl
  fuel' := hfuel

/-- Live globals are renamed to themselves in larger heaps. -/
theorem renamed_live {r : Nat → Nat → Prop} {h h' k' : Heap} {primitives : Nat} {globals : GlobalTable}
    (hlive : ∀ v ∈ globals.slots, v.kind ≠ .empty → v.Live h primitives) (hg : h.Grows h')
    (hg' : h.Grows k') (hr : ∀ i < h.functions.size, r i i) (slot : Nat) :
    ((globals.slots[slot]?).getD .empty).Renamed r h' k' ((globals.slots[slot]?).getD .empty) := by
  cases hv : globals.slots[slot]? with
  | none => exact .empty
  | some v =>
    rw [Option.getD_some]
    by_cases hempty : v.kind = .empty
    · exact .same v (by rw [hempty]; decide) (by rw [hempty]; decide)
    · exact (Value.Renamed.of_live (hlive v (Array.mem_of_getElem? hv) hempty) hr).grows hg hg'

section

variable {names : Names} {p q : Fragment} {c c' whole : Compiled} {h₀ h₁ h₂ k : Heap}
  {primitives steps : Nat} {globals globals' : GlobalTable} {sink : Sink} {e e' : Machine}
  {v v' : Value}

/-- How the heaps belong together before any of the parts is in place. -/
def atOutset (h k : Heap) (least : Nat) : Pairing :=
  ⟨fun i j => i = j ∧ i < h.functions.size, h, k, 0, least⟩

/-- The run of the first of two parts: the whole goes along from its start. -/
theorem run_of_first {part whole : Program} {stmts : List Stmt} {shift slack : Nat}
    (hpart : PartPlaced (atOutset h₀ k whole.main.slots.toNat) part whole stmts 0 0 (1 + shift) h₁ h₀)
    (hstart : whole.main.code[0]? = some (.abx .loadNil resultReg 0))
    (hlive : ∀ v ∈ globals.slots, v.kind ≠ .empty → v.Live h₀ primitives)
    (hstrings : k.strings.size ≤ h₁.strings.size + slack) (hunbounded : sink.room = none)
    (hrun : Machine.run steps (starting part h₀ h₁ globals sink) = .ok (some v) e)
    (hroom : ¬ Machine.FullFor (joinPart (atOutset h₀ k whole.main.slots.toNat) part 0 h₁ h₀ slack) e) :
    ∃ j n, j + 1 ≤ steps ∧ Machine.run j (starting whole h₀ k globals sink) = .ok none n ∧
      e.Paired (joinPart (atOutset h₀ k whole.main.slots.toNat) part 0 h₁ h₀ slack) n ∧
      n.frames = [⟨mainHandle whole h₀, 1 + shift, 0, 0⟩] := by
  have hroom₀ := hpart.isPart.room
  have hslots := hpart.isPart.slots
  have hcells : 0 < (starting whole h₀ k globals sink).stack.size := by
    simp only [starting, entered, Array.size_replicate]
    omega
  have hfirst := step_first rfl hpart.function?_main' hstart rfl hcells
  have hpaired : (starting part h₀ h₁ globals sink).Paired
      (joinPart (atOutset h₀ k whole.main.slots.toNat) part 0 h₁ h₀ slack)
      { (starting whole h₀ k globals sink).past ⟨mainHandle whole h₀, 0, 0, 0⟩ [] with
        stack := (starting whole h₀ k globals sink).stack.set 0 .nil hcells } := by
    refine paired_starting ⟨.refl _, .refl _, hstrings⟩ rfl ?_ ?_ ?_ rfl hunbounded rfl
    · exact renamed_live hlive hpart.placed.grows hpart.placed'.grows fun _ hi => .inl ⟨rfl, hi⟩
    · simpa [starting, entered] using hslots
    · simp [starting, entered, joinPart, atOutset]
  obtain ⟨j, n, hj, hn, hen, hframes, -⟩ := hpart.run_along hpaired rfl rfl
    (by simpa [starting, entered] using hroom₀) hrun hroom
  refine ⟨j + 1, n, by omega, ?_, hen, hframes⟩
  simp only [Machine.run, hfirst]
  exact hn

/-- The run of the last of the parts: where the ones before it have left `e`, the whole goes along to
its end. -/
theorem run_of_last {Q : Pairing} {part whole : Program} {stmts : List Stmt} {offset shift stop : Nat}
    {base : Heap} {n : Machine}
    (hpart : PartPlaced (Q.restart e.heap) part whole stmts offset shift stop h₂ base)
    (hlast : whole.main.code[stop + shift]? = some (.abc .ret resultReg 0 0)) (hen : e.Paired Q n)
    (hframes : n.frames = [⟨mainHandle whole base, 1 + shift, 0, 0⟩])
    (hslack : Q.slack ≤ part.strings.size) (hleast : whole.main.slots.toNat ≤ Q.least)
    (hstored : ∀ slot : Nat, (globals'.slots[slot]?).getD .empty = (e.global? slot).getD .empty)
    (hrun : Machine.run steps (starting part e.heap h₂ globals' e.sink) = .ok (some v') e')
    (hroomy : e'.heap.Roomy) :
    ∃ j n' w, j + 2 ≤ steps ∧ Machine.run (j + 1) n = .ok (some w) n' ∧
      e'.Paired (joinPart (Q.restart e.heap) part offset h₂ base 0) n' ∧
      (endsInExpr stmts = true → v'.Renamed
        (joinPart (Q.restart e.heap) part offset h₂ base 0).function e'.heap n'.heap w) := by
  have hslots := hpart.isPart.slots
  have hroom := hpart.isPart.room
  have hpaired : (starting part e.heap h₂ globals' e.sink).Paired
      (joinPart (Q.restart e.heap) part offset h₂ base 0) n := by
    refine paired_starting ⟨.refl _, hen.heap.second, ?_⟩ hen.primitives' (fun slot => ?_)
      (hslots.trans (hleast.trans hen.least)) hen.least hen.sink hen.room hen.fuel'
    · have hstrings := hen.heap.strings
      have hplaced : h₂.strings = e.heap.strings ++ part.strings := hpart.placed.strings
      rw [hplaced, Array.size_append]
      show n.heap.strings.size ≤ e.heap.strings.size + part.strings.size + 0
      omega
    · rw [hstored]
      exact (hen.globals slot).mono (fun _ _ => .inl) hpart.placed.grows (.refl _)
  obtain ⟨j, n', hj, hn, hen', hframes', hvalue⟩ := hpart.run_along hpaired rfl hframes
    (by simpa [starting, entered] using hroom) hrun (Machine.not_full_of_le hroomy.strings)
  have hsize : 0 < n'.stack.size := hroom.trans_le (hslots.trans (hleast.trans hen'.least))
  have hw : n'.stack[resultReg]? = some n'.stack[0] := Array.getElem?_eq_getElem hsize
  have hend := step_last hframes' (hen'.heap.second.grows.function? hpart.function?_main') hlast
    hen'.fuel' hw
  refine ⟨j, { n'.past ⟨mainHandle whole base, stop + shift, 0, 0⟩ [] with frames := [] },
    n'.stack[0], hj, ?_, { hen' with }, fun hends => ?_⟩
  · rw [Machine.run_add hn]
    simp only [Machine.run, hend]
  · obtain ⟨u, hu, hvu⟩ := hvalue hends
    obtain rfl := Option.some.inj (hu.symm.trans hw)
    exact hvu

/-- When two fragments have been run one after the other, the run of the two as one has gone along: it
ends on a machine that holds the same, with no more strings, and hands back the same value when that is
the second one's. The two as one define the same names. -/
theorem run_of_split (hp : compileFragment names p = .ok c)
    (hq : compileFragment (names.commit c.definitions) q = .ok c')
    (hpq : compileFragment names (p ++ q) = .ok whole) (horder : h₀.InOrder primitives)
    (hdefinite : ∀ f ∈ h₀.functions, Definite f.arity f.code)
    (hlive : ∀ v ∈ globals.slots, v.kind ≠ .empty → v.Live h₀ primitives)
    (hplaced : Placed c.program h₀ h₁) (hplaced' : Placed c'.program e.heap h₂)
    (hwhole : Placed whole.program h₀ k) (hunbounded : sink.room = none)
    (hrun : Machine.run steps (starting c.program h₀ h₁ globals sink) = .ok (some v) e)
    (hstored : ∀ slot : Nat, (globals'.slots[slot]?).getD .empty = (e.global? slot).getD .empty)
    (hrun' : Machine.run steps (starting c'.program e.heap h₂ globals' e.sink) = .ok (some v') e')
    (hroomy : e'.heap.Roomy) :
    names.commit whole.definitions = (names.commit c.definitions).commit c'.definitions ∧
    ∃ (P : Pairing) (n : Machine) (w : Value), P.Lawful ∧ P.slack = 0 ∧
      (∀ patience ≥ 2 * steps, Machine.run patience (starting whole.program h₀ k globals sink) =
        .ok (some w) n) ∧
      e'.Paired P n ∧ (endsInExpr q = true → v'.Renamed P.function e'.heap n.heap w) := by
  have hadds : h₁.AddsStrings e.heap := (continues_of_run hrun).heap
  have hadds' : h₂.AddsStrings e'.heap := (continues_of_run hrun').heap
  have hroomy₂ : h₂.Roomy := roomy_of_grows hadds'.grows hroomy
  have hroomy₁ : h₁.Roomy := roomy_of_grows (hadds.grows.trans hplaced'.grows) hroomy₂
  have hsplit := split_of_compileFragment hp hq hpq
  have hroomyW : k.Roomy := roomy_whole hsplit hplaced hadds.grows hplaced' hwhole hroomy₂
  have hfew := hplaced.few hroomy₁
  have hfew' := hplaced'.few hroomy₂
  have hfewW := hwhole.few hroomyW
  obtain ⟨hnames, hstart, shift, stop, hpart, hpart', hlast⟩ := parts_of_compileFragment hp hq hpq
    hfew.1 hfew.2 hfew'.1 hfew'.2 hfewW.1 hfewW.2
  have hchecked := checked_of_compileFragment hpq
  have hfirst : PartPlaced (atOutset h₀ k whole.program.main.slots.toNat) c.program whole.program p 0 0
      (1 + shift) h₁ h₀ :=
    ⟨lawful_self horder hdefinite hwhole.grows 0 _, hpart, hplaced, hwhole, hroomy₁, hroomyW,
      checked_of_compileFragment hp, hchecked, fun i j hij => hij.1 ▸ hij.2⟩
  have hstrings : k.strings.size ≤ h₁.strings.size + c'.program.strings.size := by
    have hle := hsplit.strings
    rw [hwhole.strings, hplaced.strings, Array.size_append, Array.size_append]
    omega
  have hslack : e.heap.strings.size + c'.program.strings.size ≤ handleCount := by
    rw [← Array.size_append, ← hplaced'.strings]
    exact hroomy₂.strings
  obtain ⟨j, n, hj, hn, hen, hframes⟩ := run_of_first hfirst hstart hlive hstrings hunbounded hrun
    (Machine.not_full_of_le hslack)
  have hsecond : PartPlaced ((joinPart (atOutset h₀ k whole.program.main.slots.toNat) c.program 0 h₁ h₀
      c'.program.strings.size).restart e.heap) c'.program whole.program q c.program.prototypes.size shift
      stop h₂ h₀ := by
    refine ⟨(hfirst.lawful_joinPart _).restart hadds.grows, hpart', hplaced', hwhole, hroomy₂, hroomyW,
      checked_of_compileFragment hq, hchecked, ?_⟩
    rintro i j (⟨rfl, hi⟩ | ⟨l, hl, -, rfl⟩)
    · exact Nat.lt_add_right _ hi
    · omega
  obtain ⟨j', n', w, hj', hn', hen', hvalue⟩ := run_of_last hsecond hlast hen hframes (Nat.le_refl _)
    (Nat.le_refl _) hstored hrun' hroomy
  have hend : Machine.run (j + (j' + 1)) (starting whole.program h₀ k globals sink) =
      .ok (some w) n' := by
    rw [Machine.run_add hn, hn']
  refine ⟨hnames, _, n', w, hsecond.lawful_joinPart 0, rfl, fun patience hpatience => ?_, hen', hvalue⟩
  have hle : j + (j' + 1) ≤ patience := by omega
  rw [Machine.run_of_ended hle fun o ho => ?_, hend]
  rw [hend] at ho
  cases ho

end

end ScriptMachine.Link
