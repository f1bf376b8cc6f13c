import ScriptMachine.Proofs.Session.Fragments
import ScriptMachine.Proofs.Simulation.Agreement

/-!
# Compiler and image in step

The compiler numbers slots, a run writes to them, the image keeps what was written, and the names
record what was defined. After every turn of a session these agree, and no code of a turn fails for
another reason than what it computes or the limits of the machine.
-/

namespace ScriptMachine.Session

open Source Bytecode Compile Evaluation Link Simulation

/-- The names that a session knows and the table of its image are in step: the table has just the
slots that were given out, all of them bound, and each global has a slot of its own among them. -/
structure InStep (s : Session) : Prop where
  length : s.image.globals.length = s.names.nextSlot
  bound : ∀ slot < s.names.nextSlot, s.image.globals.isBound slot = true
  below : ∀ name g, s.names.global? name = some g → g.slot < s.names.nextSlot
  apart : s.names.Apart

theorem InStep.kind_ne_empty {s : Session} (h : s.InStep) {slot : Nat} {v : Value}
    (hv : s.image.globals.slots[slot]? = some v) : v.kind ≠ .empty := by
  have hlt := (Array.getElem?_eq_some_iff.1 hv).1
  have hbound := h.bound slot (h.length ▸ hlt)
  simpa [GlobalTable.isBound, hv] using hbound

/-- An outcome that a turn may have: code is refused by the compiler, its file is too large for the
loader, or its run stops because of what it computes or at a limit. -/
def Expected : TurnOutcome → Prop
  | .linkFailed e => ∃ refusal, e = .malformed (.unreadable refusal) ∧ refusal.kind = .security
  | .faulted e => e.Ordinary ∨ e = .stackOverflow ∨ ∃ limit, e = .fuelExhausted limit
  | _ => True

/-- A session of the language whose image models globals. -/
structure Modelled (s : Session) : Prop extends Standard s where
  apart : s.names.Apart
  models : ∃ σ held, Models σ s.names s.image held

theorem Modelled.inStep {s : Session} (h : s.Modelled) : s.InStep := by
  obtain ⟨σ, held, hmodels⟩ := h.models
  obtain ⟨hsize, hbound⟩ := hmodels.slots
  refine ⟨hsize, fun slot hslot => ?_, hmodels.order.globals, h.apart⟩
  have hlt : slot < s.image.globals.slots.size := by omega
  have hne := hbound _ (Array.getElem_mem hlt)
  simpa [GlobalTable.isBound, Array.getElem?_eq_getElem hlt] using hne

/-- A session in which nothing happened but that the heap has grown. -/
theorem Modelled.grows {s t : Session} (h : s.Modelled) (hcompiler : t.compiler = s.compiler)
    (hbackend : t.linker.backend = s.linker.backend) (hnames : t.names = s.names)
    (hglobals : t.image.globals = s.image.globals)
    (hprimitives : t.image.primitives = s.image.primitives)
    (hheap : s.image.heap.Grows t.image.heap) : t.Modelled where
  compiler := hcompiler.trans h.compiler
  backend := hbackend.trans h.backend
  primitives := hprimitives.trans h.primitives
  order := hnames ▸ h.order
  apart := hnames ▸ h.apart
  models := by
    obtain ⟨σ, held, hmodels⟩ := h.models
    have hgrown := hmodels.grows hheap
    rw [← hnames, ← hglobals, ← hprimitives] at hgrown
    exact ⟨σ, held, hgrown⟩

/-- What a session is once the writes of a run that followed a fragment have been stored. -/
theorem modelled_finish {s : Session} {c : Compiled} {σ : Slots} {v : Value} {m : Machine}
    {st : Store} (hcompiler : s.compiler = standardCompiler)
    (hbackend : s.linker.backend = some .bytecode) (horder : s.names.InOrder)
    (hapart : s.names.Apart) (hrow : InARow s.names.nextSlot c.definitions)
    (hglobals : m.globals = s.image.globals) (hprimitives : m.primitives = s.image.primitives)
    (hknown : σ.Known (s.names.commit c.definitions).nextSlot m.heap)
    (hm : Matches σ (s.names.commit c.definitions).nextSlot m st) :
    Expected (finish s (.ofCompiled c)
        (.finished ⟨v, m.pending.toList⟩, { s.image with heap := m.heap }, m.sink)).1 ∧
      (finish s (.ofCompiled c)
        (.finished ⟨v, m.pending.toList⟩, { s.image with heap := m.heap }, m.sink)).2.Modelled := by
  obtain ⟨table, -, hslots, hcommit⟩ := commit_writes
    { s with image := { s.image with heap := m.heap }, output := m.sink.text } (.ofCompiled c) v
    m.pending
  have hfinish : finish s (.ofCompiled c)
      (.finished ⟨v, m.pending.toList⟩, { s.image with heap := m.heap }, m.sink) = _ := hcommit
  rw [hfinish]
  simp only at hslots
  rw [← hglobals] at hslots
  have hmodels := models_of_matches hknown (horder.commit hrow) hm hslots
  rw [hprimitives] at hmodels
  exact ⟨trivial, ⟨hcompiler, hbackend, hprimitives.symm.trans hm.primitives, horder.commit hrow⟩,
    hapart.commit horder hrow, σ, _, hmodels⟩

/-- A run that follows an evaluation to its value leaves a machine that matches a store. -/
theorem matches_of_endsWith {σ : Slots} {n : Nat} {eval : Nat → EStateM.Result Stop Store Datum}
    {v : Value} {o : Machine} (h : EndsWith σ n eval (.ok (some v) o)) (hfull : ¬ o.heap.Full) :
    ∃ st, Matches σ n o st := by
  cases h with
  | value _ _ hm => exact ⟨_, hm⟩
  | limit hover =>
    cases hover with
    | full hfull' => exact absurd hfull' hfull

/-- A run that follows an evaluation stops for what it computes or at a limit. -/
theorem expected_of_endsWith {σ : Slots} {n : Nat} {eval : Nat → EStateM.Result Stop Store Datum}
    {e : Fault} {o : Machine} (h : EndsWith σ n eval (.error e o)) (hfull : ¬ o.heap.Full) :
    Expected (.faulted e) := by
  cases h with
  | fault _ _ he => exact .inl he
  | limit hover =>
    cases hover with
    | full hfull' => exact absurd hfull' hfull
    | stack => exact .inr (.inl rfl)
    | fuel _ => exact .inr (.inr ⟨_, rfl⟩)

/-- The end of a run that has followed a fragment from the globals `held`: the image has only grown,
and a run that is not cut off has ended as the evaluation does. -/
structure FollowedTo (s : Session) (f : Fragment) (c : Compiled) (held : Nat → Option Datum)
    (σ : Slots) (result : EStateM.Result Fault Machine (Option Value)) : Prop where
  heap : s.image.heap.Grows (endState result).heap
  globals : (endState result).globals = s.image.globals
  primitives : (endState result).primitives = s.image.primitives
  known : σ.Known (s.names.commit c.definitions).nextSlot (endState result).heap
  ends : (∀ o, result ≠ .ok none o) → EndsWith σ (s.names.commit c.definitions).nextSlot
    (fun k => evaluate k s.names f ⟨[], held, ⟨s.output, none⟩⟩) result

section

variable {s : Session} {f : Fragment} {c : Compiled} {linker : Linker} {unit : LinkedUnit}
  {image : Image} {r : TurnOutcome × Session}

/-- Where the image models globals, the run of a fragment follows the fragment from these. -/
theorem RanFragment.follows (hran : s.RanFragment f c linker unit image r) (h : s.Standard)
    {σ : Slots} {held : Nat → Option Datum} (hmodels : Models σ s.names s.image held) :
    image.globals = s.image.globals ∧ image.primitives = s.image.primitives ∧
      ∃ σ' result, s.FollowedTo f c held σ' result ∧
        r = Session.finish { s with linker := linker } (.ofCompiled c) (handedBack image result) := by
  obtain ⟨σ', m, hknown, henter, htracks⟩ :=
    hmodels.tracks hran.compile hran.bind hran.size ⟨s.output, none⟩ s.limits.fuel
  obtain ⟨-, hglobals, hprimitives, -, -⟩ := bind_heap hran.bind hran.size
  have hstart := (Machine.keeps_enter unit.main).ok (.refl _) henter
  have hadd : m.primitives.Additive := by
    rw [hstart.primitives]
    show image.primitives.Additive
    rw [hprimitives, h.primitives]
    exact Registry.additive_standard
  have hfinish := hran.finish
  rw [run_of_enter henter] at hfinish
  have hends : (∀ o, Machine.run (Machine.stepsFor s.limits.fuel s.limits.patience) m ≠ .ok none o) →
      EndsWith σ' (s.names.commit c.definitions).nextSlot
        (fun k => evaluate k s.names f ⟨[], held, ⟨s.output, none⟩⟩)
        (Machine.run (Machine.stepsFor s.limits.fuel s.limits.patience) m) :=
    endsWith_of_tracks hadd htracks
  have hcontinues := Machine.endState_continues
    (Machine.keeps_run hadd (Machine.stepsFor s.limits.fuel s.limits.patience))
  have hlater := (hstart.heap.trans hcontinues.heap).grows
  refine ⟨hglobals, hprimitives, σ', _, ⟨?_, ?_, ?_, hknown.grows hlater, hends⟩, hfinish⟩
  · exact (grows_of_bind hran.bind hran.size).trans hlater
  · exact hcontinues.globals.trans (hstart.globals.trans hglobals)
  · exact hcontinues.primitives.trans (hstart.primitives.trans hprimitives)

/-- Running a fragment keeps a session modelled, and comes to an expected end. -/
theorem modelled_of_ran (h : s.Modelled) (hran : s.RanFragment f c linker unit image r)
    (hroom : r.2.image.heap.strings.size ≤ handleCount) : Expected r.1 ∧ r.2.Modelled := by
  obtain ⟨σ, held, hmodels⟩ := h.models
  obtain ⟨fs, hlaid⟩ := laid_of_compileFragment hran.compile
  obtain ⟨hglobals, hprimitives, σ', result, hfollowed, heq⟩ := hran.follows h.toStandard hmodels
  have hheap := (finish_image { s with linker := linker } (.ofCompiled c)
    (handedBack image result)).1
  rw [heap_handedBack] at hheap
  rw [heq] at hroom ⊢
  rw [hheap] at hroom
  have hfull : ¬ (endState result).heap.Full := Nat.not_lt.2 hroom
  cases result with
  | ok v o =>
    cases v with
    -- a run that is cut off stores nothing: the image has only grown
    | none => exact ⟨trivial, h.grows rfl hran.backend rfl hglobals hprimitives hfollowed.heap⟩
    | some v =>
      obtain ⟨st, hm⟩ := matches_of_endsWith (hfollowed.ends (by simp)) hfull
      exact modelled_finish (s := { s with linker := linker, image := image }) (v := v)
        h.compiler (hran.backend.trans h.backend) h.order h.apart hlaid.row
        (hfollowed.globals.trans hglobals.symm) (hfollowed.primitives.trans hprimitives.symm)
        hfollowed.known hm
  | error e o =>
    exact ⟨expected_of_endsWith (hfollowed.ends (by simp)) hfull,
      h.grows rfl hran.backend rfl hglobals hprimitives hfollowed.heap⟩

end

/-! ## Turns -/

end ScriptMachine.Session
