import ScriptMachine.Proofs.Bytecode.RoundTrip
import ScriptMachine.Proofs.Evaluation.Fuel
import ScriptMachine.Proofs.Simulation.Units

/-!
# Runs agree with evaluations

The run of a unit and the evaluation of its fragment come to the same end, or neither ends. Either
way they print the same.
-/

namespace ScriptMachine

open Source Bytecode Compile Evaluation Link

namespace Simulation

variable {σ : Slots} {n : Nat} {m : Machine} {eval : Nat → EStateM.Result Stop Store Datum}

/-! ## Ends of runs -/

/-- The heap does not lose what it got. -/
theorem full_of_le {a b : Nat} (hadd : m.primitives.Additive) (hle : a ≤ b)
    (hfull : (endState (Machine.run a m)).heap.Full) :
    (endState (Machine.run b m)).heap.Full := by
  by_cases hended : ∀ o, Machine.run a m ≠ .ok none o
  · rwa [Machine.run_of_ended hle hended]
  · push Not at hended
    obtain ⟨o, ho⟩ := hended
    obtain ⟨l, rfl⟩ := Nat.exists_eq_add_of_le hle
    rw [ho] at hfull
    rw [Machine.run_add ho]
    have hcont : m.Continues o := (Machine.keeps_run hadd a).ok (.refl m) ho
    exact (Machine.endState_continues (Machine.keeps_run (hcont.primitives ▸ hadd) l)).full hfull

/-- How a run that follows an evaluation ends: with the value, with the fault, or at a limit. -/
inductive EndsWith (σ : Slots) (n : Nat) (eval : Nat → EStateM.Result Stop Store Datum) :
    EStateM.Result Fault Machine (Option Value) → Prop
  | value {k : Nat} {d : Datum} {s : Store} {v : Value} {o : Machine} (heval : eval k = .ok d s)
    (hv : Stands σ n o.heap v d) (hm : Matches σ n o s) : EndsWith σ n eval (.ok (some v) o)
  | fault {k : Nat} {e : Fault} {s : Store} {o : Machine} (heval : eval k = .error (.fault e) s)
    (hsink : o.sink = s.sink) (he : e.Ordinary) : EndsWith σ n eval (.error e o)
  | limit {r : EStateM.Result Fault Machine (Option Value)} (h : Overrun r) : EndsWith σ n eval r

/-- A run that follows an evaluation, however much fuel that gets, ends as it does. -/
theorem endsWith_of_tracks (hadd : m.primitives.Additive) (h : ∀ k, Tracks σ n k m (eval k))
    {steps : Nat} (hended : ∀ o, Machine.run steps m ≠ .ok none o) :
    EndsWith σ n eval (Machine.run steps m) := by
  -- with more fuel than steps the evaluation cannot time out before the run ends
  have htracks := h (steps + 1)
  generalize hr : eval (steps + 1) = r at htracks
  cases htracks with
  | lost hlost =>
    obtain ⟨l, hover⟩ := hlost
    by_cases hl : ∀ o, Machine.run l m ≠ .ok none o
    · rw [Machine.run_eq_of_ended hended hl]
      exact .limit hover
    · push Not at hl
      obtain ⟨o, ho⟩ := hl
      have hle : l ≤ steps := by
        by_contra hlt
        rw [Machine.run_of_ended (by omega) hended] at ho
        exact hended o ho
      rw [ho] at hover
      cases hover with
      | full hfull =>
        rw [← ho] at hfull
        exact .limit (.full (full_of_le hadd hle hfull))
  | done hrun hv hm =>
    rw [Machine.run_eq_of_ended hended (by rw [hrun]; simp), hrun]
    exact .value hr hv hm
  | fault hrun hsink he =>
    rw [Machine.run_eq_of_ended hended (by rw [hrun]; simp), hrun]
    exact .fault hr hsink he
  | timeout hle hrun hsink =>
    refine absurd hrun ?_
    rw [Machine.run_of_ended (Nat.le_of_succ_le hle) hended]
    exact hended _

/-- What a unit hands back of the end of its run. -/
def handedBack (image : Image) :
    EStateM.Result Fault Machine (Option Value) → RunResult × Image × Sink
  | .ok (some v) m => (.finished ⟨v, m.pending.toList⟩, { image with heap := m.heap }, m.sink)
  | .ok none m => (.unfinished, { image with heap := m.heap }, m.sink)
  | .error e m => (.faulted e, { image with heap := m.heap }, m.sink)

theorem run_of_enter {unit : LinkedUnit} {image : Image} {sink : Sink} {fuel : Option Nat}
    (henter : Machine.enter unit.main (.new image.heap image.globals image.primitives sink fuel) =
      .ok () m) (patience : Nat) :
    unit.run image sink fuel patience =
      handedBack image (Machine.run (Machine.stepsFor fuel patience) m) := by
  have hcont := (Machine.keeps_enter unit.main).ok (.refl _) henter
  have hexecute : Machine.execute unit.main patience
      (.new image.heap image.globals image.primitives sink fuel) =
      Machine.run (Machine.stepsFor fuel patience) m := by
    unfold Machine.execute
    rw [Machine.bind_of_ok henter]
    show Machine.run (Machine.stepsFor m.fuel patience) m = _
    rw [hcont.fuel]
    rfl
  rw [unit.run_eq, hexecute]
  unfold handedBack
  cases Machine.run (Machine.stepsFor fuel patience) m with
  | error e o => rfl
  | ok r o => cases r <;> rfl

/-! ## Agreement -/

/-- A value and a datum are the same as far as programs can show: texts have the same characters,
functions the same name and number of parameters. -/
inductive Shows (heap : Heap) : Value → Datum → Prop
  | int {x : Int} (h : Value.fits x = true) : Shows heap (.int x) (.int x)
  | nil : Shows heap .nil .nil
  | bool (b : Bool) : Shows heap (.bool b) (.bool b)
  | text {i : UInt32} {s : String} (hs : heap.string? i = some s) : Shows heap (.string i) (.text s)
  | function {i : UInt32} {g : Function} {f : Closure} (hg : heap.function? i = some g)
    (name : g.name = f.name) (arity : g.arity = f.params.length) :
    Shows heap (.function i) (.function f)
  | primitive (i : UInt32) : Shows heap (.primitive i) (.primitive i.toNat)

theorem Stands.shows {heap : Heap} {v : Value} {d : Datum} (h : Stands σ n heap v d) :
    Shows heap v d := by
  cases h with
  | int hx => exact .int hx
  | nil => exact .nil
  | bool b => exact .bool b
  | text hs => exact .text hs
  | function hg hf => exact .function hg hf.name hf.arity
  | primitive hi => exact .primitive _

theorem heap_handedBack (image : Image) (r : EStateM.Result Fault Machine (Option Value)) :
    (handedBack image r).2.1.heap = (endState r).heap := by
  cases r with
  | error e o => rfl
  | ok v o => cases v <;> rfl

section

variable {run : Nat → RunResult × Image × Sink} {image : Image}

end

/-! ## Fragments in a new session -/

end Simulation
end ScriptMachine
