import ScriptMachine.Proofs.Link.Soundness
import ScriptMachine.Proofs.Machine.Metering
import ScriptMachine.Proofs.Simulation.Agreement

/-!
# Fuel bounds runs and does not influence them

Under a limit on fuel a run ends, and the limit says how many instructions it executes and from how
many frames it returns at most. A run that ends for another reason than the limit ends in the same way
under every higher limit and under none. One that the limit stops has used it up, and every lower limit
stops it earlier.
-/

namespace ScriptMachine.Link

open Bytecode Machine Simulation

/-- Of the first steps of a unit's run, how many start where `counts` holds. -/
def LinkedUnit.tally (unit : LinkedUnit) (image : Image) (sink : Sink) (fuel : Option Nat)
    (counts : Machine → Bool) (steps : Nat) : Nat :=
  match enter unit.main (.new image.heap image.globals image.primitives sink fuel) with
  | .ok () m => Machine.tally counts steps m
  | .error _ _ => 0

/-- The run of a unit is stopped by its limit on fuel. -/
def LinkedUnit.StoppedBy (unit : LinkedUnit) (image : Image) (sink : Sink) (limit patience : Nat) :
    Prop :=
  (unit.run image sink (some limit) patience).1 = .faulted (.fuelExhausted limit)

/-- What a limit on fuel means for the run of a unit. -/
structure Metered (unit : LinkedUnit) (image : Image) (sink : Sink) (limit : Nat) : Prop where
  ends : ∀ patience, (unit.run image sink (some limit) patience).1 ≠ .unfinished
  executes : ∀ steps, unit.tally image sink (some limit) Machine.executes steps ≤ limit
  returns : ∀ steps, unit.tally image sink (some limit) Machine.returns steps ≤ limit + 1
  higher : ∀ patience, ¬ unit.StoppedBy image sink limit patience → ∀ more ≥ limit,
    unit.run image sink (some more) patience = unit.run image sink (some limit) patience
  unlimited : ∀ patience, ¬ unit.StoppedBy image sink limit patience → 2 * limit + 3 ≤ patience →
    unit.run image sink none patience = unit.run image sink (some limit) patience
  spent : image.primitives.Tireless → ∀ patience, unit.StoppedBy image sink limit patience →
    unit.tally image sink (some limit) Machine.executes (2 * limit + 3) = limit
  -- primitives that take back what was written, or report themselves that fuel ran out, are left aside
  lower : image.primitives.Additive → image.primitives.Tireless → ∀ patience,
    unit.StoppedBy image sink limit patience → ∀ less ≤ limit,
      unit.StoppedBy image sink less patience ∧
        (unit.run image sink (some less) patience).2.2.Continues
          (unit.run image sink (some limit) patience).2.2

/-- How a unit is entered does not depend on the fuel. -/
theorem enter_refuel (unit : LinkedUnit) (image : Image) (sink : Sink) (fuel fuel' : Option Nat) :
    enter unit.main (.new image.heap image.globals image.primitives sink fuel') =
      amended (refuel fuel')
        (enter unit.main (.new image.heap image.globals image.primitives sink fuel)) := by
  have hignores : Ignores (refuel fuel') (enter unit.main) := ignores_enter unit.main
  exact hignores (.new image.heap image.globals image.primitives sink fuel)

/-! ## What is handed back -/

/-- The fuel is not handed back. -/
theorem handedBack_amended (image : Image) (fuel : Option Nat)
    (r : EStateM.Result Fault Machine (Option Value)) :
    handedBack image (amended (refuel fuel) r) = handedBack image r := by
  cases r with
  | error e m => rfl
  | ok v m => cases v <;> rfl

theorem handedBack_sink (image : Image) (r : EStateM.Result Fault Machine (Option Value)) :
    (handedBack image r).2.2 = (endState r).sink := by
  cases r with
  | error e m => rfl
  | ok v m => cases v <;> rfl

/-- A fault that is handed back is one that the run ended with. -/
theorem error_of_handedBack {image : Image} {r : EStateM.Result Fault Machine (Option Value)}
    {e : Fault} (h : (handedBack image r).1 = .faulted e) : ∃ m, r = .error e m := by
  cases r with
  | error e' m =>
    cases h
    exact ⟨m, rfl⟩
  | ok v m => cases v <;> cases h

section

variable {unit : LinkedUnit} {image : Image} {sink : Sink} {fuel fuel' : Option Nat} {limit : Nat}
  {m : Machine}

/-- A unit that cannot be entered ends with that, and hands back what it found. -/
theorem run_of_enter_error {e : Fault}
    (henter : enter unit.main (.new image.heap image.globals image.primitives sink fuel) =
      .error e m) (patience : Nat) :
    unit.run image sink fuel patience =
      (.faulted e, { image with heap := m.heap }, m.sink) := by
  have hexecute : execute unit.main patience
      (.new image.heap image.globals image.primitives sink fuel) = .error e m := by
    show EStateM.bind (enter unit.main) _ _ = _
    unfold EStateM.bind
    rw [henter]
  rw [unit.run_eq, hexecute]

/-- Under another fuel the run starts from the same machine. -/
theorem run_refuel_of_enter
    (henter : enter unit.main (.new image.heap image.globals image.primitives sink fuel) =
      .ok () m) (fuel' : Option Nat) (patience : Nat) :
    unit.run image sink fuel' patience =
      handedBack image (Machine.run (stepsFor fuel' patience) (m.amend (refuel fuel'))) := by
  refine run_of_enter ?_ patience
  rw [enter_refuel unit image sink fuel, henter]
  rfl

/-! ## Limits -/

/-- A unit that has been entered has one frame and has spent no fuel. -/
theorem meter_of_enter
    (henter : enter unit.main (.new image.heap image.globals image.primitives sink fuel) =
      .ok () m) : m.fuel = fuel ∧ m.executed = 0 ∧ m.frames.length = 1 := by
  have hmeter := meter_eq (fun _ _ => ignores_enter unit.main)
    (.new image.heap image.globals image.primitives sink fuel)
  rw [henter] at hmeter
  exact ⟨hmeter.1, hmeter.2, by rw [frames_of_enter henter, List.length_singleton]⟩

/-- The run of a unit ends within the steps that its limit allows. -/
theorem ends_of_enter
    (henter : enter unit.main (.new image.heap image.globals image.primitives sink (some limit)) =
      .ok () m) (o : Machine) : Machine.run (2 * limit + 3) m ≠ .ok none o := by
  obtain ⟨hfuel, hexecuted, hframes⟩ := meter_of_enter henter
  exact run_ends_of_limit hfuel (by omega) (by omega) o

/-- Under a limit on fuel, every run ends. -/
theorem run_ne_unfinished (patience : Nat) :
    (unit.run image sink (some limit) patience).1 ≠ .unfinished := by
  cases henter : enter unit.main
      (.new image.heap image.globals image.primitives sink (some limit)) with
  | error e m =>
    rw [run_of_enter_error henter]
    exact nofun
  | ok u m =>
    have hrun : unit.run image sink (some limit) patience =
      handedBack image (Machine.run (2 * limit + 3) m) := run_of_enter henter patience
    rw [hrun]
    rcases hr : Machine.run (2 * limit + 3) m with ⟨_ | v, o⟩ | ⟨e, o⟩
    · exact absurd hr (ends_of_enter henter o)
    · exact nofun
    · exact nofun

theorem tally_le {counts : Machine → Bool} {steps bound : Nat}
    (h : ∀ m, enter unit.main (.new image.heap image.globals image.primitives sink fuel) = .ok () m →
      Machine.tally counts steps m ≤ bound) : unit.tally image sink fuel counts steps ≤ bound := by
  unfold LinkedUnit.tally
  split
  · exact h _ ‹_›
  · exact Nat.zero_le _

/-- A run that is not stopped by its limit does the same under every other fuel that allows as much. -/
theorem run_eq_of_more {patience patience' : Nat}
    (hend : ¬ unit.StoppedBy image sink limit patience)
    (hmore : ∀ more, fuel = some more → limit ≤ more)
    (hsteps : 2 * limit + 3 ≤ stepsFor fuel patience') :
    unit.run image sink fuel patience' = unit.run image sink (some limit) patience := by
  unfold LinkedUnit.StoppedBy at hend
  cases henter : enter unit.main
      (.new image.heap image.globals image.primitives sink (some limit)) with
  | error e m =>
    have henter' := enter_refuel unit image sink (some limit) fuel
    rw [henter] at henter'
    rw [run_of_enter_error henter, run_of_enter_error henter']
    rfl
  | ok u m =>
    have hlonger := run_of_ended hsteps (ends_of_enter henter)
    rw [run_of_enter henter] at hend ⊢
    rw [run_refuel_of_enter henter]
    rcases run_refuel (meter_of_enter henter).1 hmore (stepsFor fuel patience') with
      hsame | ⟨o, hstopped, -⟩
    · rw [hsame, handedBack_amended, hlonger]
      rfl
    · rw [hlonger] at hstopped
      exact absurd (congrArg (fun r => (handedBack image r).1) hstopped) hend

/-- A unit whose run is stopped by its limit can be entered, under any fuel: that takes none. -/
theorem enters_of_stopped {patience : Nat} (hend : unit.StoppedBy image sink limit patience)
    (fuel : Option Nat) :
    ∃ m, enter unit.main (.new image.heap image.globals image.primitives sink fuel) = .ok () m := by
  unfold LinkedUnit.StoppedBy at hend
  cases henter : enter unit.main (.new image.heap image.globals image.primitives sink fuel) with
  | ok u m => exact ⟨m, rfl⟩
  | error e m =>
    have henter' := enter_refuel unit image sink fuel (some limit)
    have he := tireless_enter unit.main
      (.new image.heap image.globals image.primitives sink fuel) rfl
    rw [henter] at henter' he
    rw [run_of_enter_error henter'] at hend
    cases hend
    exact absurd trivial he

/-- A run that is stopped by its limit is stopped by every lower one, when it has written less. -/
theorem stopped_of_less {patience less : Nat} (hadd : image.primitives.Additive)
    (htireless : image.primitives.Tireless) (hle : less ≤ limit)
    (hend : unit.StoppedBy image sink limit patience) :
    unit.StoppedBy image sink less patience ∧
      (unit.run image sink (some less) patience).2.2.Continues
        (unit.run image sink (some limit) patience).2.2 := by
  obtain ⟨m, henter⟩ := enters_of_stopped hend (some less)
  unfold LinkedUnit.StoppedBy at hend ⊢
  have hfuel := (meter_of_enter henter).1
  have hcont := (keeps_enter unit.main).ok (.refl _) henter
  have hmore : ∀ more, some limit = some more → less ≤ more := by
    rintro _ ⟨⟩
    exact hle
  have hless : unit.run image sink (some less) patience =
      handedBack image (Machine.run (2 * limit + 3) m) :=
    (run_of_enter henter patience).trans
      (congrArg (handedBack image) (run_of_ended (by omega) (ends_of_enter henter)).symm)
  have hlimit : unit.run image sink (some limit) patience =
      handedBack image (Machine.run (2 * limit + 3) (m.amend (refuel (some limit)))) :=
    run_refuel_of_enter henter (some limit) patience
  rw [hlimit] at hend ⊢
  rw [hless, handedBack_sink, handedBack_sink]
  rcases run_refuel hfuel hmore (2 * limit + 3) with hsame | ⟨o, hrun, hsink⟩
  · -- the lower limit did not stop the run, so the limit that is reported is the lower one
    rw [hsame, handedBack_amended] at hend
    obtain ⟨o, hrun⟩ := error_of_handedBack hend
    obtain rfl := (limited_run htireless _).error ⟨hcont.primitives, hfuel⟩ hrun limit rfl
    rw [hsame, hrun]
    exact ⟨rfl, .refl _⟩
  · rw [hrun]
    refine ⟨rfl, hsink ?_⟩
    rw [hcont.primitives]
    exact hadd

/-- A run is stopped by its limit only when it has executed as many instructions as that says. -/
theorem spent_of_stopped {patience : Nat} (htireless : image.primitives.Tireless)
    (hend : unit.StoppedBy image sink limit patience) :
    unit.tally image sink (some limit) Machine.executes (2 * limit + 3) = limit := by
  obtain ⟨m, henter⟩ := enters_of_stopped hend (some limit)
  obtain ⟨hfuel, hexecuted, -⟩ := meter_of_enter henter
  have hprimitives := ((keeps_enter unit.main).ok (.refl _) henter).primitives
  unfold LinkedUnit.StoppedBy at hend
  rw [run_of_enter henter] at hend
  obtain ⟨o, hrun⟩ := error_of_handedBack hend
  have hspent := tally_of_exhausted hfuel (by omega) (hprimitives ▸ htireless) hrun
  unfold LinkedUnit.tally
  rw [henter]
  rwa [hexecuted, Nat.zero_add] at hspent

/-- Fuel bounds a run and does not influence it. Under every limit the run of a unit ends, having executed
no more instructions than the limit says and returned from one frame more at most. When it is not stopped
by the limit, it does the same under every higher limit and under none. When it is, then it has executed
just as many instructions as the limit says, and it is stopped by every lower limit too, having written a
beginning of the same text. -/
theorem metered_run (unit : LinkedUnit) (image : Image) (sink : Sink) (limit : Nat) :
    Metered unit image sink limit where
  ends := run_ne_unfinished
  executes steps := by
    refine tally_le fun m henter => ?_
    obtain ⟨hfuel, hexecuted, -⟩ := meter_of_enter henter
    have hle := tally_executes_le hfuel (by omega) steps
    omega
  returns steps := by
    refine tally_le fun m henter => ?_
    obtain ⟨hfuel, hexecuted, hframes⟩ := meter_of_enter henter
    have hexecutes := tally_executes_le hfuel (by omega) steps
    have hreturns := tally_returns_le steps m
    omega
  higher patience hend more hle :=
    run_eq_of_more hend (by rintro _ ⟨⟩; exact hle) (by unfold stepsFor; simp only; omega)
  unlimited patience hend hsteps := run_eq_of_more hend nofun hsteps
  spent htireless patience hend := spent_of_stopped htireless hend
  lower hadd htireless patience hend less hle := stopped_of_less hadd htireless hle hend

end

/-- A program that prints empty lines without end. -/
def endlessProgram : Program :=
  ⟨#[], #[], ⟨"main", 0, 1, #[], #[.abx .getPrim 0 0, .abc .call 0 0 0, .abx .jump 0 0]⟩⟩

theorem endlessProgram_metered :
    (∃ unit image, bind .standard endlessProgram 3 = .ok (unit, image) ∧
      unit.StoppedBy image .unbounded 5 0 ∧
      unit.tally image .unbounded (some 5) Machine.executes 13 = 5 ∧
      ∀ less ≤ 5, unit.StoppedBy image .unbounded less 0) ∧
    ∃ unit image, bind .standard measuringProgram 5 = .ok (unit, image) ∧
      ¬ unit.StoppedBy image .unbounded 5 0 ∧
      (∀ more ≥ 5, unit.run image .unbounded (some more) 0 =
        unit.run image .unbounded (some 5) 0) ∧
      unit.run image .unbounded none 13 = unit.run image .unbounded (some 5) 13 := by
  constructor
  · have hbind : bind .standard endlessProgram 3 = .ok (place .standard endlessProgram 3) :=
      bind_eq_ok_iff.2 ⟨by decide, rfl⟩
    have hstopped : (place .standard endlessProgram 3).1.StoppedBy
        (place .standard endlessProgram 3).2 .unbounded 5 0 := by
      unfold LinkedUnit.StoppedBy
      decide +kernel
    have hmetered := metered_run (place .standard endlessProgram 3).1
      (place .standard endlessProgram 3).2 .unbounded 5
    have hspent := hmetered.spent Registry.tireless_standard 0 hstopped
    refine ⟨_, _, hbind, hstopped, hspent, fun less hle => ?_⟩
    exact (hmetered.lower Registry.additive_standard Registry.tireless_standard 0 hstopped less hle).1
  · have hbind : bind .standard measuringProgram 5 = .ok (place .standard measuringProgram 5) :=
      bind_eq_ok_iff.2 ⟨by decide, rfl⟩
    have hends : ∀ patience, ¬ (place .standard measuringProgram 5).1.StoppedBy
        (place .standard measuringProgram 5).2 .unbounded 5 patience := by
      intro patience
      have hstarts : ¬ (place .standard measuringProgram 5).1.StoppedBy
          (place .standard measuringProgram 5).2 .unbounded 5 0 := by
        unfold LinkedUnit.StoppedBy
        decide +kernel
      exact hstarts
    have hmetered := metered_run (place .standard measuringProgram 5).1
      (place .standard measuringProgram 5).2 .unbounded 5
    exact ⟨_, _, hbind, hends 0, hmetered.higher 0 (hends 0),
      hmetered.unlimited 13 (hends 13) (by decide)⟩

end ScriptMachine.Link
