import ScriptMachine.Proofs.Machine.Continuation
import ScriptMachine.Proofs.Machine.Effects
import ScriptMachine.Proofs.Machine.Conduct
import ScriptMachine.Proofs.Machine.Exhaustion
import ScriptMachine.Proofs.Machine.Ledger

/-!
# What fuel does

Each instruction spends one unit of fuel. A step without an instruction ends a frame, and only
instructions add frames. So a limit on fuel bounds how many instructions a run executes, from how many
frames it returns, and by both how many steps it takes. A higher limit makes no difference before the
lower one has been reached.
-/

namespace ScriptMachine.Machine

open Bytecode

variable {m m' : Machine} {r : Option Value} {limit : Nat}

/-! ## What a step spends -/

/-- The instruction that the running frame has come to. -/
def nextWord? (m : Machine) : Option Word :=
  match m.frames with
  | [] => none
  | frame :: _ => (m.heap.function? frame.function).bind fun f => f.code[frame.ip]?

/-- The next step executes an instruction: there is one, and the fuel allows it. -/
def executes (m : Machine) : Bool :=
  m.nextWord?.isSome && m.fuel.all (m.executed < ·)

/-- The next step ends a frame. -/
def returns (m : Machine) : Bool :=
  (endState (step m)).frames.length < m.frames.length

theorem nextWord?_eq {frame : Frame} {rest : List Frame} {f : Function}
    (hframes : m.frames = frame :: rest) (hf : m.heap.function? frame.function = some f) :
    m.nextWord? = f.code[frame.ip]? := by
  unfold nextWord?
  simp only [hframes, hf, Option.bind_some]

theorem fuel_all_iff : m.fuel.all (m.executed < ·) = true ↔ m.Fuelled := by
  unfold Fuelled
  cases m.fuel <;> simp

theorem executes_iff : m.executes = true ↔ m.nextWord?.isSome = true ∧ m.Fuelled := by
  rw [executes, Bool.and_eq_true, fuel_all_iff]

/-- What ignores the fuel spends none. -/
theorem meter_eq {α : Type} {act : Action α}
    (h : ∀ fuel executed, Ignores (metered fuel executed) act) (m : Machine) :
    (endState (act m)).fuel = m.fuel ∧ (endState (act m)).executed = m.executed := by
  have hself : act m = amended (metered (fun _ => m.fuel) fun _ => m.executed) (act m) :=
    h (fun _ => m.fuel) (fun _ => m.executed) m
  rw [hself]
  cases act m <;> exact ⟨rfl, rfl⟩

/-- A step that goes well has spent fuel just when it has executed an instruction. -/
theorem meter_of_step (h : step m = .ok r m') :
    m'.fuel = m.fuel ∧ m'.executed = m.executed + m.executes.toNat := by
  cases m.step_cases with
  | noFrame hframes hstep =>
    rw [hstep] at h
    cases h
    have hnone : m.executes = false := by
      unfold executes nextWord?
      rw [hframes]
      rfl
    rw [hnone]
    exact ⟨rfl, rfl⟩
  | atEnd hframes hf hw hstep =>
    have hnone : m.executes = false := by
      rw [executes, nextWord?_eq hframes hf, hw]
      rfl
    have hmeter := meter_eq (fun _ _ => ignores_leaveFrame .nil) m
    rw [← hstep, h] at hmeter
    rw [hnone]
    exact hmeter
  | @performs frame rest f w op hframes hf hw hfuel hop hstep =>
    have hsome : m.executes = true :=
      executes_iff.2 ⟨by rw [nextWord?_eq hframes hf, hw]; rfl, hfuel⟩
    have hmeter := meter_eq (unmetered_perform f frame.base op w) (m.past frame rest)
    rw [← hstep, h] at hmeter
    rw [hsome]
    exact hmeter
  | noFunction _ _ hstep | outOfFuel _ _ _ hstep | invalidOpcode _ _ _ _ hstep =>
    rw [hstep] at h
    cases h

/-- A step after which the run goes on executes an instruction, which adds one frame at most, or it ends
a frame. -/
theorem frames_of_step (h : step m = .ok none m') :
    m'.frames.length ≤ m.frames.length + m.executes.toNat ∧
      (m.executes = false → m'.frames.length < m.frames.length) := by
  cases hframes : m.frames with
  | nil =>
    rw [step_of_no_frame hframes] at h
    cases h
  | cons frame rest =>
    obtain ⟨f, hf, heffect⟩ := effect_of_step hframes h
    -- where an instruction was found, it was executed: the step has not failed for lack of fuel
    have hexecutes : ∀ {w : Word}, f.code[frame.ip]? = some w → m.executes = true := by
      intro w hw
      rcases m.fuelled_or_spent with hfuel | ⟨limit, hlimit, hspent⟩
      · exact executes_iff.2 ⟨by rw [nextWord?_eq hframes hf, hw]; rfl, hfuel⟩
      · rw [step_out_of_fuel hframes hf hw hlimit hspent] at h
        cases h
    generalize m'.frames = frames, m'.stack = stack at heffect
    cases heffect with
    | moves hw | writes hw =>
      rw [hexecutes hw]
      exact ⟨by simp, nofun⟩
    | calls hw =>
      rw [hexecutes hw]
      exact ⟨by simp, nofun⟩
    | returns => exact ⟨by simp; omega, fun _ => by simp⟩

/-! ## Counting steps -/

/-- How many of the first `n` steps of a run start where `counts` holds. -/
def tally (counts : Machine → Bool) : (n : Nat) → Machine → Nat
  | 0, _ => 0
  | n + 1, m =>
    match step m with
    | .ok none m' => (counts m).toNat + tally counts n m'
    | _ => (counts m).toNat

variable {counts : Machine → Bool} {n : Nat}

theorem tally_of_ok (h : step m = .ok none m') :
    tally counts (n + 1) m = (counts m).toNat + tally counts n m' := by
  rw [tally, h]

theorem tally_of_ended (h : ∀ m', step m ≠ .ok none m') :
    tally counts (n + 1) m = (counts m).toNat := by
  rw [tally]
  split
  · exact absurd ‹_› (h _)
  · rfl

/-- A step either leads on or is the last one. -/
theorem leads_or_ends (m : Machine) : (∃ m', step m = .ok none m') ∨ ∀ m', step m ≠ .ok none m' := by
  by_cases h : ∃ m', step m = .ok none m'
  · exact .inl h
  · exact .inr fun m' hm' => h ⟨m', hm'⟩

theorem executed_lt (hlimit : m.fuel = some limit) (hle : m.executed ≤ limit) :
    m.executed + m.executes.toNat ≤ limit := by
  cases h : m.executes with
  | false => exact hle
  | true => exact (executes_iff.1 h).2 limit hlimit

/-- No more instructions are executed than the fuel allows. -/
theorem tally_executes_le (hlimit : m.fuel = some limit) (hle : m.executed ≤ limit) (n : Nat) :
    m.executed + tally executes n m ≤ limit := by
  induction n generalizing m with
  | zero => exact hle
  | succ n ih =>
    have hone := executed_lt hlimit hle
    rcases m.leads_or_ends with ⟨m', h⟩ | h
    · obtain ⟨hfuel, hexecuted⟩ := meter_of_step h
      have hrest := ih (hfuel.trans hlimit) (hexecuted ▸ hone)
      rw [tally_of_ok h]
      omega
    · rwa [tally_of_ended h]

/-- A run returns from the frames that are there and from those that instructions add. -/
theorem tally_returns_le (n : Nat) (m : Machine) :
    tally returns n m ≤ m.frames.length + tally executes n m := by
  induction n generalizing m with
  | zero => exact Nat.zero_le _
  | succ n ih =>
    rcases m.leads_or_ends with ⟨m', h⟩ | h
    · have hrest := ih m'
      have hgrows := (frames_of_step h).1
      have hreturns : m.returns.toNat + m'.frames.length ≤ m.frames.length + m.executes.toNat := by
        cases hr : m.returns with
        | false => simpa using hgrows
        | true =>
          have hshrinks : m'.frames.length < m.frames.length := by
            simpa [returns, h, endState] using hr
          rw [Bool.toNat_true]
          omega
      rw [tally_of_ok h, tally_of_ok h]
      omega
    · have hone : m.returns.toNat ≤ m.frames.length := by
        cases hr : m.returns with
        | false => exact Nat.zero_le _
        | true => exact Nat.lt_of_le_of_lt (Nat.zero_le _) (of_decide_eq_true hr)
      rw [tally_of_ended h, tally_of_ended h]
      omega

/-- Each step of a run that goes on executes an instruction or ends a frame. -/
theorem le_tally (h : run n m = .ok none m') : n ≤ tally executes n m + tally returns n m := by
  induction n generalizing m with
  | zero => exact Nat.zero_le _
  | succ n ih =>
    unfold run at h
    rcases m.leads_or_ends with ⟨o, hstep⟩ | hends
    · rw [hstep] at h
      have hrest := ih h
      have hone : 1 ≤ m.executes.toNat + m.returns.toNat := by
        cases he : m.executes with
        | true => simp
        | false =>
          have hshrinks := (frames_of_step hstep).2 he
          have hreturns : m.returns = true := by simpa [returns, hstep, endState] using hshrinks
          simp [hreturns]
      rw [tally_of_ok hstep, tally_of_ok hstep]
      omega
    · cases hstep : step m with
      | error e o =>
        rw [hstep] at h
        cases h
      | ok s o =>
        cases s with
        | none => exact absurd hstep (hends o)
        | some v =>
          rw [hstep] at h
          cases h

/-- So a run with limited fuel ends. -/
theorem run_ends_of_limit (hlimit : m.fuel = some limit) (hle : m.executed ≤ limit)
    (hn : 2 * limit + m.frames.length < n) (m' : Machine) : run n m ≠ .ok none m' := by
  intro h
  have hsteps := le_tally h
  have hexecutes := tally_executes_le hlimit hle n
  have hreturns := tally_returns_le n m
  omega

/-! ## Another limit -/

/-- Another limit on fuel, or none. -/
def refuel (fuel : Option Nat) : Ledger → Ledger :=
  metered (fun _ => fuel) id

/-- Where there is fuel for the next instruction, if there is one, the limit makes no difference. -/
theorem step_refuel {fuel : Option Nat} (hm : m.nextWord?.isSome = true → m.Fuelled)
    (hn : m.nextWord?.isSome = true → (m.amend (refuel fuel)).Fuelled) :
    step (m.amend (refuel fuel)) = amended (refuel fuel) (step m) := by
  cases hframes : m.frames with
  | nil =>
    rw [step_of_no_frame hframes, step_of_no_frame (m := m.amend (refuel fuel)) hframes]
    rfl
  | cons frame rest =>
    cases hf : m.heap.function? frame.function with
    | none =>
      rw [step_of_no_function hframes hf, step_of_no_function (m := m.amend (refuel fuel)) hframes hf]
      rfl
    | some f =>
      cases hw : f.code[frame.ip]? with
      | none =>
        rw [step_at_end hframes hf hw, step_at_end (m := m.amend (refuel fuel)) hframes hf hw]
        exact ignores_leaveFrame .nil m
      | some w =>
        have hsome : m.nextWord?.isSome = true := by
          rw [nextWord?_eq hframes hf, hw]
          rfl
        cases hop : Word.opcode? w with
        | none =>
          rw [step_of_invalid_opcode hframes hf hw (hm hsome) hop,
            step_of_invalid_opcode (m := m.amend (refuel fuel)) hframes hf hw (hn hsome) hop]
          rfl
        | some op =>
          rw [step_performs hframes hf hw (hm hsome) hop,
            step_performs (m := m.amend (refuel fuel)) hframes hf hw (hn hsome) hop]
          exact unmetered_perform f frame.base op w (fun _ => fuel) id (m.past frame rest)

/-- Without fuel for the next instruction, the step does nothing else than to say so. -/
theorem step_of_spent (hlimit : m.fuel = some limit)
    (h : ¬ (m.nextWord?.isSome = true → m.Fuelled)) :
    ∃ o, step m = .error (.fuelExhausted limit) o ∧ o.sink = m.sink := by
  obtain ⟨hnext, hspent⟩ := Classical.not_imp.1 h
  obtain ⟨limit', hlimit', hle⟩ := m.fuelled_or_spent.resolve_left hspent
  obtain rfl : limit = limit' := Option.some.inj (hlimit.symm.trans hlimit')
  cases hframes : m.frames with
  | nil => simp [nextWord?, hframes] at hnext
  | cons frame rest =>
    cases hf : m.heap.function? frame.function with
    | none => simp [nextWord?, hframes, hf] at hnext
    | some f =>
      rw [nextWord?_eq hframes hf] at hnext
      obtain ⟨w, hw⟩ := Option.isSome_iff_exists.1 hnext
      exact ⟨_, step_out_of_fuel hframes hf hw hlimit hle, rfl⟩

theorem Keeps.endState {α : Type} {act : Action α} (h : m.Keeps act) :
    m.Continues (endState (act m)) := by
  have hend := h m (.refl m)
  cases hr : act m <;> rwa [hr] at hend

/-- A run under a higher limit does the same, unless it comes to where the lower one stops it. Then it
has written what was written there, and goes on. -/
theorem run_refuel {fuel : Option Nat} (hlimit : m.fuel = some limit)
    (hmore : ∀ more, fuel = some more → limit ≤ more) (n : Nat) :
    run n (m.amend (refuel fuel)) = amended (refuel fuel) (run n m) ∨
      ∃ o, run n m = .error (.fuelExhausted limit) o ∧
        (m.primitives.Additive →
          o.sink.Continues (endState (run n (m.amend (refuel fuel)))).sink) := by
  induction n generalizing m with
  | zero => exact .inl rfl
  | succ n ih =>
    by_cases hm : m.nextWord?.isSome = true → m.Fuelled
    · have hn : m.nextWord?.isSome = true → (m.amend (refuel fuel)).Fuelled :=
        fun hnext more hfuel => (hm hnext limit hlimit).trans_le (hmore more hfuel)
      have hsame := step_refuel hm hn
      unfold run
      cases hstep : step m with
      | error e o =>
        rw [hstep] at hsame
        rw [hsame]
        exact .inl rfl
      | ok s o =>
        rw [hstep] at hsame
        rw [hsame]
        cases s with
        | some v => exact .inl rfl
        | none =>
          refine (ih ((meter_of_step hstep).1.trans hlimit)).imp_right ?_
          rintro ⟨o', hrun, hsink⟩
          refine ⟨o', hrun, fun hadd => hsink ?_⟩
          rwa [((keeps_step hadd).ok (.refl m) hstep).primitives]
    · obtain ⟨o, hstep, hsink⟩ := step_of_spent hlimit hm
      refine .inr ⟨o, by rw [run, hstep], fun hadd => ?_⟩
      rw [hsink]
      exact (keeps_run (m := m.amend (refuel fuel)) hadd (n + 1)).endState.sink

/-! ## The limit that is reported -/

/-- A machine with these primitives and this limit on fuel. -/
def Limited (primitives : Registry) (limit : Nat) (m : Machine) : Prop :=
  m.primitives = primitives ∧ m.fuel = some limit

/-- A fault that reports no other limit than this one. -/
def NamesLimit (limit : Nat) (e : Fault) (_ : Machine) : Prop :=
  ∀ other, e = .fuelExhausted other → other = limit

variable {primitives : Registry}

theorem namesLimit_of_not_exhaustion {e : Fault} (he : ¬ e.Exhaustion) : NamesLimit limit e m := by
  rintro other rfl
  exact absurd trivial he

/-- What does not look at the fuel reports no limit. -/
theorem limited_of_tireless {α : Type} {act : Action α} (h : Tireless primitives act)
    (hignores : ∀ fuel executed, Ignores (metered fuel executed) act) :
    Runs (Limited primitives limit) act (fun _ => Limited primitives limit) (NamesLimit limit) := by
  rintro m ⟨hprimitives, hlimit⟩
  have hrun := h m hprimitives
  have hfuel := (meter_eq hignores m).1
  cases hact : act m with
  | ok x o =>
    rw [hact] at hrun hfuel
    exact ⟨hrun, hfuel.trans hlimit⟩
  | error e o =>
    rw [hact] at hrun
    exact namesLimit_of_not_exhaustion hrun

theorem limited_spendFuel :
    Runs (Limited primitives limit) spendFuel (fun _ => Limited primitives limit)
      (NamesLimit limit) := by
  rintro m ⟨hprimitives, hlimit⟩
  unfold spendFuel
  simp only [hlimit]
  split_ifs
  · rintro other ⟨⟩
    rfl
  · exact ⟨hprimitives, rfl⟩

theorem limited_step (hprimitives : primitives.Tireless) :
    Runs (Limited primitives limit) step (fun _ => Limited primitives limit) (NamesLimit limit) := by
  intro m hm
  unfold step
  cases m.frames with
  | nil => exact hm
  | cons frame rest =>
    dsimp only
    cases m.heap.function? frame.function with
    | none => exact namesLimit_of_not_exhaustion id
    | some f =>
      dsimp only
      cases f.code[frame.ip]? with
      | none => exact limited_of_tireless (tireless_leaveFrame _) (fun _ _ => ignores_leaveFrame _) m hm
      | some w =>
        have hcounts : Runs (Limited primitives limit)
            (do jumpTo (frame.ip + 1); spendFuel : Action Unit) (fun _ => Limited primitives limit)
            (NamesLimit limit) :=
          (limited_of_tireless (tireless_jumpTo _) fun _ _ => ignores_jumpTo _).bind
            fun _ => limited_spendFuel
        have hcount := hcounts m hm
        dsimp only
        cases hc : (do jumpTo (frame.ip + 1); spendFuel : Action Unit) m with
        | error e o => rwa [hc] at hcount
        | ok u o =>
          rw [hc] at hcount
          dsimp only
          cases Word.opcode? w with
          | none => exact namesLimit_of_not_exhaustion id
          | some op =>
            exact limited_of_tireless (tireless_perform hprimitives f frame.base op w)
              (unmetered_perform f frame.base op w) o hcount

/-- A run that reports a limit on fuel reports its own. -/
theorem limited_run (hprimitives : primitives.Tireless) (n : Nat) :
    Runs (Limited primitives limit) (run n) (fun _ => Limited primitives limit) (NamesLimit limit) :=
  (limited_step hprimitives).run n

/-- With fuel for the next instruction, if there is one, no step reports that the fuel ran out: it would
report the same under a higher limit. -/
theorem step_ne_exhausted (hlimit : m.fuel = some limit) (hprimitives : m.primitives.Tireless)
    (hm : m.nextWord?.isSome = true → m.Fuelled) : step m ≠ .error (.fuelExhausted limit) m' := by
  intro h
  have hn : m.nextWord?.isSome = true → (m.amend (refuel (some (limit + 1)))).Fuelled := by
    rintro hnext _ ⟨⟩
    exact Nat.lt_succ_of_lt (hm hnext limit hlimit)
  have hsame : step (m.amend (refuel (some (limit + 1)))) =
      .error (.fuelExhausted limit) (m'.amend (refuel (some (limit + 1)))) := by
    rw [step_refuel hm hn, h]
    rfl
  have hlimited : Limited m.primitives (limit + 1) (m.amend (refuel (some (limit + 1)))) := ⟨rfl, rfl⟩
  have hnamed := (limited_step hprimitives).error hlimited hsame limit rfl
  omega

/-- A run that reports that its fuel ran out has executed as many instructions as its limit says. -/
theorem tally_of_exhausted (hlimit : m.fuel = some limit) (hle : m.executed ≤ limit)
    (hprimitives : m.primitives.Tireless) (h : run n m = .error (.fuelExhausted limit) m') :
    m.executed + tally executes n m = limit := by
  induction n generalizing m with
  | zero => cases h
  | succ n ih =>
    by_cases hm : m.nextWord?.isSome = true → m.Fuelled
    · rcases m.leads_or_ends with ⟨o, hstep⟩ | hends
      · unfold run at h
        rw [hstep] at h
        obtain ⟨hfuel, hexecuted⟩ := meter_of_step hstep
        have ho := ((limited_step hprimitives).ok ⟨rfl, hlimit⟩ hstep).1
        have hrest := ih (hfuel.trans hlimit) (hexecuted ▸ executed_lt hlimit hle) (ho ▸ hprimitives) h
        rw [tally_of_ok hstep]
        omega
      · unfold run at h
        cases hstep : step m with
        | error e o =>
          rw [hstep] at h
          cases h
          exact absurd hstep (step_ne_exhausted hlimit hprimitives hm)
        | ok r o =>
          cases r with
          | none => exact absurd hstep (hends o)
          | some v =>
            rw [hstep] at h
            cases h
    · obtain ⟨-, hspent⟩ := Classical.not_imp.1 hm
      obtain ⟨limit', hlimit', hreached⟩ := m.fuelled_or_spent.resolve_left hspent
      obtain rfl : limit = limit' := Option.some.inj (hlimit.symm.trans hlimit')
      obtain ⟨o, hstep, -⟩ := step_of_spent hlimit hm
      have hends : ∀ o, step m ≠ .ok none o := by
        intro o' hnext
        rw [hstep] at hnext
        cases hnext
      have hnone : m.executes = false := Bool.eq_false_iff.2 fun he => hspent (executes_iff.1 he).2
      rw [tally_of_ended hends, hnone]
      exact Nat.le_antisymm hle hreached

end ScriptMachine.Machine
