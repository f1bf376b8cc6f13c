import ScriptMachine.Proofs.Evaluation.Evaluator
import ScriptMachine.Proofs.Machine.Oblivious
import ScriptMachine.Proofs.Simulation.Results

/-!
# Runs that follow an evaluation

A run follows an evaluation when it comes to a state that the result describes, stops with the same
fault, or is still going after as many steps as there was fuel. It may also come to one of the limits
of the machine: then nothing is said.
-/

namespace ScriptMachine

open Evaluation

namespace Machine

/-- Steps may be taken in two goes. -/
theorem run_add {a b : Nat} {m m' : Machine} (h : run a m = .ok none m') :
    run (a + b) m = run b m' := by
  induction a generalizing m with
  | zero =>
    cases h
    rw [Nat.zero_add]
  | succ a ih =>
    rw [Nat.succ_add]
    cases hs : step m with
    | error e o =>
      simp only [run, hs] at h
      cases h
    | ok r o =>
      cases r with
      | some v =>
        simp only [run, hs] at h
        cases h
      | none =>
        simp only [run, hs] at h ⊢
        exact ih h

/-- A run that has come to its end stays there. -/
theorem run_of_ended {a b : Nat} {m : Machine} (hle : a ≤ b) (h : ∀ o, run a m ≠ .ok none o) :
    run b m = run a m := by
  induction a generalizing b m with
  | zero => exact absurd rfl (h m)
  | succ a ih =>
    obtain ⟨b, rfl⟩ : ∃ l, b = l + 1 := ⟨b - 1, by omega⟩
    simp only [run] at h ⊢
    cases hs : step m with
    | error e o => rfl
    | ok r o =>
      cases r with
      | some v => rfl
      | none =>
        simp only [hs] at h
        exact ih (by omega) h

/-- All ends of a run are the same. -/
theorem run_eq_of_ended {a b : Nat} {m : Machine} (ha : ∀ o, run a m ≠ .ok none o)
    (hb : ∀ o, run b m ≠ .ok none o) : run a m = run b m := by
  rcases Nat.le_total a b with hle | hle
  · exact (run_of_ended hle ha).symm
  · exact run_of_ended hle hb

theorem run_one_ok {m m' : Machine} (h : step m = .ok none m') : run 1 m = .ok none m' := by
  unfold run
  rw [h]
  rfl

theorem run_one_error {m m' : Machine} {e : Fault} (h : step m = .error e m') :
    run 1 m = .error e m' := by
  unfold run
  rw [h]

end Machine

namespace Simulation

/-! ## Limits -/

/-- The end of a run that came to a limit: strings without handles, registers or frames without
room, or instructions without fuel. -/
inductive Overrun : EStateM.Result Fault Machine (Option Value) → Prop
  | full {r : EStateM.Result Fault Machine (Option Value)} (h : (endState r).heap.Full) : Overrun r
  | stack {m : Machine} : Overrun (.error .stackOverflow m)
  | fuel {m : Machine} {limit : Nat} (h : m.fuel = some limit) :
    Overrun (.error (.fuelExhausted limit) m)

/-- A run from here comes to a limit. -/
def Lost (m : Machine) : Prop :=
  ∃ n, Overrun (Machine.run n m)

theorem Lost.after {m m' : Machine} {n : Nat} (h : Lost m') (hn : Machine.run n m = .ok none m') :
    Lost m := by
  obtain ⟨k, hk⟩ := h
  refine ⟨n + k, ?_⟩
  rwa [Machine.run_add hn]

theorem Lost.of_full {m : Machine} (h : m.heap.Full) : Lost m :=
  ⟨0, .full h⟩

/-! ## Following -/

/-- The run from `m` follows an evaluation with this result and at least `k` units of fuel. A result
is described by `Q`, a value that is returned from the function by `R`. -/
def Simulates {α : Type} (k : Nat) (m : Machine) (r : EStateM.Result Stop Store α)
    (Q : α → Store → Machine → Prop) (R : Datum → Store → Machine → Prop) : Prop :=
  Lost m ∨
    match r with
    | .ok x s => ∃ n m', Machine.run n m = .ok none m' ∧ Q x s m'
    | .error (.returned d) s => ∃ n m', Machine.run n m = .ok none m' ∧ R d s m'
    | .error (.fault e) s => ∃ n m', Machine.run n m = .error e m' ∧ m'.sink = s.sink ∧ e.Ordinary
    | .error .timeout s => ∃ n m', k ≤ n ∧ Machine.run n m = .ok none m' ∧ m'.sink = s.sink
    | .error .stuck _ => False

namespace Simulates

variable {α β : Type} {k : Nat} {m m' : Machine} {s : Store} {Q Q' : α → Store → Machine → Prop}
  {P : β → Store → Machine → Prop} {R : Datum → Store → Machine → Prop}
  {r : EStateM.Result Stop Store α}

theorem lost (h : Lost m) : Simulates k m r Q R :=
  .inl h

theorem here {x : α} (h : Q x s m) : Simulates k m (.ok x s) Q R :=
  .inr ⟨0, m, rfl, h⟩

theorem returned {d : Datum} (h : R d s m) :
    Simulates k m (.error (.returned d) s : EStateM.Result Stop Store α) Q R :=
  .inr ⟨0, m, rfl, h⟩

theorem timeout (h : m.sink = s.sink) :
    Simulates 0 m (.error .timeout s : EStateM.Result Stop Store α) Q R :=
  .inr ⟨0, m, Nat.le_refl 0, rfl, h⟩

theorem fault {e : Fault} (hs : Machine.step m = .error e m') (hsink : m'.sink = s.sink)
    (he : e.Ordinary) : Simulates k m (.error (.fault e) s : EStateM.Result Stop Store α) Q R :=
  .inr ⟨1, m', Machine.run_one_error hs, hsink, he⟩

/-- Steps taken first count toward the fuel. -/
theorem after {n : Nat} (hn : Machine.run n m = .ok none m') (h : Simulates k m' r Q R) :
    Simulates (n + k) m r Q R := by
  rcases h with h | h
  · exact .inl (h.after hn)
  · refine .inr ?_
    cases r with
    | ok x s =>
      obtain ⟨l, o, hl, ho⟩ := h
      exact ⟨n + l, o, (Machine.run_add hn).trans hl, ho⟩
    | error e s =>
      cases e with
      | returned d =>
        obtain ⟨l, o, hl, ho⟩ := h
        exact ⟨n + l, o, (Machine.run_add hn).trans hl, ho⟩
      | fault e =>
        obtain ⟨l, o, hl, ho⟩ := h
        exact ⟨n + l, o, (Machine.run_add hn).trans hl, ho⟩
      | timeout =>
        obtain ⟨l, o, hle, hl, ho⟩ := h
        exact ⟨n + l, o, Nat.add_le_add_left hle n, (Machine.run_add hn).trans hl, ho⟩
      | stuck => exact h

theorem less {k' : Nat} (h : Simulates k m r Q R) (hle : k' ≤ k) : Simulates k' m r Q R := by
  rcases h with h | h
  · exact .inl h
  · refine .inr ?_
    cases r with
    | ok x s => exact h
    | error e s =>
      cases e with
      | timeout =>
        obtain ⟨n, o, hk, hn⟩ := h
        exact ⟨n, o, Nat.le_trans hle hk, hn⟩
      | _ => exact h

/-- A step taken first. -/
theorem step (hs : Machine.step m = .ok none m') (h : Simulates k m' r Q R) :
    Simulates k m r Q R :=
  (h.after (Machine.run_one_ok hs)).less (Nat.le_add_left k 1)

/-- A step taken first counts toward the fuel. -/
theorem step_succ (hs : Machine.step m = .ok none m') (h : Simulates k m' r Q R) :
    Simulates (k + 1) m r Q R := by
  rw [Nat.add_comm]
  exact h.after (Machine.run_one_ok hs)

/-- The run may go on from the states that a result describes. -/
theorem extend (h : Simulates k m r Q R)
    (hnext : ∀ x s o, Q x s o → Simulates k o (.ok x s) Q' R) : Simulates k m r Q' R := by
  rcases h with h | h
  · exact .inl h
  · cases r with
    | ok x s =>
      obtain ⟨n, o, hn, ho⟩ := h
      exact ((hnext x s o ho).after hn).less (Nat.le_add_left k n)
    | error e s =>
      refine .inr ?_
      cases e with
      | _ => exact h

theorem weaken (h : Simulates k m r Q R) (hQ : ∀ x s o, Q x s o → Q' x s o) :
    Simulates k m r Q' R :=
  h.extend fun x s o ho => .here (hQ x s o ho)

/-- What is said of returned values may be weakened too. -/
theorem weakenReturned {R' : Datum → Store → Machine → Prop} (h : Simulates k m r Q R)
    (hR : ∀ d s o, R d s o → R' d s o) : Simulates k m r Q R' := by
  rcases h with h | h
  · exact .inl h
  · refine .inr ?_
    cases r with
    | ok x s => exact h
    | error e s =>
      cases e with
      | returned d =>
        obtain ⟨n, o, hn, ho⟩ := h
        exact ⟨n, o, hn, hR d s o ho⟩
      | _ => exact h

/-- One evaluation after another is followed by one run after another. -/
theorem bind {act : Eval α} {next : α → Eval β} (h : Simulates k m (act s) Q R)
    (hnext : ∀ x s' o, Q x s' o → Simulates k o (next x s') P R) :
    Simulates k m ((act >>= next) s) P R := by
  show Simulates k m (EStateM.bind act next s) P R
  unfold EStateM.bind
  rcases h with h | h
  · exact .inl h
  · cases hr : act s with
    | ok x s' =>
      rw [hr] at h
      obtain ⟨n, o, hn, ho⟩ := h
      exact ((hnext x s' o ho).after hn).less (Nat.le_add_left k n)
    | error e s' =>
      rw [hr] at h
      cases e with
      | returned d => exact .inr h
      | fault e => exact .inr h
      | timeout => exact .inr h
      | stuck => exact h.elim

/-- What a run never takes back is known of the state that it comes to. -/
theorem continues (hm : m.primitives.Additive) (h : Simulates k m r Q R) :
    Simulates k m r (fun x s o => m.Continues o ∧ Q x s o) R := by
  rcases h with h | h
  · exact .inl h
  · refine .inr ?_
    cases r with
    | ok x s =>
      obtain ⟨n, o, hn, ho⟩ := h
      exact ⟨n, o, hn, (Machine.keeps_run hm n).ok (.refl m) hn, ho⟩
    | error e s =>
      cases e with
      | _ => exact h

end Simulates
end Simulation
end ScriptMachine
