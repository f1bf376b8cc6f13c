import ScriptMachine.Proofs.Machine.Ledger
import ScriptMachine.Proofs.Machine.Continuation
import Mathlib.Data.List.Induction

/-!
# The writes of a run

Which globals a run writes is read off from the instructions that it executes. What a machine has
collected is, for each slot, the last of these writes. One that does not define its slot finds it
bound, by the run or in the table.
-/

namespace ScriptMachine.Machine

open Bytecode

/-! ## Writes in order -/

/-- A write to a global; it may define the slot. -/
structure Write where
  defines : Bool
  slot : Nat
  value : Value
deriving DecidableEq

/-- The write to a global that an instruction makes. -/
def writeOf (base : Nat) (op : Opcode) (w : Word) (m : Machine) : Option Write :=
  match op with
  | .defGlobal => m.stack[base + w.a]?.map (⟨true, w.bx, ·⟩)
  | .setGlobal => m.stack[base + w.a]?.map (⟨false, w.bx, ·⟩)
  | _ => none

/-- The write to a global that the next step makes. -/
def nextWrite (m : Machine) : Option Write := do
  let frame ← m.frames.head?
  let f ← m.heap.function? frame.function
  let w ← f.code[frame.ip]?
  let op ← Word.opcode? w
  writeOf frame.base op w m

/-- The writes to globals that a run of up to `n` steps makes, in order. -/
def writesOf : (n : Nat) → Machine → List Write
  | 0, _ => []
  | n + 1, m =>
    match step m with
    | .error _ _ => []
    | .ok (some _) _ => m.nextWrite.toList
    | .ok none m' => m.nextWrite.toList ++ writesOf n m'

/-- The collected writes and one more. -/
def Write.collect (pending : Writes) (w : Write) : Writes :=
  pending.insert w.slot w.value

/-- The value that a slot was last given. -/
def lastWrite (ws : List Write) (slot : Nat) : Option Value :=
  (ws.reverse.find? fun w => w.slot = slot).map Write.value

theorem collect_eq (ws : List Write) (pending : Writes) (slot : Nat) :
    (ws.foldl Write.collect pending)[slot]? = (lastWrite ws slot).or pending[slot]? := by
  induction ws using List.reverseRecOn with
  | nil => rfl
  | append_singleton ws w ih =>
    rw [List.foldl_append, List.foldl_cons, List.foldl_nil]
    unfold Write.collect lastWrite
    rw [Std.TreeMap.getElem?_insert, List.reverse_append, List.reverse_cons, List.reverse_nil,
      List.nil_append, List.singleton_append, List.find?_cons]
    by_cases hslot : w.slot = slot
    · subst hslot
      simp
    · have hne : compare w.slot slot ≠ .eq := fun he => hslot (Std.LawfulEqCmp.eq_of_compare he)
      simp only [hslot, decide_false, if_neg hne]
      exact ih

/-! ## Writes collected -/

/-- A slot that may be assigned to: the run has written it, or the table binds it. -/
def Known (m : Machine) (slot : Nat) : Prop :=
  m.pending.contains slot = true ∨ m.globals.isBound slot = true

/-- What is assigned to was known. -/
theorem known_of_assignable {m m' : Machine} {slot : Nat}
    (h : checkAssignable slot m = .ok () m') : m' = m ∧ m.Known slot := by
  unfold checkAssignable at h
  split_ifs at h with hcontains
  · cases h
    exact ⟨rfl, .inl hcontains⟩
  · cases hv : globalValue slot m with
    | error e o =>
      rw [hv] at h
      cases h
    | ok v o =>
      rw [hv] at h
      cases h
      obtain ⟨rfl, hslot, hk⟩ := globalValue_ok_iff.1 hv
      have hnone : m'.pending[slot]? = none := by
        rw [Std.TreeMap.contains_eq_isSome_getElem?] at hcontains
        exact Option.not_isSome_iff_eq_none.1 hcontains
      rw [global?, hnone, Option.none_or] at hslot
      exact ⟨rfl, .inr (by simp [GlobalTable.isBound, hslot, hk])⟩

/-- A write to globals that an instruction makes is the next write, and one that does not define its
slot finds it known. -/
theorem writes_of_perform {f : Function} {base : Nat} {op : Opcode} {w : Word} {m m' : Machine}
    {r : Option Value} (h : perform f base op w m = .ok r m') :
    m'.globals = m.globals ∧
      m'.pending = (writeOf base op w m).toList.foldl Write.collect m.pending ∧
      ∀ x ∈ writeOf base op w m, x.defines = true ∨ m.Known x.slot := by
  by_cases hop : UsesGlobals op
  · cases op with
    | getGlobal =>
      obtain ⟨v, o, hv, hrest⟩ := ok_of_bind h
      obtain rfl := globalValue_state (.inl ⟨v, hv⟩)
      have hblind : Blind (do writeReg base w.a v; return (none : Option Value)) :=
        (blind_writeReg base w.a v).bind fun _ => .pure _
      obtain ⟨hglobals, hpending⟩ := hblind.globals_eq hrest
      exact ⟨hglobals, hpending, by simp [writeOf]⟩
    | setGlobal =>
      obtain ⟨_, o, hcheck, hrest⟩ := ok_of_bind h
      obtain ⟨rfl, hknown⟩ := known_of_assignable hcheck
      obtain ⟨v, n, hv, hwrite⟩ := ok_of_bind hrest
      obtain ⟨rfl, hcell⟩ := readReg_ok_iff.1 hv
      have hnext : writeOf base .setGlobal w n = some ⟨false, w.bx, v⟩ := by
        rw [writeOf, hcell, Option.map_some]
      cases hwrite
      rw [hnext]
      refine ⟨rfl, rfl, fun x hx => ?_⟩
      cases hx
      exact .inr hknown
    | defGlobal =>
      obtain ⟨v, n, hv, hwrite⟩ := ok_of_bind h
      obtain ⟨rfl, hcell⟩ := readReg_ok_iff.1 hv
      have hnext : writeOf base .defGlobal w n = some ⟨true, w.bx, v⟩ := by
        rw [writeOf, hcell, Option.map_some]
      cases hwrite
      rw [hnext]
      refine ⟨rfl, rfl, fun x hx => ?_⟩
      cases hx
      exact .inl rfl
    | _ => exact absurd hop id
  · obtain ⟨hglobals, hpending⟩ := (blind_perform hop f base w).globals_eq h
    have hnone : writeOf base op w m = none := by
      cases op <;> first | rfl | exact absurd trivial hop
    rw [hnone]
    exact ⟨hglobals, hpending, by simp⟩

/-- The same of a step. -/
theorem writes_of_step {m m' : Machine} {r : Option Value} (h : step m = .ok r m') :
    m'.globals = m.globals ∧ m'.pending = m.nextWrite.toList.foldl Write.collect m.pending ∧
      ∀ x ∈ m.nextWrite, x.defines = true ∨ m.Known x.slot := by
  unfold nextWrite
  cases m.step_cases with
  | noFrame hframes hstep =>
    rw [hstep] at h
    cases h
    rw [hframes]
    exact ⟨rfl, rfl, by simp⟩
  | atEnd hframes hf hw hstep =>
    rw [hstep] at h
    obtain ⟨hglobals, hpending⟩ := (blind_leaveFrame .nil).globals_eq h
    simp only [hframes, List.head?_cons, Option.bind_eq_bind, Option.bind_some, hf, hw,
      Option.bind_none]
    exact ⟨hglobals, hpending, by simp⟩
  | @performs frame rest f w op hframes hf hw hfuel hop hstep =>
    rw [hstep] at h
    simp only [hframes, List.head?_cons, Option.bind_eq_bind, Option.bind_some, hf, hw, hop]
    exact writes_of_perform (m := m.past frame rest) h
  | noFunction _ _ hstep | outOfFuel _ _ _ hstep | invalidOpcode _ _ _ _ hstep =>
    rw [hstep] at h
    cases h

theorem contains_collect (ws : List Write) (pending : Writes) (slot : Nat) :
    (ws.foldl Write.collect pending).contains slot = true ↔
      pending.contains slot = true ∨ ∃ w ∈ ws, w.slot = slot := by
  induction ws generalizing pending with
  | nil => simp
  | cons w ws ih =>
    rw [List.foldl_cons, ih]
    simp [Write.collect, or_left_comm, or_assoc]

/-- A run that goes well has collected its writes, and those that do not define their slots found
them known. -/
theorem writes_of_run {n : Nat} {m m' : Machine} {r : Option Value} (h : run n m = .ok r m') :
    m'.globals = m.globals ∧ m'.pending = (writesOf n m).foldl Write.collect m.pending ∧
      ∀ slot, m'.Known slot → m.Known slot ∨ ∃ x ∈ writesOf n m, x.defines = true ∧ x.slot = slot := by
  induction n generalizing m with
  | zero =>
    cases h
    exact ⟨rfl, rfl, fun slot hslot => .inl hslot⟩
  | succ n ih =>
    -- what is known after a step was known before it, or the step wrote it
    have hknown : ∀ {o : Machine} {s : Option Value}, step m = .ok s o → ∀ slot, o.Known slot →
        m.Known slot ∨ ∃ x ∈ m.nextWrite.toList, x.defines = true ∧ x.slot = slot := by
      intro o s hstep slot hslot
      obtain ⟨hglobals, hpending, hwrite⟩ := writes_of_step hstep
      unfold Known at hslot
      rw [hglobals, hpending, contains_collect] at hslot
      rcases hslot with (hslot | ⟨x, hx, rfl⟩) | hslot
      · exact .inl (.inl hslot)
      · rcases hwrite x (Option.mem_toList.1 hx) with hdefines | hbefore
        · exact .inr ⟨x, hx, hdefines, rfl⟩
        · exact .inl hbefore
      · exact .inl (.inr hslot)
    unfold run at h
    unfold writesOf
    cases hstep : step m with
    | error e o =>
      rw [hstep] at h
      cases h
    | ok s o =>
      rw [hstep] at h
      obtain ⟨hglobals, hpending, -⟩ := writes_of_step hstep
      cases s with
      | some v =>
        cases h
        exact ⟨hglobals, hpending, hknown hstep⟩
      | none =>
        obtain ⟨hglobals', hpending', hknown'⟩ := ih h
        refine ⟨hglobals'.trans hglobals, ?_, fun slot hslot => ?_⟩
        · simp only [List.foldl_append]
          rw [← hpending, hpending']
        · simp only [List.mem_append]
          rcases hknown' slot hslot with hslot | ⟨x, hx, hdefines, rfl⟩
          · rcases hknown hstep slot hslot with hslot | ⟨x, hx, hwrites⟩
            · exact .inl hslot
            · exact .inr ⟨x, .inl hx, hwrites⟩
          · exact .inr ⟨x, .inr hx, hdefines, rfl⟩

end ScriptMachine.Machine
