import ScriptMachine.Proofs.Machine.Continuation
import ScriptMachine.Proofs.Machine.Effects
import ScriptMachine.Proofs.Machine.Waiting

/-!
# Whose the values on the stack are

All activations share one stack, and no cell is ever cleared. So it is kept beside a run whose each
value is: the activation's that has written it with an instruction of its own, that was given it as an
argument, or whose call it answers. What an activation leaves when it returns is nobody's, and so is
what fills new cells. In code that never needs more than it has, each instruction reads values of its
own activation only.
-/

namespace ScriptMachine.Machine

open Bytecode

/-! ## Owners -/

/-- Whose the value in each cell of the stack is: that of the activation with so many frames below its
own, or nobody's. -/
abbrev Owners : Type :=
  Nat → Option Nat

namespace Owners

/-- Some cells are now an activation's. -/
def give (o : Owners) (start count depth : Nat) : Owners := fun i =>
  if start ≤ i ∧ i < start + count then some depth else o i

/-- What an activation has left is nobody's. -/
def release (o : Owners) (depth : Nat) : Owners := fun i =>
  if o i = some depth then none else o i

end Owners

/-- The instruction that is executed next. -/
def instruction? (m : Machine) : Option (Opcode × Word) := do
  let frame ← m.frames.head?
  let f ← m.heap.function? frame.function
  let w ← f.code[frame.ip]?
  let op ← Word.opcode? w
  return (op, w)

/-- Whose the values are after a step that leaves the frames `after`. A return gives its value to the
activation below, an instruction gives its target to its own activation, and the call of a function
gives the arguments to the new one. -/
def Owners.next (o : Owners) (m : Machine) (after : List Frame) : Owners :=
  match m.frames with
  | [] => o
  | frame :: rest =>
    if after.length ≤ rest.length then
      match rest with
      | [] => o.release 0
      | _ :: others => (o.release rest.length).give frame.dest 1 others.length
    else
      match m.instruction? with
      | none => o
      | some (op, w) =>
        if rest.length + 1 < after.length then o.give (frame.base + w.b + 1) w.c (rest.length + 1)
        else if op.Writes w w.a then o.give (frame.base + w.a) 1 rest.length
        else o

/-- The next instruction reads only registers whose values are those of its own activation. -/
def ReadsOwn (o : Owners) (m : Machine) : Prop :=
  ∀ frame rest op w, m.frames = frame :: rest → m.instruction? = some (op, w) →
    ∀ reg, op.Reads w reg → o (frame.base + reg) = some rest.length

/-- A run from `m₀`, where no value is anybody's, gets to a machine and these owners. -/
inductive Reaches (m₀ : Machine) : Machine → Owners → Prop
  | start : Reaches m₀ m₀ fun _ => none
  | step {m m' : Machine} {o : Owners} (h : Reaches m₀ m o) (hstep : Machine.step m = .ok none m') :
    Reaches m₀ m' (o.next m m'.frames)

namespace Owners

variable {o : Owners} {start count depth i e : Nat}

theorem give_of_mem (h : start ≤ i) (h' : i < start + count) :
    o.give start count depth i = some depth :=
  if_pos ⟨h, h'⟩

theorem give_of_lt (h : i < start) : o.give start count depth i = o i :=
  if_neg fun h' => Nat.not_lt.2 h'.1 h

theorem give_one_of_ne (h : i ≠ start) : o.give start 1 depth i = o i :=
  if_neg fun h' => h (by omega)

theorem release_of_ne (h : o i = some e) (hne : e ≠ depth) : o.release depth i = some e := by
  unfold release
  rw [if_neg, h]
  rw [h]
  exact fun heq => hne (Option.some.inj heq)

end Owners

section

variable {m : Machine} {frame : Frame} {rest after : List Frame} {f : Function} {w : Word} {op : Opcode}
  {o : Owners}

theorem instruction?_eq (hframes : m.frames = frame :: rest)
    (hf : m.heap.function? frame.function = some f) (hw : f.code[frame.ip]? = some w)
    (hop : w.opcode? = some op) : m.instruction? = some (op, w) := by
  unfold instruction?
  simp only [hframes, List.head?_cons, Option.bind_eq_bind, Option.bind_some, hf, hw, hop]
  rfl

theorem next_of_move (hframes : m.frames = frame :: rest) (hi : m.instruction? = some (op, w))
    (hwrites : ¬ op.Writes w w.a) (hafter : after.length = rest.length + 1) :
    o.next m after = o := by
  unfold Owners.next
  rw [hframes]
  dsimp only
  rw [if_neg (by omega), hi]
  dsimp only
  rw [if_neg (by omega), if_neg hwrites]

theorem next_of_write (hframes : m.frames = frame :: rest) (hi : m.instruction? = some (op, w))
    (hwrites : op.Writes w w.a) (hafter : after.length = rest.length + 1) :
    o.next m after = o.give (frame.base + w.a) 1 rest.length := by
  unfold Owners.next
  rw [hframes]
  dsimp only
  rw [if_neg (by omega), hi]
  dsimp only
  rw [if_neg (by omega), if_pos hwrites]

theorem next_of_call (hframes : m.frames = frame :: rest) (hi : m.instruction? = some (op, w))
    (hafter : after.length = rest.length + 2) :
    o.next m after = o.give (frame.base + w.b + 1) w.c (rest.length + 1) := by
  unfold Owners.next
  rw [hframes]
  dsimp only
  rw [if_neg (by omega), hi]
  dsimp only
  rw [if_pos (by omega)]

theorem next_of_finish (hframes : m.frames = [frame]) : o.next m [] = o.release 0 := by
  unfold Owners.next
  rw [hframes]
  exact if_pos (Nat.le_refl _)

theorem next_of_return {below : Frame} {others : List Frame}
    (hframes : m.frames = frame :: below :: others) :
    o.next m (below :: others) =
      (o.release (below :: others).length).give frame.dest 1 others.length := by
  unfold Owners.next
  rw [hframes]
  exact if_pos (Nat.le_refl _)

end

/-! ## What activations need -/

/-- The activation needs the register: it is live at the instruction that it executes next. -/
def Needs (function? : UInt32 → Option Function) (frame : Frame) (reg : Nat) : Prop :=
  ∃ f, function? frame.function = some f ∧ Live f.code frame.ip reg

/-- A cell holds a value of that activation. -/
def Owners.holds (o : Owners) (i depth : Nat) : Prop :=
  o i = some depth

/-- All activations of the machine have what they need. -/
def AllProvided (m : Machine) (o : Owners) : Prop :=
  ∀ frame rest, m.frames = frame :: rest → Provided (Needs m.heap.function?) o.holds frame rest

section

variable {m : Machine} {o : Owners} {frame : Frame} {rest : List Frame} {f : Function} {w : Word}
  {op : Opcode} {next reg : Nat}

/-- What is needed after an instruction that does not write it is needed before it. -/
theorem needs_of_leads (hf : m.heap.function? frame.function = some f)
    (hw : f.code[frame.ip]? = some w) (hop : w.opcode? = some op) (hleads : op.Leads w frame.ip next)
    (hwrites : ¬ op.Writes w reg) (h : Needs m.heap.function? { frame with ip := next } reg) :
    Needs m.heap.function? frame reg := by
  obtain ⟨f', hf', hlive⟩ := h
  obtain rfl := Option.some.inj (hf.symm.trans hf')
  exact ⟨f, hf, .later hw hop hleads hwrites hlive⟩

/-- An instruction that writes no register. -/
theorem provided_of_move (h : Provided (Needs m.heap.function?) o.holds frame rest)
    (hf : m.heap.function? frame.function = some f) (hw : f.code[frame.ip]? = some w)
    (hop : w.opcode? = some op) (hwrites : ∀ reg, ¬ op.Writes w reg)
    (hleads : op.Leads w frame.ip next) :
    Provided (Needs m.heap.function?) o.holds { frame with ip := next } rest :=
  h.advance (fun reg hreg => h.own reg (needs_of_leads hf hw hop hleads (hwrites reg) hreg))
    fun _ _ _ _ hown => hown

/-- An instruction that writes its target. -/
theorem provided_of_write (h : Provided (Needs m.heap.function?) o.holds frame rest)
    (hf : m.heap.function? frame.function = some f) (hw : f.code[frame.ip]? = some w)
    (hop : w.opcode? = some op) (hleads : op.Leads w frame.ip (frame.ip + 1)) :
    Provided (Needs m.heap.function?) (o.give (frame.base + w.a) 1 rest.length).holds
      { frame with ip := frame.ip + 1 } rest := by
  refine h.advance (fun reg hreg => ?_) fun i e hi _ hown => ?_
  · by_cases heq : reg = w.a
    · rw [heq]
      exact Owners.give_of_mem (Nat.le_refl _) (Nat.lt_succ_self _)
    · have hown := h.own reg
        (needs_of_leads hf hw hop hleads (fun hwrites => heq hwrites.eq) hreg)
      exact (Owners.give_one_of_ne (by omega)).trans hown
  · exact (Owners.give_of_lt (by omega)).trans hown

/-- A call: the arguments are the callee's, and the caller waits for the result. -/
theorem provided_of_call {handle : UInt32} {callee : Function}
    (hdefinite : ∀ handle f, m.heap.function? handle = some f → Definite f.arity f.code)
    (h : Provided (Needs m.heap.function?) o.holds frame rest)
    (hf : m.heap.function? frame.function = some f) (hw : f.code[frame.ip]? = some w)
    (hop : w.opcode? = some .call) (hcallee : m.heap.function? handle = some callee)
    (harity : callee.arity = w.c) :
    Provided (Needs m.heap.function?)
      (o.give (frame.base + w.b + 1) w.c (rest.length + 1)).holds
      ⟨handle, 0, frame.base + w.b + 1, frame.base + w.a⟩
      ({ frame with ip := frame.ip + 1 } :: rest) := by
  refine h.call (by simp only; omega) (Nat.le_add_right _ _) ?_ (fun reg hreg => ?_)
    fun i e hi _ hown => (Owners.give_of_lt (by omega)).trans hown
  · rintro reg ⟨g, hg, hlive⟩
    obtain rfl := Option.some.inj (hcallee.symm.trans hg)
    have hlt := (hdefinite _ _ hcallee).start reg hlive
    exact Owners.give_of_mem (Nat.le_add_right _ _) (Nat.add_lt_add_left (harity ▸ hlt) _)
  · by_cases heq : reg = w.a
    · exact .inl (congrArg (frame.base + ·) heq)
    · have hown := h.own reg
        (needs_of_leads hf hw hop rfl (fun hwrites => heq hwrites.eq) hreg)
      obtain ⟨f', hf', hlive⟩ := hreg
      obtain rfl := Option.some.inj (hf.symm.trans hf')
      have hle := ((hdefinite _ _ hf).call hw hop hlive).resolve_left heq
      have hbefore : frame.base + reg < frame.base + w.b + 1 := by omega
      exact .inr ⟨hbefore, (Owners.give_of_lt hbefore).trans hown⟩

/-- A return: the activation below gets what it waited for. -/
theorem provided_of_return {needs : Frame → Nat → Prop} {below : Frame} {others : List Frame}
    (h : Provided needs o.holds frame (below :: others)) :
    Provided needs
      ((o.release (below :: others).length).give frame.dest 1 others.length).holds below others := by
  refine h.answer (Owners.give_of_mem (Nat.le_refl _) (Nat.lt_succ_self _)) fun i e hi he hown => ?_
  exact (Owners.give_one_of_ne hi).trans (Owners.release_of_ne hown (Nat.ne_of_lt he))

end

/-- Each step leaves all activations with what they need. -/
theorem AllProvided.next {m m' : Machine} {o : Owners} {r : Option Value}
    (hdefinite : ∀ handle f, m.heap.function? handle = some f → Definite f.arity f.code)
    (hsame : m'.heap.function? = m.heap.function?) (h : AllProvided m o)
    (hstep : Machine.step m = .ok r m') : AllProvided m' (o.next m m'.frames) := by
  intro frame' rest' hframes'
  rw [hsame, hframes']
  cases hframes : m.frames with
  | nil =>
    rw [step_of_no_frame hframes] at hstep
    cases hstep
    cases hframes.symm.trans hframes'
  | cons frame rest =>
    have hprovided := h frame rest hframes
    obtain ⟨f, hf, heffect⟩ := effect_of_step hframes hstep
    rw [hframes'] at heffect
    generalize m'.stack = stack' at heffect
    cases heffect with
    | moves hw hop hwrites hleads =>
      rw [next_of_move hframes (instruction?_eq hframes hf hw hop) (hwrites _) rfl]
      exact provided_of_move hprovided hf hw hop hwrites hleads
    | writes hw hop hwrites hleads =>
      rw [next_of_write hframes (instruction?_eq hframes hf hw hop) hwrites rfl]
      exact provided_of_write hprovided hf hw hop hleads
    | calls hw hop hcallee harity =>
      rw [next_of_call hframes (instruction?_eq hframes hf hw hop) rfl]
      exact provided_of_call hdefinite hprovided hf hw hop hcallee harity
    | returns =>
      rw [next_of_return hframes]
      exact provided_of_return hprovided

end ScriptMachine.Machine
