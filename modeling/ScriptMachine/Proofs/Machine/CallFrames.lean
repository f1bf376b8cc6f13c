import ScriptMachine.Machine.Standard
import ScriptMachine.Proofs.Machine.Effects

/-!
# What a call leaves of its caller's frame

The frame of a callee lies in the registers of its caller: it starts right after the register that
holds the callee, and its value goes to a cell of the stack. From a call to the return that answers it
no cell before the arguments is written, whatever the callee calls in turn, and that return then writes
one cell. What carries this through nested calls is where the frames above the caller start, and where
their values go.
-/

namespace ScriptMachine.Machine

open Bytecode

/-! ## Writes from a cell on -/

/-- What becomes of a stack of which no cell before `floor` is written: one cell may be, or new ones are
added. -/
inductive WritesFrom (floor : Nat) (stack : Array Value) : Array Value → Prop
  | nothing : WritesFrom floor stack stack
  | cell {i : Nat} {v : Value} (hi : floor ≤ i) (hcell : i < stack.size) :
    WritesFrom floor stack (stack.set i v hcell)
  | growth {n : Nat} (hfloor : floor ≤ stack.size) :
    WritesFrom floor stack (stack ++ Array.replicate n .nil)

namespace WritesFrom

variable {floor : Nat} {stack stack' : Array Value}

theorem size_le (h : WritesFrom floor stack stack') : stack.size ≤ stack'.size := by
  cases h with
  | nothing => exact Nat.le_refl _
  | cell _ hcell => exact Nat.le_of_eq (Array.size_set hcell).symm
  | growth => rw [Array.size_append]; exact Nat.le_add_right _ _

/-- The cells before `floor` stay as they are. -/
theorem below (h : WritesFrom floor stack stack') {i : Nat} (hi : i < floor) :
    stack'[i]? = stack[i]? := by
  cases h with
  | nothing => rfl
  | cell hfloor hcell => exact Array.getElem?_set_ne hcell (by omega)
  | growth hfloor => rw [Array.getElem?_append, if_pos (Nat.lt_of_lt_of_le hi hfloor)]

end WritesFrom

/-! ## The frames of a call -/

/-- The frames of a callee and of what it has called: they start at `floor` or later, and their values
go there too, but for the callee's own, which goes to `dest`. -/
inductive Inner (floor dest : Nat) : List Frame → Prop
  | callee {frame : Frame} (hbase : floor ≤ frame.base) (hdest : frame.dest = dest) :
    Inner floor dest [frame]
  | deeper {frame : Frame} {frames : List Frame} (hbase : floor ≤ frame.base)
    (hdest : floor ≤ frame.dest) (h : Inner floor dest frames) : Inner floor dest (frame :: frames)

/-- The running frame may go on. -/
theorem Inner.move {floor dest : Nat} {frame : Frame} {frames : List Frame}
    (h : Inner floor dest (frame :: frames)) (ip : Nat) :
    Inner floor dest ({ frame with ip } :: frames) := by
  cases h with
  | callee hbase hdest => exact .callee hbase hdest
  | deeper hbase hdest h => exact .deeper hbase hdest h

theorem Inner.base_le {floor dest : Nat} {frame : Frame} {frames : List Frame}
    (h : Inner floor dest (frame :: frames)) : floor ≤ frame.base := by
  cases h with
  | callee hbase => exact hbase
  | deeper hbase => exact hbase

/-- The machine is in a call that the frames `callers` have made, whose first cell is `floor` and whose
value goes to `dest`; the cells before are those of `stack`. -/
structure InCall (floor dest : Nat) (callers : List Frame) (stack : Array Value) (m : Machine) :
    Prop where
  frames : ∃ inner, Inner floor dest inner ∧ m.frames = inner ++ callers
  size : floor ≤ m.stack.size
  below : ∀ i < floor, m.stack[i]? = stack[i]?

/-- What a step in such a call ends with: it stays in the call and writes no cell before `floor`, or it
is the return that answers the call, and writes the cell `dest`. -/
inductive CallStep (floor dest : Nat) (callers : List Frame) (m : Machine) :
    Option Value → Machine → Prop
  | inside {m' : Machine} {inner : List Frame} (hinner : Inner floor dest inner)
    (hframes : m'.frames = inner ++ callers) (hstack : WritesFrom floor m.stack m'.stack) :
    CallStep floor dest callers m none m'
  | answer {m' : Machine} {v : Value} (hframes : m'.frames = callers) (hcell : dest < m.stack.size)
    (hstack : m'.stack = m.stack.set dest v hcell) : CallStep floor dest callers m none m'

section

variable {floor dest : Nat} {callers : List Frame} {stack : Array Value} {m m' : Machine}
  {r : Option Value}

/-- A step in a call stays in it or answers it. -/
theorem InCall.step (h : InCall floor dest callers stack m) (hcallers : callers ≠ [])
    (hstep : Machine.step m = .ok r m') : CallStep floor dest callers m r m' := by
  obtain ⟨inner, hinner, hframes⟩ := h.frames
  cases inner with
  | nil => cases hinner
  | cons frame others =>
    have hbase := hinner.base_le
    obtain ⟨f, -, heffect⟩ := effect_of_step hframes hstep
    generalize hframes' : m'.frames = frames' at heffect
    generalize hstack' : m'.stack = stack' at heffect
    cases heffect with
    | moves => exact .inside (hinner.move _) hframes' (hstack' ▸ .nothing)
    | writes _ _ _ _ hcell =>
      exact .inside (hinner.move _) hframes' (hstack' ▸ .cell (by omega) hcell)
    | @calls w =>
      have hstart : floor ≤ frame.base + w.b + 1 := by omega
      have hto : floor ≤ frame.base + w.a := by omega
      exact .inside (.deeper hstart hto (hinner.move _)) hframes'
        (hstack' ▸ .growth h.size)
    | returns _ _ hdest =>
      cases hinner with
      | callee _ hto =>
        subst hto
        exact .answer hframes' hdest hstack'
      | deeper _ hto hothers => exact .inside hothers hframes' (hstack' ▸ .cell hto hdest)
    | finishes hrest => exact absurd (List.append_eq_nil_iff.1 hrest).2 hcallers

/-- While more frames than those of the callers stand, the call goes on. -/
theorem InCall.goes_on (h : InCall floor dest callers stack m)
    (hstep : CallStep floor dest callers m r m') (hdeep : callers.length < m'.frames.length) :
    InCall floor dest callers stack m' := by
  cases hstep with
  | inside hinner hframes hstack =>
    exact ⟨⟨_, hinner, hframes⟩, Nat.le_trans h.size hstack.size_le,
      fun i hi => (hstack.below hi).trans (h.below i hi)⟩
  | answer hframes =>
    rw [hframes] at hdeep
    exact absurd hdeep (Nat.lt_irrefl _)

/-- The answer to a call leaves the cells before `floor` as they were, but for the cell `dest`. -/
theorem InCall.answered (h : InCall floor dest callers stack m)
    (hstep : CallStep floor dest callers m r m') (hframes : m'.frames = callers) {i : Nat}
    (hi : i < floor) (hne : i ≠ dest) : ∃ v, stack[i]? = some v ∧ m'.stack[i]? = some v := by
  have hcell : i < m.stack.size := Nat.lt_of_lt_of_le hi h.size
  refine ⟨m.stack[i], ?_, ?_⟩
  · rw [← h.below i hi]
    exact Array.getElem?_eq_getElem hcell
  · cases hstep with
    | inside hinner hframes' =>
      rw [hframes] at hframes'
      have hnil := List.self_eq_append_left.1 hframes'
      subst hnil
      cases hinner
    | answer _ hdest hstack =>
      rw [hstack, Array.getElem?_set_ne hdest (Ne.symm hne)]
      exact Array.getElem?_eq_getElem hcell

end

/-! ## Calls -/

/-- The machine goes from one state to the other in steps, and more than `depth` frames stand all
along. -/
inductive During (depth : Nat) (m : Machine) : Machine → Prop
  | start : During depth m m
  | step {m₂ m₃ : Machine} (h : During depth m m₂) (hstep : Machine.step m₂ = .ok none m₃)
    (hdeep : depth < m₃.frames.length) : During depth m m₃

theorem InCall.during {floor dest : Nat} {callers : List Frame} {stack : Array Value}
    {m m₂ : Machine} (h : InCall floor dest callers stack m) (hcallers : callers ≠ [])
    (hduring : During callers.length m m₂) : InCall floor dest callers stack m₂ := by
  induction hduring with
  | start => exact h
  | step _ hstep hdeep ih => exact ih.goes_on (ih.step hcallers hstep) hdeep

/-- What the call `w` of the frame `caller` does from `m` to `m₁`. A primitive writes the cell for its
result and no other. A function gets a frame of its own; as long as that stands no cell of the caller's
up to the callee's is written, nor does a step that fails write any, and the return of the function
writes the cell for the result and leaves all other such cells with what they held before the call. -/
inductive Called (m : Machine) (caller : Frame) (rest : List Frame) (w : Word) (m₁ : Machine) : Prop
  | primitive {v : Value} (hframes : m₁.frames = { caller with ip := caller.ip + 1 } :: rest)
    (hcell : caller.base + w.a < m.stack.size)
    (hstack : m₁.stack = m.stack.set (caller.base + w.a) v hcell)
  | function {callee : Frame} (hbase : callee.base = caller.base + w.b + 1)
    (hframes : m₁.frames = callee :: { caller with ip := caller.ip + 1 } :: rest)
    (hstack : WritesFrom (caller.base + w.b + 1) m.stack m₁.stack)
    (hsteps : ∀ m₂, During (rest.length + 1) m₁ m₂ →
      Runs (· = m₂) Machine.step
        (CallStep (caller.base + w.b + 1) (caller.base + w.a)
          ({ caller with ip := caller.ip + 1 } :: rest) m₂)
        fun _ m₃ => m₃.stack = m₂.stack)
    (hkept : ∀ m₂ m₃, During (rest.length + 1) m₁ m₂ → Machine.step m₂ = .ok none m₃ →
      m₃.frames = { caller with ip := caller.ip + 1 } :: rest → ∀ reg ≤ w.b, reg ≠ w.a →
        ∃ v, m.stack[caller.base + reg]? = some v ∧ m₃.stack[caller.base + reg]? = some v)

/-- A call leaves its caller's frame alone: a primitive writes the cell for its result only, and from
the call of a function to the matching return no cell before the arguments is written, which then writes
that one cell. However the machine got to the call, this holds. -/
theorem calls_isolated {m : Machine} {caller : Frame} {rest : List Frame} {f : Function} {w : Word}
    (hframes : m.frames = caller :: rest) (hf : m.heap.function? caller.function = some f)
    (hw : f.code[caller.ip]? = some w) (hop : w.opcode? = some .call) :
    Runs (· = m) Machine.step (fun r m₁ => r = none ∧ Called m caller rest w m₁)
      fun _ m₁ => m₁.stack = m.stack := by
  refine .of_eq ?_ ?_
  · rintro m r m₁ rfl hstep
    obtain ⟨f', hf', heffect⟩ := effect_of_step hframes hstep
    obtain rfl := Option.some.inj (hf.symm.trans hf')
    generalize hframes' : m₁.frames = frames' at heffect
    generalize hstack' : m₁.stack = stack' at heffect
    have hsame : ∀ {w' : Word}, f.code[caller.ip]? = some w' → w = w' :=
      fun hw' => Option.some.inj (hw.symm.trans hw')
    have hends : ¬ Ends f caller.ip := by
      rintro (hnone | ⟨w', hw', hret⟩)
      · cases hw.symm.trans hnone
      · obtain rfl := hsame hw'
        cases hop.symm.trans hret
    cases heffect with
    | moves hw' hop' hwrites =>
      obtain rfl := hsame hw'
      obtain rfl := Option.some.inj (hop'.symm.trans hop)
      exact absurd rfl (hwrites _)
    | writes hw' _ _ _ hcell =>
      obtain rfl := hsame hw'
      exact ⟨rfl, .primitive hframes' hcell hstack'⟩
    | @calls _ _ g hw' _ _ _ hcount =>
      obtain rfl := hsame hw'
      have hfloor : caller.base + w.b + 1 ≤ m.stack.size := by omega
      have hstack : WritesFrom (caller.base + w.b + 1) m.stack m₁.stack := hstack' ▸ .growth hfloor
      have hin : InCall (caller.base + w.b + 1) (caller.base + w.a)
          ({ caller with ip := caller.ip + 1 } :: rest) m.stack m₁ :=
        ⟨⟨[_], .callee (Nat.le_refl _) rfl, hframes'⟩, Nat.le_trans hfloor hstack.size_le,
          fun i hi => hstack.below hi⟩
      have hcallers : { caller with ip := caller.ip + 1 } :: rest ≠ [] := List.cons_ne_nil _ _
      refine ⟨rfl, .function rfl hframes' hstack (fun m₂ hduring => ?_) ?_⟩
      · refine .of_eq ?_ ?_
        · rintro _ r m₃ rfl hstep
          exact (hin.during hcallers hduring).step hcallers hstep
        · rintro _ e m₃ rfl hstep
          exact stack_of_failed_step hstep
      · intro m₂ m₃ hduring hstep hback reg hreg hne
        have hin₂ := hin.during hcallers hduring
        exact hin₂.answered (hin₂.step hcallers hstep) hback (by omega) (by omega)
    | returns _ hends' => exact absurd hends' hends
    | finishes _ hends' => exact absurd hends' hends
  · rintro _ e m₁ rfl hstep
    exact stack_of_failed_step hstep

/-- A machine about to call, in register 2, a function that overwrites its argument; the caller has nil
in register 1. -/
def overwritingCall : Machine :=
  let caller := Function.mk "caller" 0 4 #[] #[Word.abc .call 0 2 1, Word.abc .ret 0 0 0]
  let callee := Function.mk "callee" 1 2 #[] #[Word.abx .loadTrue 0 0, Word.abc .ret 0 0 0]
  { Machine.new ⟨#[], #[caller, callee], 0⟩ .empty .standard .unbounded none with
    stack := #[.nil, .nil, .function 1, .bool false]
    frames := [⟨0, 0, 0, 0⟩] }

theorem overwritingCall_isolated :
    Runs (· = overwritingCall) Machine.step
      (fun r m₁ => r = none ∧ Called overwritingCall ⟨0, 0, 0, 0⟩ [] (Word.abc .call 0 2 1) m₁)
      (fun _ m₁ => m₁.stack = overwritingCall.stack) ∧
    ∃ m₁ m₂ m₃, Machine.step overwritingCall = .ok none m₁ ∧ During 1 m₁ m₂ ∧
      m₂.stack = #[.nil, .nil, .function 1, .bool true, .nil] ∧ Machine.step m₂ = .ok none m₃ ∧
      m₃.stack = #[.bool true, .nil, .function 1, .bool true, .nil] ∧
      m₃.frames = [⟨0, 1, 0, 0⟩] := by
  refine ⟨calls_isolated rfl rfl rfl rfl, _, _, _, rfl, .step .start rfl (Nat.lt_succ_self 1), ?_, rfl,
    ?_, ?_⟩
  all_goals rfl

end ScriptMachine.Machine
