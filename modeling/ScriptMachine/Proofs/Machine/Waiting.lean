import ScriptMachine.Machine.State

/-!
# What activations need

All activations share one stack. The running one has what it needs in its registers. Each of the others
waits for the one above it, whose frame takes some of its cells: what it still needs lies before that
frame, or it is the result that it waits for.
-/

namespace ScriptMachine.Machine

/-- Activations that wait for one whose frame starts at `base` and whose value goes to `dest`. Here
`needs` says which registers an activation needs, and `holds` which cells hold what one with so many
frames below its own has put there. -/
inductive Waiting (needs : Frame → Nat → Prop) (holds : (cell depth : Nat) → Prop) :
    (base dest : Nat) → List Frame → Prop
  | bottom {base dest : Nat} : Waiting needs holds base dest []
  | frame {base dest : Nat} {frame : Frame} {rest : List Frame} (hbase : frame.base ≤ base)
    (hdest : frame.base ≤ dest)
    (hneeds : ∀ reg, needs frame reg → frame.base + reg = dest ∨
      frame.base + reg < base ∧ holds (frame.base + reg) rest.length)
    (h : Waiting needs holds frame.base frame.dest rest) : Waiting needs holds base dest (frame :: rest)

/-- The running activation has what it needs, and the others wait for it. -/
structure Provided (needs : Frame → Nat → Prop) (holds : (cell depth : Nat) → Prop) (frame : Frame)
    (rest : List Frame) : Prop where
  own : ∀ reg, needs frame reg → holds (frame.base + reg) rest.length
  waiting : Waiting needs holds frame.base frame.dest rest

variable {needs : Frame → Nat → Prop} {holds holds' : (cell depth : Nat) → Prop} {base dest next : Nat}
  {frame callee below : Frame} {rest others : List Frame}

/-- Activations go on waiting as long as cells before `base` hold what they held. -/
theorem Waiting.congr (h : Waiting needs holds base dest rest)
    (hkeep : ∀ i e, i < base → e < rest.length → holds i e → holds' i e) :
    Waiting needs holds' base dest rest := by
  induction h with
  | bottom => exact .bottom
  | frame hbase hdest hneeds _ ih =>
    refine .frame hbase hdest (fun reg hreg => (hneeds reg hreg).imp_right fun hown => ?_) (ih ?_)
    · exact ⟨hown.1, hkeep _ _ hown.1 (Nat.lt_succ_self _) hown.2⟩
    · exact fun i e hi he => hkeep i e (Nat.lt_of_lt_of_le hi hbase) (Nat.lt_succ_of_lt he)

namespace Provided

/-- The running activation goes on. -/
theorem advance (h : Provided needs holds frame rest)
    (hown : ∀ reg, needs { frame with ip := next } reg → holds' (frame.base + reg) rest.length)
    (hkeep : ∀ i e, i < frame.base → e < rest.length → holds i e → holds' i e) :
    Provided needs holds' { frame with ip := next } rest :=
  ⟨hown, h.waiting.congr hkeep⟩

/-- It calls another one and waits for it. -/
theorem call (h : Provided needs holds frame rest) (hbase : frame.base ≤ callee.base)
    (hdest : frame.base ≤ callee.dest)
    (hown : ∀ reg, needs callee reg → holds' (callee.base + reg) (rest.length + 1))
    (hneeds : ∀ reg, needs { frame with ip := next } reg → frame.base + reg = callee.dest ∨
      frame.base + reg < callee.base ∧ holds' (frame.base + reg) rest.length)
    (hkeep : ∀ i e, i < frame.base → e < rest.length → holds i e → holds' i e) :
    Provided needs holds' callee ({ frame with ip := next } :: rest) :=
  ⟨hown, .frame hbase hdest hneeds (h.waiting.congr hkeep)⟩

/-- It returns, and the one below gets what it waited for. -/
theorem answer (h : Provided needs holds frame (below :: others))
    (hresult : holds' frame.dest others.length)
    (hkeep : ∀ i e, i ≠ frame.dest → e < (below :: others).length → holds i e → holds' i e) :
    Provided needs holds' below others := by
  cases h.waiting with
  | frame hbase hdest hneeds hwaiting =>
    refine ⟨fun reg hreg => ?_, hwaiting.congr fun i e hi he hown => ?_⟩
    · by_cases heq : below.base + reg = frame.dest
      · exact heq ▸ hresult
      · exact hkeep _ _ heq (Nat.lt_succ_self _) ((hneeds reg hreg).resolve_left heq).2
    · exact hkeep i e (by omega) (Nat.lt_succ_of_lt he) hown

end Provided

end ScriptMachine.Machine
