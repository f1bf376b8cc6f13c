import ScriptMachine.Proofs.Bytecode.Liveness
import ScriptMachine.Proofs.Machine.Stepping

/-!
# What a step does to the frames and the stack

A step that goes well moves the running frame on, writes one of its registers, adds the frame of a
callee, or ends the running frame and hands its value to the frame below. All else that actions do,
they do aside from frames and stack.
-/

namespace ScriptMachine.Machine

open Bytecode

/-! ## Actions aside -/

/-- The machine has this stack and these frames. -/
def At (stack : Array Value) (frames : List Frame) (m : Machine) : Prop :=
  m.stack = stack ∧ m.frames = frames

/-- The action leaves stack and frames alone, and one that fails leaves the stack. -/
def Aside {α : Type} (act : Action α) : Prop :=
  ∀ stack frames, Runs (At stack frames) act (fun _ => At stack frames) fun _ m => m.stack = stack

theorem aside_readReg (base reg : Nat) : Aside (readReg base reg) := by
  intro stack frames m h
  unfold readReg
  cases m.stack[base + reg]? with
  | some v => exact h
  | none => exact h.1

theorem aside_liftFault {α : Type} (r : Except Fault α) : Aside (liftFault r) := by
  intro stack frames m h
  cases r with
  | ok x => exact h
  | error e => exact h.1

theorem aside_addValues (v w : Value) : Aside (addValues v w) := by
  intro stack frames m h
  unfold addValues
  split_ifs
  · cases stringOperands m.heap v w with
    | ok strings => exact h
    | error e => exact h.1
  · exact aside_liftFault _ stack frames m h

theorem aside_binaryResult (op : Opcode) (v w : Value) : Aside (binaryResult op v w) := by
  intro stack frames m h
  unfold binaryResult
  cases op
  case add => exact aside_addValues v w stack frames m h
  case eq | notEq => exact h
  all_goals exact aside_liftFault _ stack frames m h

theorem aside_globalValue (slot : Nat) : Aside (globalValue slot) := by
  intro stack frames m h
  unfold globalValue
  cases m.pending[slot]? with
  | some v =>
    dsimp only
    split_ifs
    · exact h.1
    · exact h
  | none =>
    cases m.globals.get slot with
    | error e => exact h.1
    | ok v =>
      dsimp only
      split_ifs
      · exact h.1
      · exact h

theorem aside_checkAssignable (slot : Nat) : Aside (checkAssignable slot) := by
  intro stack frames m h
  have hvalue := aside_globalValue slot stack frames m h
  unfold checkAssignable
  split_ifs
  · exact h
  · cases hv : globalValue slot m with
    | ok v n => rwa [hv] at hvalue
    | error e n => rwa [hv] at hvalue

theorem aside_primitive (index : Nat) : Aside (primitive index) := by
  intro stack frames m h
  unfold primitive
  cases m.primitives.lookup index with
  | ok p => exact h
  | error e => exact h.1

theorem aside_writeGlobal (slot : Nat) (v : Value) : Aside (writeGlobal slot v) :=
  fun _ _ _ h => h

/-- Primitives see neither frames nor stack. -/
theorem aside_runNative (native : Native) (args : List Value) : Aside (runNative native args) := by
  intro stack frames m h
  unfold runNative
  dsimp only
  cases native args ⟨m.heap, m.sink, m.frames.length, m.primitives.count, m.primitives.name?⟩ with
  | ok v host => exact h
  | error e host => exact h.1

/-! ## Effects -/

/-- The code ends at `ip`, or returns there. -/
def Ends (f : Function) (ip : Nat) : Prop :=
  f.code[ip]? = none ∨ ∃ w : Word, f.code[ip]? = some w ∧ w.opcode? = some .ret

/-- What a step does whose running frame is `frame` and executes `f`: its result, the frames and the
stack that it leaves. -/
inductive Effect (m : Machine) (f : Function) (frame : Frame) (rest : List Frame) :
    Option Value → List Frame → Array Value → Prop
  | moves {w : Word} {op : Opcode} {next : Nat} (hw : f.code[frame.ip]? = some w)
    (hop : w.opcode? = some op) (hwrites : ∀ reg, ¬ op.Writes w reg)
    (hleads : op.Leads w frame.ip next) :
    Effect m f frame rest none ({ frame with ip := next } :: rest) m.stack
  | writes {w : Word} {op : Opcode} {v : Value} (hw : f.code[frame.ip]? = some w)
    (hop : w.opcode? = some op) (hwrites : op.Writes w w.a)
    (hleads : op.Leads w frame.ip (frame.ip + 1)) (hcell : frame.base + w.a < m.stack.size) :
    Effect m f frame rest none ({ frame with ip := frame.ip + 1 } :: rest)
      (m.stack.set (frame.base + w.a) v hcell)
  | calls {w : Word} {handle : UInt32} {callee : Function} (hw : f.code[frame.ip]? = some w)
    (hop : w.opcode? = some .call) (hcallee : m.heap.function? handle = some callee)
    (harity : callee.arity = w.c) (hcount : frame.base + w.b + 1 + w.c ≤ m.stack.size) :
    Effect m f frame rest none
      (⟨handle, 0, frame.base + w.b + 1, frame.base + w.a⟩ :: { frame with ip := frame.ip + 1 } :: rest)
      (m.stack ++ Array.replicate (frame.base + w.b + 1 + callee.slots - m.stack.size) .nil)
  | returns {v : Value} {next : Frame} {others : List Frame} (hrest : rest = next :: others)
    (hends : Ends f frame.ip) (hdest : frame.dest < m.stack.size) :
    Effect m f frame rest none rest (m.stack.set frame.dest v hdest)
  | finishes {v : Value} (hrest : rest = []) (hends : Ends f frame.ip) :
    Effect m f frame rest (some v) [] m.stack

/-- From this stack and these frames, the action ends with a result, frames and a stack for which `Q`
holds, or fails and leaves the stack. -/
def Leaves (stack : Array Value) (frames : List Frame) (act : Action (Option Value))
    (Q : Option Value → List Frame → Array Value → Prop) : Prop :=
  Runs (At stack frames) act (fun r m => Q r m.frames m.stack) fun _ m => m.stack = stack

section

variable {stack : Array Value} {frames rest : List Frame} {frame : Frame} {act : Action (Option Value)}
  {Q : Option Value → List Frame → Array Value → Prop}

theorem Leaves.after {α : Type} {first : Action α} {next : α → Action (Option Value)}
    (hfirst : Aside first) (hnext : ∀ x, Leaves stack frames (next x) Q) :
    Leaves stack frames (first >>= next) Q :=
  (hfirst stack frames).bind hnext

theorem leaves_none (h : Q none frames stack) : Leaves stack frames (return none) Q := by
  rintro m ⟨rfl, rfl⟩
  exact h

theorem leaves_throw (e : Fault) {next : Unit → Action (Option Value)} :
    Leaves stack frames ((throw e : Action Unit) >>= next) Q :=
  Runs.bind (Q := fun _ _ => False) (Runs.throw e fun _ h => h.1) fun _ _ h => h.elim

/-- A cell is written where the stack has it. -/
theorem effects_of_writeReg (base reg : Nat) (v : Value) :
    Runs (At stack frames) (writeReg base reg v)
      (fun _ m => m.frames = frames ∧ ∃ hcell : base + reg < stack.size,
        m.stack = stack.set (base + reg) v hcell) fun _ m => m.stack = stack := by
  rintro m ⟨rfl, rfl⟩
  unfold writeReg
  by_cases hcell : base + reg < m.stack.size
  · rw [dif_pos hcell]
    exact ⟨rfl, hcell, rfl⟩
  · rw [dif_neg hcell]

theorem leaves_writeReg {base reg : Nat} {v : Value}
    (h : ∀ hcell : base + reg < stack.size, Q none frames (stack.set (base + reg) v hcell)) :
    Leaves stack frames (do writeReg base reg v; return none) Q := by
  refine (effects_of_writeReg base reg v).bind fun _ => Runs.pure _ ?_
  rintro m ⟨rfl, hcell, hstack⟩
  rw [hstack]
  exact h hcell

theorem leaves_jumpTo {ip : Nat} (h : Q none ({ frame with ip } :: rest) stack) :
    Leaves stack (frame :: rest) (do jumpTo ip; return none) Q := by
  have hjump : Runs (At stack (frame :: rest)) (jumpTo ip)
      (fun _ => At stack ({ frame with ip } :: rest)) fun _ m => m.stack = stack := by
    rintro m ⟨rfl, hframes⟩
    unfold jumpTo
    rw [hframes]
    exact ⟨rfl, rfl⟩
  exact hjump.bind fun _ => leaves_none h

theorem leaves_leaveFrame {v : Value} (hlast : rest = [] → Q (some v) [] stack)
    (hreturn : ∀ next others, rest = next :: others → ∀ hdest : frame.dest < stack.size,
      Q none rest (stack.set frame.dest v hdest)) :
    Leaves stack (frame :: rest) (leaveFrame v) Q := by
  rintro m ⟨rfl, hframes⟩
  unfold leaveFrame
  rw [hframes]
  cases rest with
  | nil => exact hlast rfl
  | cons next others =>
    have hwrite := effects_of_writeReg frame.dest 0 v { m with frames := next :: others } ⟨rfl, rfl⟩
    dsimp only
    cases hw : writeReg frame.dest 0 v { m with frames := next :: others } with
    | error e n => rwa [hw] at hwrite
    | ok u n =>
      rw [hw] at hwrite
      obtain ⟨hframes', hcell, hstack⟩ := hwrite
      dsimp only
      rw [hframes', hstack]
      exact hreturn next others rfl hcell

end

/-! ## Calls -/

/-- The stack grows to what is needed, if that is allowed. -/
theorem ensureRegs_eq (base slots : Nat) (m : Machine) :
    ensureRegs base slots m =
      if base + slots > stackLimit then .error .stackOverflow m
      else .ok () { m with
        stack := m.stack ++ Array.replicate (base + slots - m.stack.size) Value.nil } := by
  dsimp only [ensureRegs]
  by_cases hmissing : base + slots - m.stack.size = 0
  · rw [hmissing, if_pos rfl, Array.replicate_zero, Array.append_empty]
  · rw [if_neg hmissing]

/-- A function that is entered has the only frame. -/
theorem frames_of_enter {handle : UInt32} {m m' : Machine} {u : Unit}
    (h : enter handle m = .ok u m') : m'.frames = [⟨handle, 0, 0, 0⟩] := by
  unfold enter at h
  cases hf : m.heap.function? handle with
  | none => rw [hf] at h; cases h
  | some f =>
    rw [hf] at h
    obtain ⟨_, _, hensure, hpush⟩ := ok_of_bind h
    rw [ensureRegs_eq] at hensure
    split_ifs at hensure
    cases hensure
    cases hpush
    rfl

section

variable {n : Machine}

/-- The arguments of a call are cells of the stack. -/
theorem effects_of_checkArguments (start count : Nat) :
    Runs (· = n) (checkArguments start count)
      (fun _ m => start + count ≤ n.stack.size ∧ m = n) fun _ m => m.stack = n.stack := by
  rintro m rfl
  unfold checkArguments
  split_ifs with hcount
  · rfl
  · exact ⟨Nat.le_of_not_lt hcount, rfl⟩

/-- A primitive writes its result. -/
theorem effects_of_callPrimitive (index start count dest : Nat) :
    Runs (· = n) (callPrimitive index start count dest)
      (fun _ m => m.frames = n.frames ∧ ∃ v, ∃ hcell : dest < n.stack.size,
        m.stack = n.stack.set dest v hcell) fun _ m => m.stack = n.stack := by
  have hat : ∀ m : Machine, m = n → At n.stack n.frames m := by
    rintro m rfl
    exact ⟨rfl, rfl⟩
  refine Runs.weaken (P := At n.stack n.frames) ?_ hat fun _ _ h => h
  refine (aside_primitive index _ _).bind fun p => ?_
  split_ifs
  · exact Runs.bind (Q := fun _ _ => False) (Runs.throw _ fun _ h => h.1) fun _ _ h => h.elim
  · refine Runs.get.bind fun m => (Runs.weaken ?_ (fun _ h => h.1) fun _ _ h => h)
    refine (aside_runNative _ _ _ _).bind fun v => ?_
    refine (effects_of_writeReg dest 0 v).weaken (fun _ h => h) ?_
    rintro _ m ⟨hframes, hcell, hstack⟩
    exact ⟨hframes, v, hcell, hstack⟩

/-- A function gets a frame, and the registers that it needs. -/
theorem effects_of_callFunction (handle : UInt32) (start count dest : Nat) :
    Runs (· = n) (callFunction handle start count dest)
      (fun _ m => ∃ f, n.heap.function? handle = some f ∧ f.arity = count ∧
        m.frames = ⟨handle, 0, start, dest⟩ :: n.frames ∧
        m.stack = n.stack ++ Array.replicate (start + f.slots - n.stack.size) .nil)
      fun _ m => m.stack = n.stack := by
  have hfunction : Runs (· = n) (function handle)
      (fun f m => n.heap.function? handle = some f ∧ m = n) fun _ m => m.stack = n.stack := by
    rintro m rfl
    unfold function
    cases m.heap.function? handle with
    | some f => exact ⟨rfl, rfl⟩
    | none => rfl
  have hstop : ∀ e : Fault, ∀ {Q : Unit → Machine → Prop},
      Runs (· = n) (throw e : Action Unit) Q fun _ m => m.stack = n.stack :=
    fun e {_} => Runs.throw e fun m hm => congrArg Machine.stack hm
  refine hfunction.bind fun f => Runs.assume fun hf => ?_
  split_ifs with harity
  · exact Runs.bind (Q := fun _ _ => False) (hstop _) fun _ _ h => h.elim
  · refine Runs.get.bind fun k => Runs.weaken ?_ (fun m hm => hm.1) fun _ _ h => h
    split_ifs
    · exact Runs.bind (Q := fun _ _ => False) (hstop _) fun _ _ h => h.elim
    · have hgrown : Runs (· = n) (ensureRegs start f.slots)
          (fun _ m => m = { n with
            stack := n.stack ++ Array.replicate (start + f.slots - n.stack.size) .nil })
          fun _ m => m.stack = n.stack := by
        rintro m rfl
        rw [ensureRegs_eq]
        split_ifs <;> rfl
      refine hgrown.bind fun _ => ?_
      rintro m rfl
      exact ⟨f, hf, Classical.not_not.1 harity, rfl, rfl⟩

end

/-! ## Steps -/

section

variable {m m' : Machine} {f : Function} {frame : Frame} {rest : List Frame} {w : Word}
  {op : Opcode} {r : Option Value}

theorem effects_of_call (hw : f.code[frame.ip]? = some w) (hop : w.opcode? = some .call) :
    Runs (· = m.past frame rest) (call frame.base w.a w.b w.c)
      (fun _ m' => Effect m f frame rest none m'.frames m'.stack)
      fun _ m' => m'.stack = m.stack := by
  have hread : Runs (· = m.past frame rest) (readReg frame.base w.b)
      (fun _ m' => m' = m.past frame rest) fun _ m' => m'.stack = m.stack := by
    rintro _ rfl
    unfold readReg
    cases (m.past frame rest).stack[frame.base + w.b]? <;> rfl
  refine hread.bind fun callee => (effects_of_checkArguments _ _).bind fun _ => ?_
  refine Runs.assume fun hcount => ?_
  cases callee.kind
  case primitive =>
    refine (effects_of_callPrimitive _ _ _ _).weaken (fun _ h => h) ?_
    rintro _ m' ⟨hframes, v, hcell, hstack⟩
    rw [hframes, hstack]
    have hcell : frame.base + w.a < m.stack.size := hcell
    exact .writes hw hop rfl rfl hcell
  case function =>
    refine (effects_of_callFunction _ _ _ _).weaken (fun _ h => h) ?_
    rintro _ m' ⟨g, hg, harity, hframes, hstack⟩
    rw [hframes, hstack]
    exact .calls hw hop hg harity hcount
  all_goals exact Runs.throw _ fun _ h => congrArg Machine.stack h

theorem effects_of_perform (hw : f.code[frame.ip]? = some w) (hop : w.opcode? = some op) :
    Runs (· = m.past frame rest) (perform f frame.base op w)
      (fun r m' => Effect m f frame rest r m'.frames m'.stack) fun _ m' => m'.stack = m.stack := by
  have hstore : ∀ v, op.Writes w w.a → op.Leads w frame.ip (frame.ip + 1) →
      Leaves m.stack ({ frame with ip := frame.ip + 1 } :: rest)
        (do writeReg frame.base w.a v; return none) (Effect m f frame rest) :=
    fun v hwrites hleads => leaves_writeReg fun hcell => .writes hw hop hwrites hleads hcell
  have hmove : (∀ reg, ¬ op.Writes w reg) → op.Leads w frame.ip (frame.ip + 1) →
      Leaves m.stack ({ frame with ip := frame.ip + 1 } :: rest) (return none)
        (Effect m f frame rest) :=
    fun hwrites hleads => leaves_none (.moves hw hop hwrites hleads)
  have hjump : ∀ {next}, (∀ reg, ¬ op.Writes w reg) → op.Leads w frame.ip next →
      Leaves m.stack ({ frame with ip := frame.ip + 1 } :: rest) (do jumpTo next; return none)
        (Effect m f frame rest) :=
    fun hwrites hleads => leaves_jumpTo (.moves hw hop hwrites hleads)
  have hleaves : op ≠ .call → Leaves m.stack ({ frame with ip := frame.ip + 1 } :: rest)
      (perform f frame.base op w) (Effect m f frame rest) := by
    intro hcall
    cases op with
    | loadConst =>
      simp only [perform]
      cases f.constants[w.bx]? with
      | some v => exact hstore v rfl rfl
      | none => exact leaves_throw _
    | loadTrue | loadFalse | loadNil => exact hstore _ rfl rfl
    | move => exact .after (aside_readReg _ _) fun v => hstore v rfl rfl
    | neg | logNot =>
      exact .after (aside_readReg _ _) fun v => .after (aside_liftFault _) fun x => hstore x rfl rfl
    | add | sub | mul | div | mod | eq | notEq | lt | le | gt | ge =>
      exact .after (aside_readReg _ _) fun v => .after (aside_readReg _ _) fun x =>
        .after (aside_binaryResult _ _ _) fun y => hstore y rfl rfl
    | jump => exact hjump (fun _ h => h) rfl
    | jumpIfFalse | jumpIfTrue =>
      refine .after (aside_readReg _ _) fun v => ?_
      split_ifs
      · exact hjump (fun _ h => h) (.inr rfl)
      · exact hmove (fun _ h => h) (.inl rfl)
    | getGlobal => exact .after (aside_globalValue _) fun v => hstore v rfl rfl
    | setGlobal =>
      exact .after (aside_checkAssignable _) fun _ => .after (aside_readReg _ _) fun v =>
        .after (aside_writeGlobal _ v) fun _ => hmove (fun _ h => h) rfl
    | defGlobal =>
      exact .after (aside_readReg _ _) fun v => .after (aside_writeGlobal _ v) fun _ =>
        hmove (fun _ h => h) rfl
    | getPrim => exact .after (aside_primitive _) fun _ => hstore _ rfl rfl
    | call => exact absurd rfl hcall
    | ret =>
      refine .after (aside_readReg _ _) fun v => leaves_leaveFrame (fun hrest => ?_) ?_
      · exact .finishes hrest (.inr ⟨w, hw, hop⟩)
      · exact fun next others hrest hdest => .returns hrest (.inr ⟨w, hw, hop⟩) hdest
  by_cases hcall : op = .call
  · subst hcall
    exact (effects_of_call hw hop).bind fun _ => Runs.pure _ fun _ h => h
  · rintro _ rfl
    exact hleaves hcall (m.past frame rest) ⟨rfl, rfl⟩

/-- What a step does; one that fails leaves the stack. -/
theorem effects_of_step (hframes : m.frames = frame :: rest) :
    Runs (· = m) step
      (fun r m' => ∃ f, m.heap.function? frame.function = some f ∧
        Effect m f frame rest r m'.frames m'.stack)
      fun _ m' => m'.stack = m.stack := by
  rintro m rfl
  cases m.step_cases with
  | noFrame hnone => rw [hframes] at hnone; cases hnone
  | noFunction _ _ hstep => rw [hstep]
  | @atEnd _ _ f hframes' hf hw hstep =>
    obtain ⟨rfl, rfl⟩ := List.cons.inj (hframes.symm.trans hframes')
    rw [hstep]
    have hleave : Leaves m.stack (frame :: rest) (leaveFrame .nil) (Effect m f frame rest) :=
      leaves_leaveFrame (fun hrest => .finishes hrest (.inl hw))
        fun next others hrest hdest => .returns hrest (.inl hw) hdest
    exact (hleave.weaken (fun _ h => h) fun _ _ h => ⟨f, hf, h⟩) m ⟨rfl, hframes⟩
  | outOfFuel _ _ _ hstep => rw [hstep]; rfl
  | invalidOpcode _ _ _ _ hstep => rw [hstep]; rfl
  | @performs _ _ f w op hframes' hf hw _ hop hstep =>
    obtain ⟨rfl, rfl⟩ := List.cons.inj (hframes.symm.trans hframes')
    rw [hstep]
    exact ((effects_of_perform hw hop).weaken (fun _ h => h) fun _ _ h => ⟨f, hf, h⟩) _ rfl

/-- What a step that goes well does. -/
theorem effect_of_step (hframes : m.frames = frame :: rest) (h : step m = .ok r m') :
    ∃ f, m.heap.function? frame.function = some f ∧
      Effect m f frame rest r m'.frames m'.stack :=
  (effects_of_step hframes).ok rfl h

/-- A step that fails leaves the stack. -/
theorem stack_of_failed_step {e : Fault} (h : step m = .error e m') : m'.stack = m.stack := by
  cases hframes : m.frames with
  | nil => rw [step_of_no_frame hframes] at h; cases h
  | cons frame rest => exact (effects_of_step hframes).error rfl h

end

end ScriptMachine.Machine
