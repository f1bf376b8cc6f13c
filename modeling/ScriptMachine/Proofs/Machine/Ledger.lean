import ScriptMachine.Proofs.Machine.Composition

/-!
# What hardly any action looks at

Aside from its heap, its registers and its output a machine keeps a ledger: the globals with the writes
to them, and the limit on fuel with the count of what was spent. Most of what a step does neither looks
into the ledger nor changes it, so it is the same whatever stands there. Three instructions have to do
with globals, and none with fuel.
-/

namespace ScriptMachine.Machine

open Bytecode

/-- What a machine keeps aside. -/
structure Ledger where
  globals : GlobalTable
  pending : Writes
  fuel : Option Nat
  executed : Nat

/-- The machine with a changed ledger. -/
def amend (change : Ledger → Ledger) (m : Machine) : Machine :=
  let l := change ⟨m.globals, m.pending, m.fuel, m.executed⟩
  { m with globals := l.globals, pending := l.pending, fuel := l.fuel, executed := l.executed }

/-- The end of an action with a changed ledger. -/
def amended {α : Type} (change : Ledger → Ledger) :
    EStateM.Result Fault Machine α → EStateM.Result Fault Machine α
  | .ok x m => .ok x (m.amend change)
  | .error e m => .error e (m.amend change)

/-- An action that does the same after a change to the ledger. -/
def Ignores {α : Type} (change : Ledger → Ledger) (act : Action α) : Prop :=
  ∀ m, act (m.amend change) = amended change (act m)

variable {change : Ledger → Ledger}

namespace Ignores

variable {α β : Type} {act : Action α}

theorem pure (x : α) : Ignores change (pure x : Action α) :=
  fun _ => rfl

theorem throw (e : Fault) : Ignores change (throw e : Action α) :=
  fun _ => rfl

theorem bind {next : α → Action β} (h : Ignores change act) (hnext : ∀ x, Ignores change (next x)) :
    Ignores change (act >>= next) := by
  intro m
  show EStateM.bind act next _ = amended change (EStateM.bind act next m)
  unfold EStateM.bind
  rw [h]
  cases act m with
  | ok x o => exact hnext x o
  | error e o => rfl

/-- An action may look at the rest of the machine. -/
theorem get {next : Machine → Action β} (h : ∀ m, Ignores change (next m))
    (hsame : ∀ m, next (m.amend change) = next m) : Ignores change (MonadStateOf.get >>= next) := by
  intro m
  show next (m.amend change) (m.amend change) = _
  rw [hsame]
  exact h m m

end Ignores

/-! ## Registers and frames -/

theorem ignores_readReg (base reg : Nat) : Ignores change (readReg base reg) := by
  intro m
  unfold readReg amend
  cases m.stack[base + reg]? <;> rfl

theorem ignores_writeReg (base reg : Nat) (v : Value) : Ignores change (writeReg base reg v) := by
  intro m
  unfold writeReg amend
  by_cases h : base + reg < m.stack.size
  · simp only [h, dif_pos]
    rfl
  · simp only [h, dif_neg, not_false_eq_true]
    rfl

theorem ignores_jumpTo (ip : Nat) : Ignores change (jumpTo ip) := by
  rintro ⟨heap, globals, primitives, writes, stack, frames, sink, fuel, executed⟩
  cases frames <;> rfl

theorem ignores_ensureRegs (base slots : Nat) : Ignores change (ensureRegs base slots) := by
  intro m
  unfold ensureRegs amend
  simp only
  split_ifs <;> rfl

theorem ignores_pushFrame (frame : Frame) : Ignores change (pushFrame frame) :=
  fun _ => rfl

theorem ignores_leaveFrame (v : Value) : Ignores change (leaveFrame v) := by
  rintro ⟨heap, globals, primitives, writes, stack, frames, sink, fuel, executed⟩
  match frames with
  | [] => rfl
  | [_] => rfl
  | frame :: g :: rest =>
    have hwrite := @ignores_writeReg change frame.dest 0 v
      ⟨heap, globals, primitives, writes, stack, g :: rest, sink, fuel, executed⟩
    unfold amend at hwrite
    unfold leaveFrame amend
    simp only [hwrite]
    cases writeReg frame.dest 0 v
      ⟨heap, globals, primitives, writes, stack, g :: rest, sink, fuel, executed⟩ <;> rfl

/-! ## Operators -/

theorem ignores_liftFault {α : Type} (r : Except Fault α) : Ignores change (liftFault r) := by
  intro m
  cases r <;> rfl

theorem ignores_addValues (v w : Value) : Ignores change (addValues v w) := by
  intro m
  unfold addValues
  split_ifs
  · have hheap : (m.amend change).heap = m.heap := rfl
    rw [hheap]
    cases stringOperands m.heap v w <;> rfl
  · exact ignores_liftFault _ m

theorem ignores_binaryResult (op : Opcode) (v w : Value) : Ignores change (binaryResult op v w) := by
  intro m
  cases op with
  | add => exact ignores_addValues v w m
  | eq | notEq => rfl
  | lt | le | gt | ge => exact ignores_liftFault _ m
  | _ => exact ignores_liftFault _ m

/-! ## Calls -/

theorem ignores_primitive (index : Nat) : Ignores change (primitive index) := by
  intro m
  unfold primitive amend
  cases m.primitives.lookup index <;> rfl

theorem ignores_checkArguments (start count : Nat) :
    Ignores change (checkArguments start count) := by
  intro m
  unfold checkArguments amend
  split_ifs <;> rfl

theorem ignores_runNative (native : Native) (args : List Value) :
    Ignores change (runNative native args) := by
  intro m
  unfold runNative amend
  simp only
  cases native args ⟨m.heap, m.sink, m.frames.length, m.primitives.count, m.primitives.name?⟩ <;> rfl

theorem ignores_callPrimitive (index start count dest : Nat) :
    Ignores change (callPrimitive index start count dest) := by
  refine (ignores_primitive index).bind fun p => ?_
  split_ifs
  · exact .throw _
  · refine .get (fun m => ?_) fun _ => rfl
    exact (ignores_runNative _ _).bind fun v => ignores_writeReg dest 0 v

theorem ignores_function (handle : UInt32) : Ignores change (function handle) := by
  intro m
  unfold function amend
  cases m.heap.function? handle <;> rfl

theorem ignores_callFunction (handle : UInt32) (start count dest : Nat) :
    Ignores change (callFunction handle start count dest) := by
  refine (ignores_function handle).bind fun f => ?_
  split_ifs
  · exact .throw _
  · refine .get (fun m => ?_) fun _ => rfl
    split_ifs
    · exact .throw _
    · exact (ignores_ensureRegs _ _).bind fun _ => ignores_pushFrame _

/-! ## Globals -/

/-- A change to the fuel and to what was spent of it. -/
def metered (fuel : Option Nat → Option Nat) (executed : Nat → Nat) (l : Ledger) : Ledger :=
  { l with fuel := fuel l.fuel, executed := executed l.executed }

section

variable {fuel : Option Nat → Option Nat} {executed : Nat → Nat}

theorem ignores_globalValue (slot : Nat) : Ignores (metered fuel executed) (globalValue slot) := by
  intro m
  unfold globalValue amend metered
  cases m.pending[slot]? with
  | some v =>
    simp only
    split_ifs <;> rfl
  | none =>
    cases m.globals.get slot with
    | error e => rfl
    | ok v =>
      simp only
      split_ifs <;> rfl

theorem ignores_checkAssignable (slot : Nat) :
    Ignores (metered fuel executed) (checkAssignable slot) := by
  intro m
  have hpending : (m.amend (metered fuel executed)).pending = m.pending := rfl
  unfold checkAssignable
  rw [hpending, ignores_globalValue]
  split_ifs
  · rfl
  · cases globalValue slot m <;> rfl

theorem ofGlobals_ignores : OfGlobals (Ignores (metered fuel executed)) where
  value := ignores_globalValue
  assignable := ignores_checkAssignable
  write _ _ _ := rfl

end

/-! ## Instructions -/

theorem ofParts_ignores : OfParts (Ignores change) where
  pure := Ignores.pure
  bind := Ignores.bind
  noConstant _ := .throw _
  reads := ignores_readReg
  writes := ignores_writeReg
  jumps := ignores_jumpTo
  unary _ _ := ignores_liftFault _
  binary := ignores_binaryResult
  finds := ignores_primitive
  checks := ignores_checkArguments
  callsPrimitive := ignores_callPrimitive
  callsFunction := ignores_callFunction
  notCallable _ := .throw _
  leaves := ignores_leaveFrame

/-- All but three instructions ignore the ledger. -/
theorem ignores_perform {op : Opcode} (hop : ¬ UsesGlobals op) (f : Function) (base : Nat) (w : Word) :
    Ignores change (perform f base op w) :=
  ofParts_ignores.performs (fun h => absurd h hop) f base w

/-- No instruction looks at the fuel. -/
theorem unmetered_perform (f : Function) (base : Nat) (op : Opcode) (w : Word)
    (fuel : Option Nat → Option Nat) (executed : Nat → Nat) :
    Ignores (metered fuel executed) (perform f base op w) :=
  ofParts_ignores.performs (fun _ => ofGlobals_ignores) f base w

theorem ignores_enter (handle : UInt32) : Ignores change (enter handle) := by
  intro m
  unfold enter
  have hheap : (m.amend change).heap = m.heap := rfl
  rw [hheap]
  cases m.heap.function? handle with
  | none => rfl
  | some f =>
    exact ((ignores_ensureRegs 0 f.slots).bind fun _ => ignores_pushFrame ⟨handle, 0, 0, 0⟩)
      { m with stack := #[], frames := [] }

/-! ## What does not look at globals

All but three instructions do the same whatever the globals are, and leave them alone. So does all
that a step does beside its instruction.
-/

/-- The machine with other globals: another table and other writes beside it. -/
def withGlobals (m : Machine) (table : GlobalTable) (pending : Writes) : Machine :=
  { m with globals := table, pending }

/-- The end of an action with other globals. -/
def carry {α : Type} (table : GlobalTable) (pending : Writes) :
    EStateM.Result Fault Machine α → EStateM.Result Fault Machine α
  | .ok x m => .ok x (m.withGlobals table pending)
  | .error e m => .error e (m.withGlobals table pending)

/-- An action that does the same whatever the globals are, and leaves them alone. -/
def Blind {α : Type} (act : Action α) : Prop :=
  ∀ m table pending, act (m.withGlobals table pending) = carry table pending (act m)

/-- The ledger with other globals. -/
def rebound (table : GlobalTable) (pending : Writes) (l : Ledger) : Ledger :=
  { l with globals := table, pending }

namespace Blind

variable {α β : Type} {act : Action α}

/-- To be blind is to ignore such changes to the ledger. -/
theorem iff_ignores : Blind act ↔ ∀ table pending, Ignores (rebound table pending) act := by
  have hcarry : ∀ table pending (r : EStateM.Result Fault Machine α),
      amended (rebound table pending) r = carry table pending r := by
    intro table pending r
    cases r <;> rfl
  constructor
  · intro h table pending m
    rw [hcarry]
    exact h m table pending
  · intro h m table pending
    rw [← hcarry]
    exact h table pending m

theorem pure (x : α) : Blind (pure x : Action α) :=
  fun _ _ _ => rfl

theorem bind {next : α → Action β} (h : Blind act) (hnext : ∀ x, Blind (next x)) :
    Blind (act >>= next) :=
  iff_ignores.2 fun table pending =>
    (iff_ignores.1 h table pending).bind fun x => iff_ignores.1 (hnext x) table pending

/-- A blind action leaves globals and writes as they were. -/
theorem globals_eq {m o : Machine} {x : α} (h : Blind act) (hrun : act m = .ok x o) :
    o.globals = m.globals ∧ o.pending = m.pending := by
  have hself := h m m.globals m.pending
  have hm : m.withGlobals m.globals m.pending = m := rfl
  rw [hm, hrun] at hself
  have ho := congrArg (fun r => match r with
    | .ok _ m => (m.globals, m.pending)
    | .error _ m => (m.globals, m.pending)) hself
  simp only [carry, withGlobals, Prod.mk.injEq] at ho
  exact ho

end Blind

/-! ## Actions -/

theorem blind_readReg (base reg : Nat) : Blind (readReg base reg) :=
  Blind.iff_ignores.2 fun _ _ => ignores_readReg base reg

theorem blind_writeReg (base reg : Nat) (v : Value) : Blind (writeReg base reg v) :=
  Blind.iff_ignores.2 fun _ _ => ignores_writeReg base reg v

theorem blind_leaveFrame (v : Value) : Blind (leaveFrame v) :=
  Blind.iff_ignores.2 fun _ _ => ignores_leaveFrame v

/-- All instructions that have nothing to do with globals are blind. -/
theorem blind_perform {op : Opcode} (hop : ¬ UsesGlobals op) (f : Function) (base : Nat) (w : Word) :
    Blind (perform f base op w) :=
  Blind.iff_ignores.2 fun _ _ => ignores_perform hop f base w

theorem blind_enter (handle : UInt32) : Blind (enter handle) :=
  Blind.iff_ignores.2 fun _ _ => ignores_enter handle

end ScriptMachine.Machine
