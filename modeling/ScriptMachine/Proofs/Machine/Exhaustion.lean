import ScriptMachine.Machine.Standard
import ScriptMachine.Proofs.Machine.Composition
import ScriptMachine.Proofs.Machine.Conduct

/-!
# Who reports that the fuel ran out

A machine counts its instructions in one place, and only there it finds that its fuel has run out. No
instruction fails for that reason, unless a primitive that it calls says so, which knows nothing of
fuel.
-/

namespace ScriptMachine

open Bytecode

/-- A fault that reports that fuel ran out. -/
def Fault.Exhaustion : Fault → Prop
  | .fuelExhausted _ => True
  | _ => False

/-- An action of a primitive that does not report it. -/
def Host.Tireless {α : Type} (act : EStateM Fault Host α) : Prop :=
  Runs (fun _ => True) act (fun _ _ => True) fun e _ => ¬ e.Exhaustion

/-- A primitive that does not report it. -/
def Primitive.Tireless (p : Primitive) : Prop :=
  ∀ args, Host.Tireless (p.run args)

/-- No primitive of a registry reports it. -/
def Registry.Tireless (r : Registry) : Prop :=
  ∀ p ∈ r.entries, p.Tireless

namespace Standard

theorem tireless_pure {α : Type} (x : α) : Host.Tireless (pure x) :=
  .pure x fun _ h => h

theorem tireless_throw {α : Type} {e : Fault} (he : ¬ e.Exhaustion) :
    Host.Tireless (throw e : EStateM Fault Host α) :=
  .throw e fun _ _ => he

theorem tireless_get : Host.Tireless (get : EStateM Fault Host Host) :=
  fun _ h => h

theorem tireless_writeText (text : String) : Host.Tireless (writeText text) := by
  rintro ⟨heap, sink, depth, count, name?⟩ -
  dsimp only [writeText]
  rcases sink.write text with ⟨_ | _, sink'⟩
  · exact id
  · trivial

theorem tireless_allocString (s : String) : Host.Tireless (allocString s) :=
  fun _ h => h

theorem tireless_oneArgument (name : String) (args : List Value) :
    Host.Tireless (oneArgument name args) := by
  unfold oneArgument
  split
  · exact tireless_pure _
  · exact tireless_throw id

theorem tireless_twoInts (name : String) (args : List Value) :
    Host.Tireless (twoInts name args) := by
  unfold twoInts
  split
  · split
    · exact tireless_pure _
    · exact tireless_throw id
    · exact tireless_throw id
  · exact tireless_throw id

/-- The standard primitives do not speak of fuel. -/
theorem tireless_primitives : ∀ p ∈ primitives, p.Tireless := by
  simp only [primitives, List.mem_cons, List.not_mem_nil, or_false, forall_eq_or_imp, forall_eq]
  refine ⟨fun args => ?_, fun args => ?_, fun args => ?_, fun args => ?_, fun args => ?_,
    fun args => ?_, fun args => ?_, fun args => ?_⟩
  · refine tireless_get.bind fun _ => ?_
    refine ((tireless_writeText _).bind fun _ => tireless_writeText _).bind fun _ => ?_
    exact tireless_pure _
  · refine (tireless_oneArgument _ args).bind fun v => ?_
    split_ifs
    · exact tireless_throw id
    · refine tireless_get.bind fun _ => ?_
      split
      · exact tireless_pure _
      · exact tireless_throw id
  · exact (tireless_oneArgument _ args).bind fun v => tireless_allocString _
  · refine (tireless_oneArgument _ args).bind fun v => ?_
    split_ifs
    · exact tireless_pure _
    · exact tireless_throw id
  · refine (tireless_oneArgument _ args).bind fun v => ?_
    split_ifs
    · exact tireless_pure _
    · exact tireless_get.bind fun _ => tireless_allocString _
  · refine (tireless_oneArgument _ args).bind fun v => ?_
    split
    · exact tireless_throw id
    · split
      · exact tireless_pure _
      · exact tireless_throw id
  · exact (tireless_twoInts _ args).bind fun _ => tireless_pure _
  · exact (tireless_twoInts _ args).bind fun _ => tireless_pure _

end Standard

theorem Registry.tireless_standard : Registry.standard.Tireless :=
  fun p hp => Standard.tireless_primitives p (Array.mem_toList_iff.2 hp)

namespace Machine

/-! ## Operators -/

section

variable {op : Opcode} {v w : Value} {e : Fault} {heap : Heap}

theorem intOperands_tireless (h : intOperands op v w = .error e) : ¬ e.Exhaustion := by
  unfold intOperands at h
  split at h <;> cases h
  exact id

theorem exactInt_tireless {n : Int} (h : exactInt n = .error e) : ¬ e.Exhaustion := by
  unfold exactInt at h
  split at h <;> cases h
  exact id

theorem intResult_tireless {x y : Int} (h : intResult op x y = .error e) : ¬ e.Exhaustion := by
  unfold intResult at h
  split at h
  · exact exactInt_tireless h
  · exact exactInt_tireless h
  · exact exactInt_tireless h
  · split_ifs at h
    · cases h
      exact id
    · exact exactInt_tireless h
  · split_ifs at h
    · cases h
      exact id
    · exact exactInt_tireless h
  · exact exactInt_tireless h
  · cases h
    exact id

theorem arithmetic_tireless
    (h : ((intOperands op v w).bind fun (x, y) => intResult op x y) = .error e) :
    ¬ e.Exhaustion := by
  cases hi : intOperands op v w with
  | error e' =>
    rw [hi] at h
    cases h
    exact intOperands_tireless hi
  | ok p =>
    rw [hi] at h
    exact intResult_tireless h

theorem unaryResult_tireless (h : unaryResult op v = .error e) : ¬ e.Exhaustion := by
  unfold unaryResult at h
  split at h
  · cases h
  · exact arithmetic_tireless h

theorem stringOperands_tireless (h : stringOperands heap v w = .error e) : ¬ e.Exhaustion := by
  unfold stringOperands at h
  split at h <;> cases h
  exact id

theorem error_of_map {α β : Type} {x : Except Fault α} {f : α → β} (h : x.map f = .error e) :
    x = .error e := by
  cases x with
  | ok a => cases h
  | error e' =>
    cases h
    rfl

theorem order_tireless (h : order heap op v w = .error e) : ¬ e.Exhaustion := by
  unfold order at h
  split_ifs at h
  · exact stringOperands_tireless (error_of_map h)
  · exact intOperands_tireless (error_of_map h)

end

/-! ## Actions -/

/-- An action of a machine with these primitives that does not report that fuel ran out. -/
def Tireless {α : Type} (r : Registry) (act : Action α) : Prop :=
  Runs (fun m => m.primitives = r) act (fun _ m => m.primitives = r) fun e _ => ¬ e.Exhaustion

variable {r : Registry}

theorem tireless_pure {α : Type} (x : α) : Tireless r (pure x) :=
  .pure x fun _ h => h

theorem tireless_throw {α : Type} {e : Fault} (he : ¬ e.Exhaustion) :
    Tireless r (throw e : Action α) :=
  .throw e fun _ _ => he

theorem tireless_get : Tireless r (get : Action Machine) :=
  fun _ h => h

theorem tireless_readReg (base reg : Nat) : Tireless r (readReg base reg) := by
  intro m hm
  unfold readReg
  cases m.stack[base + reg]? with
  | some v => exact hm
  | none => exact id

theorem tireless_writeReg (base reg : Nat) (v : Value) : Tireless r (writeReg base reg v) := by
  intro m hm
  unfold writeReg
  split_ifs
  · exact hm
  · exact id

theorem tireless_jumpTo (ip : Nat) : Tireless r (jumpTo ip) := by
  intro m hm
  unfold jumpTo
  cases m.frames <;> exact hm

theorem tireless_ensureRegs (base slots : Nat) : Tireless r (ensureRegs base slots) := by
  intro m hm
  dsimp only [ensureRegs]
  split_ifs
  · exact id
  · exact hm
  · exact hm

theorem tireless_pushFrame (frame : Frame) : Tireless r (pushFrame frame) :=
  fun _ hm => hm

theorem tireless_leaveFrame (v : Value) : Tireless r (leaveFrame v) := by
  intro m hm
  unfold leaveFrame
  match m.frames with
  | [] => exact hm
  | [_] => exact hm
  | frame :: g :: rest =>
    have hw := tireless_writeReg frame.dest 0 v { m with frames := g :: rest } hm
    dsimp only
    cases hr : writeReg frame.dest 0 v { m with frames := g :: rest } <;> rwa [hr] at hw

theorem tireless_liftFault {α : Type} {x : Except Fault α} (h : ∀ e, x = .error e → ¬ e.Exhaustion) :
    Tireless r (liftFault x) := by
  intro m hm
  cases x with
  | ok v => exact hm
  | error e => exact h e rfl

theorem tireless_addValues (v w : Value) : Tireless r (addValues v w) := by
  intro m hm
  unfold addValues
  split_ifs
  · cases hs : stringOperands m.heap v w with
    | ok p => exact hm
    | error e => exact stringOperands_tireless hs
  · exact tireless_liftFault (fun _ => arithmetic_tireless) m hm

theorem tireless_binaryResult (op : Opcode) (v w : Value) : Tireless r (binaryResult op v w) := by
  intro m hm
  have hcompare : ∀ op, Tireless r
      (liftFault ((order m.heap op v w).map fun o => Value.bool (holds op o))) :=
    fun op => tireless_liftFault fun _ he => order_tireless (error_of_map he)
  cases op with
  | add => exact tireless_addValues v w m hm
  | eq | notEq => exact hm
  | lt | le | gt | ge => exact hcompare _ m hm
  | _ => exact tireless_liftFault (fun _ => arithmetic_tireless) m hm

theorem tireless_globalValue (slot : Nat) : Tireless r (globalValue slot) := by
  intro m hm
  unfold globalValue
  cases m.pending[slot]? with
  | some v =>
    dsimp only
    split_ifs
    · exact id
    · exact hm
  | none =>
    cases m.globals.get slot with
    | error e => exact id
    | ok v =>
      dsimp only
      split_ifs
      · exact id
      · exact hm

theorem tireless_checkAssignable (slot : Nat) : Tireless r (checkAssignable slot) := by
  intro m hm
  have hvalue := tireless_globalValue slot m hm
  unfold checkAssignable
  split_ifs
  · exact hm
  · cases hv : globalValue slot m <;> rwa [hv] at hvalue

theorem ofGlobals_tireless : OfGlobals (Tireless r) where
  value := tireless_globalValue
  assignable := tireless_checkAssignable
  write _ _ _ hm := hm

/-! ## Calls -/

theorem tireless_primitive (index : Nat) : Tireless r (primitive index) := by
  intro m hm
  unfold primitive
  cases m.primitives.lookup index with
  | ok p => exact hm
  | error e => exact id

theorem tireless_checkArguments (start count : Nat) : Tireless r (checkArguments start count) := by
  intro m hm
  unfold checkArguments
  split_ifs
  · exact id
  · exact hm

theorem tireless_runNative {p : Primitive} (hp : p.Tireless) (args : List Value) :
    Tireless r (runNative p.run args) := by
  intro m hm
  have hrun := hp args ⟨m.heap, m.sink, m.frames.length, m.primitives.count, m.primitives.name?⟩ trivial
  dsimp only [runNative]
  cases he : p.run args
      ⟨m.heap, m.sink, m.frames.length, m.primitives.count, m.primitives.name?⟩ with
  | ok v host => exact hm
  | error e host => rwa [he] at hrun

theorem tireless_callPrimitive (hr : r.Tireless) (index start count dest : Nat) :
    Tireless r (callPrimitive index start count dest) := by
  have hindex : Runs (fun m => m.primitives = r) (primitive index)
      (fun p m => p.Tireless ∧ m.primitives = r) fun e _ => ¬ e.Exhaustion := by
    rintro m rfl
    unfold primitive Registry.lookup
    cases hp : m.primitives.entries[index]? with
    | none => exact id
    | some p => exact ⟨hr p (Array.mem_of_getElem? hp), rfl⟩
  refine hindex.bind fun p => .assume fun hp => ?_
  split_ifs
  · exact tireless_throw id
  · exact tireless_get.bind fun o => (tireless_runNative hp _).bind fun v => tireless_writeReg dest 0 v

theorem tireless_function (handle : UInt32) : Tireless r (function handle) := by
  intro m hm
  unfold function
  cases m.heap.function? handle with
  | some f => exact hm
  | none => exact id

theorem tireless_callFunction (handle : UInt32) (start count dest : Nat) :
    Tireless r (callFunction handle start count dest) := by
  refine (tireless_function handle).bind fun f => ?_
  split_ifs
  · exact tireless_throw id
  · refine tireless_get.bind fun o => ?_
    split_ifs
    · exact tireless_throw id
    · exact (tireless_ensureRegs _ _).bind fun _ => tireless_pushFrame _

theorem ofParts_tireless (hr : r.Tireless) : OfParts (Tireless r) where
  pure := tireless_pure
  bind := Runs.bind
  noConstant _ := tireless_throw id
  reads := tireless_readReg
  writes := tireless_writeReg
  jumps := tireless_jumpTo
  unary _ _ := tireless_liftFault fun _ => unaryResult_tireless
  binary := tireless_binaryResult
  finds := tireless_primitive
  checks := tireless_checkArguments
  callsPrimitive := tireless_callPrimitive hr
  callsFunction := tireless_callFunction
  notCallable _ := tireless_throw id
  leaves := tireless_leaveFrame

/-- No instruction reports that the fuel ran out. -/
theorem tireless_perform (hr : r.Tireless) (f : Function) (base : Nat) (op : Opcode) (w : Word) :
    Tireless r (perform f base op w) :=
  (ofParts_tireless hr).performs (fun _ => ofGlobals_tireless) f base w

theorem tireless_enter (handle : UInt32) : Tireless r (enter handle) := by
  intro m hm
  unfold enter
  cases m.heap.function? handle with
  | none => exact id
  | some f =>
    exact ((tireless_ensureRegs 0 f.slots).bind fun _ => tireless_pushFrame ⟨handle, 0, 0, 0⟩)
      { m with stack := #[], frames := [] } hm

end Machine
end ScriptMachine
