import ScriptMachine.Proofs.Bytecode.Words
import ScriptMachine.Proofs.Machine.Continuation
import ScriptMachine.Proofs.Machine.Operators

/-!
# Regions

A region is a limit that code keeps to: which values may be held, which functions may run, and which
slots of globals may be written to. When nothing that a machine holds leads out of a region, nothing
that it does leads out of it either.
-/

namespace ScriptMachine

open Bytecode

/-- A value that is neither empty nor a function. -/
def Value.Plain (v : Value) : Prop :=
  v.kind ≠ .empty ∧ v.kind ≠ .function

/-- The values that may be held, the functions that may run, and the slots that may be written to.
Values other than functions are free, and a function that is held may be called. -/
structure Region where
  value : Value → Prop
  function : UInt32 → Prop
  slot : Nat → Prop
  plain : ∀ v : Value, v.Plain → value v
  callable : ∀ v : Value, value v → v.kind = .function → function v.handle

/-- The region that leaves out nothing but the empty value. -/
def Region.everything : Region where
  value v := v.kind ≠ .empty
  function _ := True
  slot _ := True
  plain _ hv := hv.1
  callable _ _ _ := trivial

/-- A function that keeps to these values and slots: the former are its constants, and to the latter
its code writes. -/
structure Function.KeepsTo (value : Value → Prop) (slot : Nat → Prop) (f : Function) : Prop where
  constants : ∀ v ∈ f.constants, value v
  writes : ∀ (ip : Nat) (w : Word), f.code[ip]? = some w → w.WritesGlobal → slot w.bx

/-- A machine that holds nothing outside of a region. -/
structure Machine.Within (m : Machine) (R : Region) : Prop where
  functions : ∀ (h : UInt32) (f : Function), R.function h → m.heap.function? h = some f →
    f.KeepsTo R.value R.slot
  primitives : ∀ p ∈ m.primitives.entries, p ∈ Standard.primitives
  globals : ∀ v ∈ m.globals.slots, v.kind ≠ .empty → R.value v
  registers : ∀ v ∈ m.stack, R.value v
  pending : ∀ (slot : Nat) (v : Value), m.pending[slot]? = some v → R.value v ∧ R.slot slot
  frames : ∀ frame ∈ m.frames, R.function frame.function

namespace Value

theorem plain_int (n : Int) : (Value.int n).Plain := by simp [Plain]

theorem plain_bool (b : Bool) : (Value.bool b).Plain := by cases b <;> simp [Plain]

theorem plain_nil : Value.nil.Plain := by simp [Plain]

theorem plain_string (h : UInt32) : (Value.string h).Plain := by simp [Plain]

theorem plain_primitive (i : UInt32) : (Value.primitive i).Plain := by simp [Plain]

end Value

/-! ## Primitives -/

namespace Standard

/-- An action of a primitive that hands back one of its arguments or a value that is plain. -/
def Returns (args : List Value) (act : EStateM Fault Host Value) : Prop :=
  Runs (fun _ => True) act (fun v _ => v ∈ args ∨ v.Plain) (fun _ _ => True)

variable {args : List Value}

theorem returns_plain {v : Value} (hv : v.Plain) : Returns args (pure v) :=
  .pure _ fun _ _ => .inr hv

theorem returns_throw (e : Fault) : Returns args (throw e) :=
  .throw _ fun _ _ => trivial

theorem returns_allocString (s : String) : Returns args (allocString s) :=
  fun _ _ => .inr (Value.plain_string _)

/-- Whatever was done before, the value is what comes last. -/
theorem returns_bind {α : Type} {act : EStateM Fault Host α} {next : α → EStateM Fault Host Value}
    (h : ∀ x, Returns args (next x)) : Returns args (act >>= next) :=
  Runs.bind (Q := fun _ _ => True) (.of_eq (fun _ _ _ _ _ => trivial) fun _ _ _ _ _ => trivial) h

/-- The standard primitives hand back one of their arguments or a value that is plain. -/
theorem returns_primitives : ∀ p ∈ primitives, ∀ args, Returns args (p.run args) := by
  simp only [primitives, List.mem_cons, List.not_mem_nil, or_false, forall_eq_or_imp, forall_eq]
  refine ⟨fun args => ?_, fun args => ?_, fun args => ?_, fun args => ?_, fun args => ?_,
    fun args => ?_, fun args => ?_, fun args => ?_⟩
  · exact returns_bind fun _ => returns_bind fun _ => returns_plain Value.plain_nil
  · refine returns_bind fun v => ?_
    split_ifs
    · exact returns_throw _
    · refine returns_bind fun _ => ?_
      split
      · exact returns_plain (Value.plain_int _)
      · exact returns_throw _
  · exact returns_bind fun _ => returns_allocString _
  · refine returns_bind fun v => ?_
    split_ifs
    · exact returns_plain Value.plain_nil
    · exact returns_throw _
  · have hone : Runs (fun _ => True) (oneArgument "to_string" args) (fun v _ => v ∈ args)
        (fun _ _ => True) := by
      unfold oneArgument
      split
      · exact .pure _ fun _ _ => List.mem_singleton_self _
      · exact .throw _ fun _ _ => trivial
    refine hone.bind fun v => ?_
    split_ifs
    · exact .pure _ fun _ hv => .inl hv
    · exact (returns_bind fun _ => returns_allocString _).weaken (fun _ _ => trivial) fun _ _ h => h
  · refine returns_bind fun v => ?_
    split
    · exact returns_throw _
    · split
      · next hint =>
        unfold Value.int? at hint
        split_ifs at hint
        cases hint
        exact returns_plain (Value.plain_int _)
      · exact returns_throw _
  · exact returns_bind fun _ => returns_plain (Value.plain_int _)
  · exact returns_bind fun _ => returns_plain (Value.plain_int _)

end Standard

namespace Machine

/-! ## Parts of steps -/

variable {R : Region} {m : Machine}

/-- An action that leaves a machine of a region within it, with a result for which `Q` holds. -/
def Guards (R : Region) {α : Type} (act : Action α) (Q : α → Prop) : Prop :=
  Runs (fun m => m.Within R) act (fun x m => Q x ∧ m.Within R) fun _ m => m.Within R

/-- The results of actions that only matter for what they do. -/
def Any {α : Type} (_ : α) : Prop :=
  True

namespace Guards

variable {α β : Type} {act : Action α} {Q : α → Prop} {Q' : β → Prop}

theorem pure {x : α} (h : Q x) : Guards R (pure x) Q :=
  Runs.pure x fun _ hm => ⟨h, hm⟩

theorem throw (e : Fault) : Guards R (throw e : Action α) Q :=
  Runs.throw e fun _ hm => hm

theorem bind {next : α → Action β} (h : Guards R act Q)
    (hnext : ∀ x, Q x → Guards R (next x) Q') : Guards R (act >>= next) Q' :=
  Runs.bind h fun x => .assume (hnext x)

/-- An action may look at the machine, which is within the region. -/
theorem get {next : Machine → Action β} (h : ∀ m : Machine, m.Within R → Guards R (next m) Q') :
    Guards R (MonadStateOf.get >>= next) Q' :=
  fun m hm => h m hm m hm

end Guards

theorem Within.setStack (h : m.Within R) {i : Nat} {v : Value} (hi : i < m.stack.size)
    (hv : R.value v) : Within { m with stack := m.stack.set i v hi } R :=
  { h with
    registers := by
      intro w hw
      rcases Array.mem_or_eq_of_mem_set (w := hi) hw with hw | rfl
      · exact h.registers w hw
      · exact hv }

theorem Within.setFrames (h : m.Within R) {frames : List Frame}
    (hframes : ∀ frame ∈ frames, R.function frame.function) : Within { m with frames } R :=
  { h with frames := hframes }

theorem Within.addStrings (h : m.Within R) {heap : Heap} {sink : Sink}
    (hfunctions : heap.functions = m.heap.functions) :
    Within { m with heap := heap, sink := sink } R :=
  { h with
    functions := fun i f hi hf => by
      refine h.functions i f hi ?_
      rwa [Heap.function?, hfunctions] at hf }

theorem guards_readReg (base reg : Nat) : Guards R (readReg base reg) R.value := by
  intro m hm
  unfold readReg
  cases hv : m.stack[base + reg]? with
  | none => exact hm
  | some v => exact ⟨hm.registers v (Array.mem_of_getElem? hv), hm⟩

theorem guards_writeReg (base reg : Nat) {v : Value} (hv : R.value v) :
    Guards R (writeReg base reg v) Any := by
  intro m hm
  by_cases hreg : base + reg < m.stack.size
  · simp only [writeReg, dif_pos hreg]
    exact ⟨trivial, hm.setStack hreg hv⟩
  · simp only [writeReg, dif_neg hreg]
    exact hm

theorem guards_jumpTo (ip : Nat) : Guards R (jumpTo ip) Any := by
  intro m hm
  unfold jumpTo
  cases hframes : m.frames with
  | nil => exact ⟨trivial, hm⟩
  | cons frame rest =>
    have hall := hm.frames
    rw [hframes] at hall
    exact ⟨trivial, hm.setFrames (List.forall_mem_cons.2 (List.forall_mem_cons.1 hall))⟩

theorem guards_liftFault {α : Type} {Q : α → Prop} {r : Except Fault α}
    (hr : ∀ x, r = .ok x → Q x) : Guards R (liftFault r) Q := by
  intro m hm
  unfold liftFault
  cases r with
  | ok x => exact ⟨hr x rfl, hm⟩
  | error e => exact hm

theorem guards_allocString (s : String) : Guards R (allocString s) R.value :=
  fun _ hm => ⟨R.plain _ (Value.plain_string _), hm.addStrings rfl⟩

theorem value_of_arithmetic {op : Opcode} {v w r : Value}
    (h : ((intOperands op v w).bind fun (x, y) => intResult op x y) = .ok r) : R.value r := by
  obtain ⟨i, rfl⟩ := arithmetic_ok h
  exact R.plain _ (Value.plain_int i)

theorem guards_addValues (v w : Value) : Guards R (addValues v w) R.value := by
  intro m hm
  unfold addValues
  split_ifs
  · cases stringOperands m.heap v w with
    | error e => exact hm
    | ok r => exact guards_allocString (r.1 ++ r.2) m hm
  · exact guards_liftFault (fun _ => value_of_arithmetic) m hm

theorem guards_binaryResult (op : Opcode) (v w : Value) : Guards R (binaryResult op v w) R.value := by
  have horder : ∀ heap : Heap, Guards R
      (liftFault ((order heap op v w).map fun o => Value.bool (holds op o))) R.value := by
    refine fun heap => guards_liftFault fun x hx => ?_
    cases ho : order heap op v w with
    | error e =>
      rw [ho] at hx
      cases hx
    | ok o =>
      rw [ho] at hx
      cases hx
      exact R.plain _ (Value.plain_bool _)
  cases op with
  | add => exact guards_addValues v w
  | eq | notEq => exact fun m hm => ⟨R.plain _ (Value.plain_bool _), hm⟩
  | lt | le | gt | ge => exact fun m hm => horder m.heap m hm
  | _ => exact fun m hm => guards_liftFault (fun _ => value_of_arithmetic) m hm

theorem guards_globalValue (slot : Nat) : Guards R (globalValue slot) R.value := by
  intro m hm
  unfold globalValue
  cases hp : m.pending[slot]? with
  | some v =>
    simp only
    split_ifs
    · exact hm
    · exact ⟨(hm.pending slot v hp).1, hm⟩
  | none =>
    cases hg : m.globals.slots[slot]? with
    | none =>
      simp only [GlobalTable.get, hg]
      exact hm
    | some v =>
      simp only [GlobalTable.get, hg]
      split_ifs with hk
      · exact hm
      · exact ⟨hm.globals v (Array.mem_of_getElem? hg) hk, hm⟩

theorem guards_writeGlobal {slot : Nat} {v : Value} (hv : R.value v) (hslot : R.slot slot) :
    Guards R (writeGlobal slot v) Any := by
  refine fun m hm => ⟨trivial, { hm with pending := fun i u hu => ?_ }⟩
  rw [Std.TreeMap.getElem?_insert] at hu
  split_ifs at hu with hi
  · cases hu
    exact Std.LawfulEqCmp.eq_of_compare hi ▸ ⟨hv, hslot⟩
  · exact hm.pending i u hu

theorem guards_checkAssignable (slot : Nat) : Guards R (checkAssignable slot) Any := by
  intro m hm
  have hvalue := guards_globalValue slot m hm
  unfold checkAssignable
  split_ifs
  · exact ⟨trivial, hm⟩
  · cases hv : globalValue slot m with
    | ok v o =>
      rw [hv] at hvalue
      exact ⟨trivial, hvalue.2⟩
    | error e o =>
      rw [hv] at hvalue
      exact hvalue

theorem guards_primitive (index : Nat) :
    Guards R (primitive index) fun p => p ∈ Standard.primitives := by
  intro m hm
  unfold primitive Registry.lookup
  cases hp : m.primitives.entries[index]? with
  | none => exact hm
  | some p => exact ⟨hm.primitives p (Array.mem_of_getElem? hp), hm⟩

theorem guards_checkArguments (start count : Nat) : Guards R (checkArguments start count) Any := by
  intro m hm
  unfold checkArguments
  split_ifs
  · exact hm
  · exact ⟨trivial, hm⟩

theorem guards_runNative {p : Primitive} (hp : p ∈ Standard.primitives) {args : List Value}
    (hargs : ∀ v ∈ args, R.value v) : Guards R (runNative p.run args) R.value := by
  intro m hm
  let host : Host := ⟨m.heap, m.sink, m.frames.length, m.primitives.count, m.primitives.name?⟩
  have hreturns := Standard.returns_primitives p hp args host trivial
  have hadd := Standard.additive_primitives p hp args host host ⟨.refl _, .refl _⟩
  simp only [runNative]
  cases hr : p.run args host with
  | ok v h =>
    rw [hr] at hreturns hadd
    exact ⟨hreturns.elim (hargs v) (R.plain v), hm.addStrings hadd.heap.functions⟩
  | error e h =>
    rw [hr] at hadd
    exact hm.addStrings hadd.heap.functions

theorem guards_callPrimitive (index start count dest : Nat) :
    Guards R (callPrimitive index start count dest) Any := by
  refine (guards_primitive index).bind fun p hp => ?_
  split_ifs
  · exact .throw _
  · refine .get fun m hm => ?_
    refine (guards_runNative hp fun v hv => hm.registers v ?_).bind fun v hv => guards_writeReg dest 0 hv
    rw [Array.mem_toList_iff, Array.mem_extract_iff_getElem] at hv
    obtain ⟨i, hi, rfl⟩ := hv
    exact Array.getElem_mem _

theorem guards_function (handle : UInt32) : Guards R (function handle) Any := by
  intro m hm
  unfold function
  cases m.heap.function? handle with
  | none => exact hm
  | some f => exact ⟨trivial, hm⟩

theorem guards_ensureRegs (base slots : Nat) : Guards R (ensureRegs base slots) Any := by
  intro m hm
  dsimp only [ensureRegs]
  split_ifs
  · exact hm
  · exact ⟨trivial, hm⟩
  · refine ⟨trivial, { hm with registers := fun v hv => ?_ }⟩
    rcases Array.mem_append.1 hv with hv | hv
    · exact hm.registers v hv
    · rw [Array.eq_of_mem_replicate hv]
      exact R.plain _ Value.plain_nil

theorem guards_pushFrame {frame : Frame} (hframe : R.function frame.function) :
    Guards R (pushFrame frame) Any :=
  fun _ hm => ⟨trivial, hm.setFrames (List.forall_mem_cons.2 ⟨hframe, hm.frames⟩)⟩

theorem guards_callFunction {handle : UInt32} (hhandle : R.function handle) (start count dest : Nat) :
    Guards R (callFunction handle start count dest) Any := by
  refine (guards_function handle).bind fun f _ => ?_
  split_ifs
  · exact .throw _
  · refine .get fun m _ => ?_
    split_ifs
    · exact .throw _
    · exact (guards_ensureRegs _ _).bind fun _ _ => guards_pushFrame hhandle

theorem guards_call (base a b c : Nat) : Guards R (call base a b c) Any := by
  refine (guards_readReg base b).bind fun callee hcallee => ?_
  refine (guards_checkArguments _ _).bind fun _ _ => ?_
  split
  · exact guards_callPrimitive _ _ _ _
  · next hkind => exact guards_callFunction (R.callable callee hcallee hkind) _ _ _
  · exact .throw _

theorem guards_leaveFrame {v : Value} (hv : R.value v) : Guards R (leaveFrame v) Any := by
  intro m hm
  have hall := hm.frames
  unfold leaveFrame
  cases hframes : m.frames with
  | nil => exact ⟨trivial, hm⟩
  | cons frame rest =>
    rw [hframes] at hall
    have hpop := hm.setFrames (List.forall_mem_cons.1 hall).2
    cases rest with
    | nil => exact ⟨trivial, hpop⟩
    | cons g rest =>
      have hw := guards_writeReg frame.dest 0 hv _ hpop
      cases hr : writeReg frame.dest 0 v { m with frames := g :: rest } with
      | ok u o =>
        rw [hr] at hw
        simp only [hr]
        exact ⟨trivial, hw.2⟩
      | error e o =>
        rw [hr] at hw
        simpa only [hr] using hw

/-! ## Steps and runs -/

/-- Each instruction of a function that keeps to the region keeps to it. -/
theorem guards_perform {f : Function} {base ip : Nat} {op : Opcode} {w : Word}
    (hf : f.KeepsTo R.value R.slot) (hw : f.code[ip]? = some w) (hop : w.opcode? = some op) :
    Guards R (perform f base op w) Any := by
  have hwrite : ∀ v : Value, R.value v →
      Guards R (do writeReg base w.a v; return (none : Option Value)) Any :=
    fun v hv => (guards_writeReg base w.a hv).bind fun _ _ => .pure trivial
  cases op with
  | loadConst =>
    simp only [perform]
    cases hk : f.constants[w.bx]? with
    | some v => exact hwrite v (hf.constants v (Array.mem_of_getElem? hk))
    | none => exact (Guards.throw (Q := Any) _).bind fun _ _ => .pure trivial
  | loadTrue | loadFalse => exact hwrite _ (R.plain _ (Value.plain_bool _))
  | loadNil => exact hwrite _ (R.plain _ Value.plain_nil)
  | move => exact (guards_readReg base w.b).bind hwrite
  | neg | logNot =>
    refine (guards_readReg base w.b).bind fun v _ => ?_
    refine (guards_liftFault fun r hr => ?_).bind hwrite
    rcases unaryResult_ok hr with ⟨i, rfl⟩ | ⟨b, rfl⟩
    · exact R.plain _ (Value.plain_int i)
    · exact R.plain _ (Value.plain_bool b)
  | add | sub | mul | div | mod | eq | notEq | lt | le | gt | ge =>
    refine (guards_readReg base w.b).bind fun v _ => (guards_readReg base w.c).bind fun u _ => ?_
    exact (guards_binaryResult _ v u).bind hwrite
  | jump => exact (guards_jumpTo _).bind fun _ _ => .pure trivial
  | jumpIfFalse | jumpIfTrue =>
    refine (guards_readReg base w.a).bind fun v _ => ?_
    split_ifs
    · exact (guards_jumpTo _).bind fun _ _ => .pure trivial
    · exact .pure trivial
  | getGlobal => exact (guards_globalValue _).bind hwrite
  | setGlobal =>
    refine (guards_checkAssignable _).bind fun _ _ => (guards_readReg base w.a).bind fun v hv => ?_
    exact (guards_writeGlobal hv (hf.writes ip w hw (.inl hop))).bind fun _ _ => .pure trivial
  | defGlobal =>
    refine (guards_readReg base w.a).bind fun v hv => ?_
    exact (guards_writeGlobal hv (hf.writes ip w hw (.inr hop))).bind fun _ _ => .pure trivial
  | getPrim => exact (guards_primitive _).bind fun _ _ => hwrite _ (R.plain _ (Value.plain_primitive _))
  | call => exact (guards_call _ _ _ _).bind fun _ _ => .pure trivial
  | ret => exact (guards_readReg base w.a).bind fun v hv => guards_leaveFrame hv

theorem Within.past {R : Region} {m : Machine} {frame : Frame} {rest : List Frame}
    (h : m.Within R) (hframes : m.frames = frame :: rest) : (m.past frame rest).Within R := by
  have hall := h.frames
  rw [hframes] at hall
  exact { h with frames := List.forall_mem_cons.2 (List.forall_mem_cons.1 hall) }

/-- A step keeps to the region. -/
theorem guards_step : Guards R step Any := by
  intro m hm
  cases m.step_cases with
  | noFrame hframes hstep =>
    rw [hstep]
    exact ⟨trivial, hm⟩
  | noFunction hframes hf hstep =>
    rw [hstep]
    exact hm
  | atEnd hframes hf hw hstep =>
    rw [hstep]
    exact guards_leaveFrame (R.plain _ Value.plain_nil) m hm
  | outOfFuel hframes hf hw hstep =>
    rw [hstep]
    exact hm.past hframes
  | invalidOpcode hframes hf hw hop hstep =>
    rw [hstep]
    exact hm.past hframes
  | @performs frame rest f w op hframes hf hw hfuel hop hstep =>
    rw [hstep]
    have hkeeps := hm.functions _ f (hm.frames frame (hframes ▸ List.mem_cons_self)) hf
    exact guards_perform hkeeps hw hop _ (hm.past hframes)

/-- So does a run of any length. -/
theorem guards_run (n : Nat) : Guards R (run n) Any := by
  have hstep : Runs (fun m => m.Within R) step (fun _ m => m.Within R) fun _ m => m.Within R :=
    Runs.weaken guards_step (fun _ h => h) fun _ _ h => h.2
  exact (hstep.run n).weaken (fun _ h => h) fun _ _ h => ⟨trivial, h⟩

/-- A function of the region may be entered. -/
theorem guards_enter {handle : UInt32} (hhandle : R.function handle) : Guards R (enter handle) Any := by
  intro m hm
  unfold enter
  cases m.heap.function? handle with
  | none => exact hm
  | some f =>
    have hclear : Within { m with stack := #[], frames := [] } R :=
      { hm with registers := by simp, frames := by simp }
    exact ((guards_ensureRegs 0 f.slots).bind fun _ _ => guards_pushFrame hhandle) _ hclear

/-- So does all of its run. -/
theorem guards_execute {handle : UInt32} (hhandle : R.function handle) (patience : Nat) :
    Guards R (execute handle patience) Any :=
  (guards_enter hhandle).bind fun _ _ => .get fun _ _ => guards_run _

end Machine
end ScriptMachine
