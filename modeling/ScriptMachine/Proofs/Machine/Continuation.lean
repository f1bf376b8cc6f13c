import ScriptMachine.Machine.Standard
import ScriptMachine.Proofs.Machine.Composition
import ScriptMachine.Proofs.Machine.Conduct
import ScriptMachine.Proofs.Machine.Stepping
import ScriptMachine.Proofs.Value.Growth

/-!
# What a run never takes back

A run adds strings to the heap and text to the output, and counts instructions. The table of globals,
the primitives, the functions and the limit on fuel stay as they are.
-/

namespace ScriptMachine

open Bytecode

/-- The second sink has at least the text of the first, and the same room. -/
structure Sink.Continues (s t : Sink) : Prop where
  room : t.room = s.room
  text : ∃ more, t.text = s.text ++ more

theorem Sink.Continues.refl (s : Sink) : s.Continues s :=
  ⟨rfl, "", by simp⟩

theorem Sink.Continues.trans {s t u : Sink} (h₁ : s.Continues t) (h₂ : t.Continues u) :
    s.Continues u := by
  obtain ⟨a, ha⟩ := h₁.text
  obtain ⟨b, hb⟩ := h₂.text
  exact ⟨h₂.room.trans h₁.room, a ++ b, by rw [hb, ha, String.append_assoc]⟩

theorem Sink.continues_write (s : Sink) (text : String) : s.Continues (s.write text).2 := by
  unfold Sink.write
  split_ifs
  · exact ⟨rfl, text, rfl⟩
  · exact .refl s

/-- What a primitive only adds to. -/
structure Host.Continues (h k : Host) : Prop where
  heap : h.heap.AddsStrings k.heap
  sink : h.sink.Continues k.sink

/-- An action of a primitive that takes nothing back. -/
def Host.Keeps {α : Type} (h : Host) (act : EStateM Fault Host α) : Prop :=
  Runs h.Continues act (fun _ => h.Continues) (fun _ => h.Continues)

/-- A primitive that takes nothing back. -/
def Primitive.Additive (p : Primitive) : Prop :=
  ∀ (args : List Value) (h : Host), h.Keeps (p.run args)

/-- All primitives of a registry take nothing back. -/
def Registry.Additive (r : Registry) : Prop :=
  ∀ p ∈ r.entries, p.Additive

namespace Standard

variable {h : Host}

theorem keeps_writeText (text : String) : h.Keeps (writeText text) := by
  rintro ⟨heap, sink, depth, count, name?⟩ hc
  have hw := sink.continues_write text
  by_cases hfits : sink.fits text = true
  · simp only [writeText, Sink.write, if_pos hfits] at hw ⊢
    exact ⟨hc.heap, hc.sink.trans hw⟩
  · simp only [writeText, Sink.write, if_neg hfits]
    exact ⟨hc.heap, hc.sink⟩

theorem keeps_allocString (s : String) : h.Keeps (allocString s) := by
  rintro ⟨heap, sink, depth, count, name?⟩ hc
  exact ⟨hc.heap.trans (Heap.addsStrings_allocString heap s), hc.sink⟩

theorem keeps_pure {α : Type} (x : α) : h.Keeps (pure x) :=
  .pure _ fun _ hc => hc

theorem keeps_throw {α : Type} (e : Fault) : h.Keeps (throw e : EStateM Fault Host α) :=
  .throw _ fun _ hc => hc

theorem keeps_get : h.Keeps (get : EStateM Fault Host Host) :=
  fun _ hc => hc

theorem keeps_oneArgument (name : String) (args : List Value) : h.Keeps (oneArgument name args) := by
  unfold oneArgument
  split
  · exact keeps_pure _
  · exact keeps_throw _

theorem keeps_twoInts (name : String) (args : List Value) : h.Keeps (twoInts name args) := by
  unfold twoInts
  split
  · split
    · exact keeps_pure _
    · exact keeps_throw _
    · exact keeps_throw _
  · exact keeps_throw _

/-- The standard primitives take nothing back. -/
theorem additive_primitives : ∀ p ∈ primitives, p.Additive := by
  simp only [primitives, List.mem_cons, List.not_mem_nil, or_false, forall_eq_or_imp, forall_eq]
  refine ⟨fun args h => ?_, fun args h => ?_, fun args h => ?_, fun args h => ?_, fun args h => ?_,
    fun args h => ?_, fun args h => ?_, fun args h => ?_⟩
  · refine keeps_get.bind fun _ => ?_
    refine ((keeps_writeText _).bind fun _ => keeps_writeText _).bind fun _ => ?_
    exact keeps_pure _
  · refine (keeps_oneArgument _ args).bind fun v => ?_
    split_ifs
    · exact keeps_throw _
    · refine keeps_get.bind fun _ => ?_
      split
      · exact keeps_pure _
      · exact keeps_throw _
  · exact (keeps_oneArgument _ args).bind fun v => keeps_allocString _
  · refine (keeps_oneArgument _ args).bind fun v => ?_
    split_ifs
    · exact keeps_pure _
    · exact keeps_throw _
  · refine (keeps_oneArgument _ args).bind fun v => ?_
    split_ifs
    · exact keeps_pure _
    · exact keeps_get.bind fun _ => keeps_allocString _
  · refine (keeps_oneArgument _ args).bind fun v => ?_
    split
    · exact keeps_throw _
    · split
      · exact keeps_pure _
      · exact keeps_throw _
  · exact (keeps_twoInts _ args).bind fun _ => keeps_pure _
  · exact (keeps_twoInts _ args).bind fun _ => keeps_pure _

end Standard

theorem Registry.additive_standard : Registry.standard.Additive :=
  fun p hp => Standard.additive_primitives p (Array.mem_toList_iff.2 hp)

/-! ## Machines -/

namespace Machine

/-- What a run only adds to. -/
structure Continues (m n : Machine) : Prop where
  heap : m.heap.AddsStrings n.heap
  sink : m.sink.Continues n.sink
  globals : n.globals = m.globals
  primitives : n.primitives = m.primitives
  fuel : n.fuel = m.fuel
  executed : m.executed ≤ n.executed

theorem Continues.refl (m : Machine) : m.Continues m :=
  ⟨.refl _, .refl _, rfl, rfl, rfl, le_refl _⟩

theorem Continues.trans {m n o : Machine} (h₁ : m.Continues n) (h₂ : n.Continues o) :
    m.Continues o :=
  ⟨h₁.heap.trans h₂.heap, h₁.sink.trans h₂.sink, h₂.globals.trans h₁.globals,
    h₂.primitives.trans h₁.primitives, h₂.fuel.trans h₁.fuel, h₁.executed.trans h₂.executed⟩

/-- An action that, from a machine on, takes nothing back. -/
def Keeps {α : Type} (m : Machine) (act : Action α) : Prop :=
  Runs m.Continues act (fun _ => m.Continues) (fun _ => m.Continues)

variable {m : Machine}

theorem keeps_pure {α : Type} (x : α) : m.Keeps (pure x) :=
  .pure _ fun _ hc => hc

theorem keeps_throw {α : Type} (e : Fault) : m.Keeps (throw e : Action α) :=
  .throw _ fun _ hc => hc

theorem keeps_get : m.Keeps (get : Action Machine) :=
  fun _ hc => hc

/-- It is enough to look at the machine that an action leaves. -/
theorem keeps_of_eq {α : Type} {act : Action α}
    (h : ∀ n n', m.Continues n → ((∃ x, act n = .ok x n') ∨ ∃ e, act n = .error e n') →
      m.Continues n') : m.Keeps act :=
  .of_eq (fun n x n' hc hx => h n n' hc (.inl ⟨x, hx⟩)) fun n e n' hc he => h n n' hc (.inr ⟨e, he⟩)

theorem keeps_readReg (base reg : Nat) : m.Keeps (readReg base reg) := by
  refine keeps_of_eq fun n n' hc h => ?_
  unfold readReg at h
  rcases h with ⟨x, h⟩ | ⟨e, h⟩ <;> split at h <;> cases h <;> exact hc

theorem keeps_writeReg (base reg : Nat) (v : Value) : m.Keeps (writeReg base reg v) := by
  refine keeps_of_eq fun n n' hc h => ?_
  unfold writeReg at h
  rcases h with ⟨x, h⟩ | ⟨e, h⟩ <;> split at h <;> cases h
  · exact ⟨hc.heap, hc.sink, hc.globals, hc.primitives, hc.fuel, hc.executed⟩
  · exact hc

theorem keeps_jumpTo (ip : Nat) : m.Keeps (jumpTo ip) := by
  refine keeps_of_eq fun n n' hc h => ?_
  unfold jumpTo at h
  rcases h with ⟨x, h⟩ | ⟨e, h⟩ <;> split at h <;> cases h
  · exact hc
  · exact ⟨hc.heap, hc.sink, hc.globals, hc.primitives, hc.fuel, hc.executed⟩

theorem keeps_liftFault {α : Type} (r : Except Fault α) : m.Keeps (liftFault r) := by
  refine keeps_of_eq fun n n' hc h => ?_
  unfold liftFault at h
  rcases h with ⟨x, h⟩ | ⟨e, h⟩ <;> split at h <;> cases h <;> exact hc

theorem keeps_allocString (s : String) : m.Keeps (allocString s) :=
  fun n hc => ⟨hc.heap.trans (Heap.addsStrings_allocString n.heap s), hc.sink, hc.globals,
    hc.primitives, hc.fuel, hc.executed⟩

theorem keeps_addValues (v w : Value) : m.Keeps (addValues v w) := by
  intro n hc
  unfold addValues
  split_ifs
  · cases stringOperands n.heap v w with
    | error e => exact hc
    | ok r => exact keeps_allocString (r.1 ++ r.2) n hc
  · exact keeps_liftFault _ n hc

theorem keeps_binaryResult (op : Opcode) (v w : Value) : m.Keeps (binaryResult op v w) := by
  cases op with
  | add => exact keeps_addValues v w
  | eq | notEq => exact fun n hc => hc
  | _ => exact fun n hc => keeps_liftFault _ n hc

/-- Reading a global changes nothing. -/
theorem globalValue_state {slot : Nat} {n n' : Machine}
    (h : (∃ x, globalValue slot n = .ok x n') ∨ ∃ e, globalValue slot n = .error e n') :
    n' = n := by
  unfold globalValue at h
  cases hp : n.pending[slot]? with
  | some v =>
    simp only [hp] at h
    split_ifs at h <;> simp_all
  | none =>
    cases hg : n.globals.get slot with
    | error e => simp_all
    | ok v =>
      simp only [hp, hg] at h
      split_ifs at h <;> simp_all

theorem keeps_globalValue (slot : Nat) : m.Keeps (globalValue slot) :=
  keeps_of_eq fun _ _ hc h => globalValue_state h ▸ hc

theorem keeps_writeGlobal (slot : Nat) (v : Value) : m.Keeps (writeGlobal slot v) :=
  fun _ hc => ⟨hc.heap, hc.sink, hc.globals, hc.primitives, hc.fuel, hc.executed⟩

theorem keeps_checkAssignable (slot : Nat) : m.Keeps (checkAssignable slot) := by
  intro n hc
  have hg := keeps_globalValue slot n hc
  unfold checkAssignable
  split_ifs
  · exact hc
  · cases hv : globalValue slot n with
    | ok v o =>
      rw [hv] at hg
      exact hg
    | error e o =>
      rw [hv] at hg
      exact hg

theorem keeps_primitive (index : Nat) : m.Keeps (primitive index) := by
  refine keeps_of_eq fun n n' hc h => ?_
  unfold primitive at h
  rcases h with ⟨x, h⟩ | ⟨e, h⟩ <;> split at h <;> cases h <;> exact hc

theorem keeps_checkArguments (start count : Nat) : m.Keeps (checkArguments start count) := by
  intro n hc
  unfold checkArguments
  split_ifs <;> exact hc

theorem keeps_runNative {p : Primitive} (hp : p.Additive) (args : List Value) :
    m.Keeps (runNative p.run args) := by
  intro n hc
  have h := hp args ⟨n.heap, n.sink, n.frames.length, n.primitives.count, n.primitives.name?⟩ _
    ⟨.refl _, .refl _⟩
  simp only [runNative]
  cases hr : p.run args
      ⟨n.heap, n.sink, n.frames.length, n.primitives.count, n.primitives.name?⟩ with
  | ok v host =>
    rw [hr] at h
    exact ⟨hc.heap.trans h.heap, hc.sink.trans h.sink, hc.globals, hc.primitives, hc.fuel,
      hc.executed⟩
  | error e host =>
    rw [hr] at h
    exact ⟨hc.heap.trans h.heap, hc.sink.trans h.sink, hc.globals, hc.primitives, hc.fuel,
      hc.executed⟩

theorem keeps_callPrimitive (hm : m.primitives.Additive) (index start count dest : Nat) :
    m.Keeps (callPrimitive index start count dest) := by
  intro n hc
  have hindex : Runs (fun o => m.Continues o ∧ o = n) (primitive index)
      (fun p o => m.Continues o ∧ p.Additive) (fun _ => m.Continues) := by
    rintro o ⟨ho, rfl⟩
    unfold primitive Registry.lookup
    cases hp : o.primitives.entries[index]? with
    | none => exact ho
    | some p => exact ⟨ho, hm p (ho.primitives ▸ Array.mem_of_getElem? hp)⟩
  refine hindex.bind (fun p => ?_) n ⟨hc, rfl⟩
  have hrest : Runs (fun o => p.Additive ∧ m.Continues o) (do
      if !p.accepts count then throw (.primitiveArity p.name p.arity count)
      let o ← get
      let result ← runNative p.run (o.stack.extract start (start + count)).toList
      writeReg dest 0 result) (fun _ => m.Continues) (fun _ => m.Continues) := by
    refine .assume fun hp => ?_
    split_ifs
    · exact keeps_throw _
    · refine keeps_get.bind fun o => ?_
      exact (keeps_runNative hp _).bind fun v => keeps_writeReg dest 0 v
  exact hrest.weaken (fun _ h => h.symm) fun _ _ h => h

theorem keeps_function (handle : UInt32) : m.Keeps (function handle) := by
  refine keeps_of_eq fun n n' hc h => ?_
  unfold function at h
  rcases h with ⟨x, h⟩ | ⟨e, h⟩ <;> split at h <;> cases h <;> exact hc

theorem keeps_ensureRegs (base slots : Nat) : m.Keeps (ensureRegs base slots) := by
  intro n hc
  dsimp only [ensureRegs]
  split_ifs
  · exact hc
  · exact hc
  · exact ⟨hc.heap, hc.sink, hc.globals, hc.primitives, hc.fuel, hc.executed⟩

theorem keeps_pushFrame (frame : Frame) : m.Keeps (pushFrame frame) :=
  fun _ hc => ⟨hc.heap, hc.sink, hc.globals, hc.primitives, hc.fuel, hc.executed⟩

theorem keeps_callFunction (handle : UInt32) (start count dest : Nat) :
    m.Keeps (callFunction handle start count dest) := by
  refine (keeps_function handle).bind fun f => ?_
  split_ifs
  · exact keeps_throw _
  · refine keeps_get.bind fun o => ?_
    split_ifs
    · exact keeps_throw _
    · exact (keeps_ensureRegs _ _).bind fun _ => keeps_pushFrame _

theorem keeps_leaveFrame (v : Value) : m.Keeps (leaveFrame v) := by
  intro n hc
  unfold leaveFrame
  cases n.frames with
  | nil => exact hc
  | cons frame rest =>
    have hpop : m.Continues { n with frames := rest } :=
      ⟨hc.heap, hc.sink, hc.globals, hc.primitives, hc.fuel, hc.executed⟩
    cases rest with
    | nil => exact hpop
    | cons g rest =>
      have hw := keeps_writeReg frame.dest 0 v _ hpop
      cases hr : writeReg frame.dest 0 v { n with frames := g :: rest } with
      | ok u o =>
        rw [hr] at hw
        simpa only [hr] using hw
      | error e o =>
        rw [hr] at hw
        simpa only [hr] using hw

theorem ofGlobals_keeps : OfGlobals m.Keeps where
  value := keeps_globalValue
  assignable := keeps_checkAssignable
  write := keeps_writeGlobal

theorem ofParts_keeps (hm : m.primitives.Additive) : OfParts m.Keeps where
  pure := keeps_pure
  bind := Runs.bind
  noConstant _ := keeps_throw _
  reads := keeps_readReg
  writes := keeps_writeReg
  jumps := keeps_jumpTo
  unary _ _ := keeps_liftFault _
  binary := keeps_binaryResult
  finds := keeps_primitive
  checks := keeps_checkArguments
  callsPrimitive := keeps_callPrimitive hm
  callsFunction := keeps_callFunction
  notCallable _ := keeps_throw _
  leaves := keeps_leaveFrame

/-- An instruction takes nothing back. -/
theorem keeps_perform (hm : m.primitives.Additive) (f : Function) (base : Nat) (op : Opcode)
    (w : Word) : m.Keeps (perform f base op w) :=
  (ofParts_keeps hm).performs (fun _ => ofGlobals_keeps) f base w

/-- A step takes nothing back. -/
theorem keeps_step (hm : m.primitives.Additive) : m.Keeps step := by
  intro n hc
  have hpast : ∀ frame rest, m.Continues (n.past frame rest) := fun _ _ =>
    ⟨hc.heap, hc.sink, hc.globals, hc.primitives, hc.fuel, Nat.le_succ_of_le hc.executed⟩
  cases n.step_cases with
  | noFrame hframes hstep =>
    rw [hstep]
    exact hc
  | noFunction hframes hf hstep =>
    rw [hstep]
    exact hc
  | atEnd hframes hf hw hstep =>
    rw [hstep]
    exact keeps_leaveFrame _ n hc
  | outOfFuel hframes hf hw hstep =>
    rw [hstep]
    exact hpast _ _
  | invalidOpcode hframes hf hw hop hstep =>
    rw [hstep]
    exact hpast _ _
  | @performs frame rest f w op hframes hf hw hfuel hop hstep =>
    rw [hstep]
    exact keeps_perform hm f frame.base op w _ (hpast _ _)

/-- A run takes nothing back, however many steps it makes. -/
theorem keeps_run (hm : m.primitives.Additive) (n : Nat) : m.Keeps (run n) :=
  (keeps_step hm).run n

theorem keeps_enter (handle : UInt32) : m.Keeps (enter handle) := by
  intro n hc
  have hclear : m.Continues { n with stack := #[], frames := [] } :=
    ⟨hc.heap, hc.sink, hc.globals, hc.primitives, hc.fuel, hc.executed⟩
  unfold enter
  cases n.heap.function? handle with
  | none => exact hc
  | some f => exact ((keeps_ensureRegs 0 f.slots).bind fun _ => keeps_pushFrame _) _ hclear

theorem keeps_execute (hm : m.primitives.Additive) (handle : UInt32) (patience : Nat) :
    m.Keeps (execute handle patience) :=
  (keeps_enter handle).bind fun _ => keeps_get.bind fun _ => keeps_run hm _

end Machine
end ScriptMachine
