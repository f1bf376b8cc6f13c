import ScriptMachine.Proofs.Machine.Oblivious
import ScriptMachine.Proofs.Machine.Operators

/-!
# Steps of alike machines

Two machines are alike when they run the same code on alike values in alike heaps. Each step of one
is matched by the same step of the other, and they stay alike, so that both runs come to the same
end, unless the second heap runs out of handles.
-/

namespace ScriptMachine

open Bytecode

/-- Activations of functions at matching places. -/
structure Frame.Alike (ρ : Shift) (functions : Nat) (f g : Frame) : Prop where
  function_lt : f.function.toNat < functions
  function : g.function.toNat = ρ.place f.function.toNat
  ip : f.ip = g.ip
  base : f.base = g.base
  dest : f.dest = g.dest

/-- Machines that run the same code on alike values; what they have written differs in what stood
there before. -/
structure Machine.Alike (ρ : Shift) (a b : String) (m n : Machine) : Prop where
  heap : m.heap.Alike ρ n.heap
  globals : AlikeArrays ρ m.heap n.heap m.globals.slots n.globals.slots
  primitives : m.primitives = n.primitives
  additive : m.primitives.Additive
  insensitive : m.primitives.Insensitive
  pending : ∀ slot : Nat,
    Option.Rel (Value.Alike ρ m.heap n.heap) m.pending[slot]? n.pending[slot]?
  stack : AlikeArrays ρ m.heap n.heap m.stack n.stack
  frames : List.Forall₂ (Frame.Alike ρ m.heap.functions.size) m.frames n.frames
  sink : m.sink.Alike a b n.sink
  fuel : m.fuel = n.fuel
  executed : m.executed = n.executed

namespace Machine

variable {ρ : Shift} {a b : String}

/-- Alike machines whose heaps hold these two values alike. -/
def WithValue (ρ : Shift) (a b : String) (v w : Value) (m n : Machine) : Prop :=
  m.Alike ρ a b n ∧ v.Alike ρ m.heap n.heap w

/-- The heap of a machine is full. -/
def Full (m : Machine) : Prop :=
  m.heap.Full

/-! ## Changes that keep machines alike -/

section
variable {m n : Machine} {v w : Value}

theorem Alike.setStack (h : m.Alike ρ a b n) {i : Nat} (hi : i < m.stack.size)
    (hj : i < n.stack.size) (hv : v.Alike ρ m.heap n.heap w) :
    Alike ρ a b { m with stack := m.stack.set i v hi } { n with stack := n.stack.set i w hj } := by
  refine { h with stack := fun k => ?_ }
  rw [Array.getElem?_set, Array.getElem?_set]
  split_ifs
  · exact .some hv
  · exact h.stack k

theorem Alike.growStack (h : m.Alike ρ a b n) (k : Nat) :
    Alike ρ a b { m with stack := m.stack ++ Array.replicate k Value.nil }
      { n with stack := n.stack ++ Array.replicate k Value.nil } := by
  refine { h with stack := fun i => ?_ }
  rw [Array.getElem?_append, Array.getElem?_append, h.stack.size_eq]
  split_ifs
  · exact h.stack i
  · cases hx : (Array.replicate k Value.nil)[i - n.stack.size]? with
    | none => exact .none
    | some x =>
      rw [Array.getElem?_replicate] at hx
      split_ifs at hx
      cases hx
      exact .some .nil

theorem Alike.addPending (h : m.Alike ρ a b n) (slot : Nat) (hv : v.Alike ρ m.heap n.heap w) :
    Alike ρ a b { m with pending := m.pending.insert slot v }
      { n with pending := n.pending.insert slot w } := by
  refine { h with pending := fun slot' => ?_ }
  rw [Std.TreeMap.getElem?_insert, Std.TreeMap.getElem?_insert]
  split
  · exact .some hv
  · exact h.pending slot'

theorem Alike.setFrames (h : m.Alike ρ a b n) {fs gs : List Frame}
    (hfs : List.Forall₂ (Frame.Alike ρ m.heap.functions.size) fs gs) :
    Alike ρ a b { m with frames := fs } { n with frames := gs } :=
  { h with frames := hfs }

theorem Alike.addStrings (h : m.Alike ρ a b n) {heap heap' : Heap} {sink sink' : Sink}
    (hheap : heap.Alike ρ heap') (hadd : m.heap.AddsStrings heap) (hadd' : n.heap.AddsStrings heap')
    (hsink : sink.Alike a b sink') :
    Alike ρ a b { m with heap := heap, sink := sink } { n with heap := heap', sink := sink' } where
  heap := hheap
  globals := h.globals.grows hadd.grows hadd'.grows
  primitives := h.primitives
  additive := h.additive
  insensitive := h.insensitive
  pending := fun slot => rel_mono (fun _ _ hv => hv.grows hadd.grows hadd'.grows) (h.pending slot)
  stack := h.stack.grows hadd.grows hadd'.grows
  frames := by
    simp only [hadd.functions]
    exact h.frames
  sink := hsink
  fuel := h.fuel
  executed := h.executed

theorem Alike.past (h : m.Alike ρ a b n) {f g : Frame} {fs gs : List Frame}
    (hm : m.frames = f :: fs) (hn : n.frames = g :: gs) :
    Alike ρ a b (m.past f fs) (n.past g gs) := by
  have hframes := h.frames
  rw [hm, hn] at hframes
  cases hframes with
  | cons hfg hrest =>
    refine { h with frames := .cons ?_ hrest, executed := congrArg (· + 1) h.executed }
    exact ⟨hfg.function_lt, hfg.function, congrArg (· + 1) hfg.ip, hfg.base, hfg.dest⟩

end

/-! ## Registers -/

theorem along_readReg {P : Machine → Machine → Prop} (hP : ∀ m n, P m n → m.Alike ρ a b n)
    (base reg : Nat) :
    Alongside never P (readReg base reg) (readReg base reg)
      (fun v w m n => P m n ∧ v.Alike ρ m.heap n.heap w) (Alike ρ a b) := by
  intro m n hmn
  have hcell := (hP m n hmn).stack (base + reg)
  unfold readReg
  generalize m.stack[base + reg]? = x at hcell
  generalize n.stack[base + reg]? = y at hcell
  cases hcell with
  | none => exact .error (hP m n hmn)
  | some hv => exact .ok ⟨hmn, hv⟩

theorem along_writeReg (base reg : Nat) (v w : Value) :
    Alongside never (WithValue ρ a b v w) (writeReg base reg v) (writeReg base reg w)
      (fun _ _ => Alike ρ a b) (Alike ρ a b) := by
  rintro m n ⟨hmn, hv⟩
  have hsize := hmn.stack.size_eq
  unfold writeReg
  by_cases hi : base + reg < m.stack.size
  · rw [dif_pos hi, dif_pos (by omega)]
    exact .ok (hmn.setStack hi (by omega) hv)
  · rw [dif_neg hi, dif_neg (by omega)]
    exact .error hmn

theorem along_jumpTo (ip : Nat) :
    Alongside never (Alike ρ a b) (jumpTo ip) (jumpTo ip) (fun _ _ => Alike ρ a b)
      (Alike ρ a b) := by
  intro m n hmn
  have hframes := hmn.frames
  unfold jumpTo
  generalize hfs : m.frames = fs at hframes
  generalize hgs : n.frames = gs at hframes
  cases hframes with
  | nil => exact .ok hmn
  | cons hfg hrest =>
    refine .ok (hmn.setFrames (.cons ?_ hrest))
    exact ⟨hfg.function_lt, hfg.function, rfl, hfg.base, hfg.dest⟩

/-! ## Operators -/

section
variable {m n : Machine} {op : Opcode} {v w v' w' : Value}

/-- A result without a handle is alike to itself. -/
theorem along_liftFault {r : Except Fault Value}
    (hr : ∀ v, r = .ok v → (∃ i, v = .int i) ∨ ∃ c, v = .bool c) (hmn : m.Alike ρ a b n) :
    Matched Full (WithValue ρ a b) (Alike ρ a b) (liftFault r m) (liftFault r n) := by
  cases r with
  | error e => exact .error hmn
  | ok v =>
    rcases hr v rfl with ⟨i, rfl⟩ | ⟨c, rfl⟩
    · exact .ok ⟨hmn, .int i⟩
    · exact .ok ⟨hmn, .bool c⟩

theorem intOperands_eq {h k : Heap} (hv : v.Alike ρ h k w) (hv' : v'.Alike ρ h k w') :
    intOperands op v v' = intOperands op w w' :=
  intOperands_renamed hv.renamed hv'.renamed

theorem along_allocString (s : String) (hmn : m.Alike ρ a b n) :
    Matched Full (WithValue ρ a b) (Alike ρ a b) (allocString s m) (allocString s n) := by
  by_cases hfull : (n.heap.allocString s).2.Full
  · exact .full hfull
  · obtain ⟨hheap, hv⟩ := hmn.heap.allocString s hfull
    exact .ok ⟨hmn.addStrings hheap (Heap.addsStrings_allocString _ s)
      (Heap.addsStrings_allocString _ s) hmn.sink, hv⟩

theorem along_addValues (hmn : m.Alike ρ a b n) (hv : v.Alike ρ m.heap n.heap w)
    (hv' : v'.Alike ρ m.heap n.heap w') :
    Matched Full (WithValue ρ a b) (Alike ρ a b) (addValues v v' m) (addValues w w' n) := by
  unfold addValues
  rw [intOperands_eq hv hv', ← bothStrings_renamed hv.renamed hv'.renamed]
  split_ifs with hs
  · obtain ⟨s, t, h₁, h₂⟩ := stringOperands_renamed hv.renamed hv'.renamed hs
    rw [h₁, h₂]
    exact along_allocString (s ++ t) hmn
  · exact along_liftFault (fun _ h => .inl (arithmetic_ok h)) hmn

theorem along_binaryResult (hmn : m.Alike ρ a b n) (hv : v.Alike ρ m.heap n.heap w)
    (hv' : v'.Alike ρ m.heap n.heap w') :
    Matched Full (WithValue ρ a b) (Alike ρ a b) (binaryResult op v v' m)
      (binaryResult op w w' n) := by
  unfold binaryResult
  cases op with
  | add => exact along_addValues hmn hv hv'
  | eq | notEq =>
    simp only [hv.sameValue_eq hv']
    exact .ok ⟨hmn, .bool _⟩
  | lt | le | gt | ge =>
    simp only [order_renamed hv.renamed hv'.renamed]
    exact along_liftFault (fun _ h => .inr (map_bool_ok h)) hmn
  | _ =>
    simp only [intOperands_eq hv hv']
    exact along_liftFault (fun _ h => .inl (arithmetic_ok h)) hmn

end

/-! ## Globals -/

theorem along_globalValue (slot : Nat) :
    Alongside never (Alike ρ a b) (globalValue slot) (globalValue slot) (WithValue ρ a b)
      (Alike ρ a b) := by
  intro m n hmn
  have hpending := hmn.pending slot
  unfold globalValue
  generalize m.pending[slot]? = x at hpending
  generalize n.pending[slot]? = y at hpending
  cases hpending with
  | some hv =>
    simp only [hv.kind_eq]
    split_ifs
    · exact .error hmn
    · exact .ok ⟨hmn, hv⟩
  | none =>
    have hglobal := hmn.globals slot
    unfold GlobalTable.get GlobalTable.length
    rw [hmn.globals.size_eq]
    generalize m.globals.slots[slot]? = x at hglobal
    generalize n.globals.slots[slot]? = y at hglobal
    cases hglobal with
    | none => exact .error hmn
    | some hv =>
      simp only [hv.kind_eq]
      split_ifs
      · exact .error hmn
      · exact .ok ⟨hmn, hv⟩

theorem along_checkAssignable (slot : Nat) :
    Alongside never (Alike ρ a b) (checkAssignable slot) (checkAssignable slot)
      (fun _ _ => Alike ρ a b) (Alike ρ a b) := by
  intro m n hmn
  have hcontains : m.pending.contains slot = n.pending.contains slot := by
    rw [Std.TreeMap.contains_eq_isSome_getElem?, Std.TreeMap.contains_eq_isSome_getElem?]
    have hpending := hmn.pending slot
    generalize m.pending[slot]? = x at hpending
    generalize n.pending[slot]? = y at hpending
    cases hpending <;> rfl
  have hvalue := along_globalValue slot m n hmn
  unfold checkAssignable
  rw [hcontains]
  split_ifs
  · exact .ok hmn
  · generalize globalValue slot m = r at hvalue
    generalize globalValue slot n = r' at hvalue
    cases hvalue with
    | ok h => exact .ok h.1
    | error h => exact .error h
    | full h => exact h.elim

theorem along_writeGlobal (slot : Nat) (v w : Value) :
    Alongside never (WithValue ρ a b v w) (writeGlobal slot v) (writeGlobal slot w)
      (fun _ _ => Alike ρ a b) (Alike ρ a b) :=
  fun _ _ hmn => .ok (hmn.1.addPending slot hmn.2)

theorem along_primitive {P : Machine → Machine → Prop} (hP : ∀ m n, P m n → m.Alike ρ a b n)
    (index : Nat) :
    Alongside never P (primitive index) (primitive index)
      (fun p q m n => (p = q ∧ p.Additive ∧ p.Insensitive) ∧ P m n) (Alike ρ a b) := by
  intro m n hmn
  have h := hP m n hmn
  unfold primitive
  rw [← h.primitives]
  unfold Registry.lookup
  cases hp : m.primitives.entries[index]? with
  | none => exact .error h
  | some p =>
    have hmem := Array.mem_of_getElem? hp
    exact .ok ⟨⟨rfl, h.additive p hmem, h.insensitive p hmem⟩, hmn⟩

/-! ## Calls -/

theorem along_checkArguments {P : Machine → Machine → Prop} (hP : ∀ m n, P m n → m.Alike ρ a b n)
    (start count : Nat) :
    Alongside never P (checkArguments start count) (checkArguments start count) (fun _ _ => P)
      (Alike ρ a b) := by
  intro m n hmn
  unfold checkArguments
  rw [(hP m n hmn).stack.size_eq]
  split_ifs
  · exact .error (hP m n hmn)
  · exact .ok hmn

theorem along_runNative {p : Primitive} (hadd : p.Additive) (hp : p.Insensitive)
    {args args' : List Value} :
    Alongside Full
      (fun m n => m.Alike ρ a b n ∧ List.Forall₂ (Value.Alike ρ m.heap n.heap) args args')
      (runNative p.run args) (runNative p.run args') (WithValue ρ a b) (Alike ρ a b) := by
  rintro m n ⟨hmn, hargs⟩
  obtain ⟨h, hh⟩ : ∃ h : Host,
      h = ⟨m.heap, m.sink, m.frames.length, m.primitives.count, m.primitives.name?⟩ := ⟨_, rfl⟩
  obtain ⟨k, hk⟩ : ∃ k : Host,
      k = ⟨n.heap, n.sink, n.frames.length, n.primitives.count, n.primitives.name?⟩ := ⟨_, rfl⟩
  have hhost : h.Alike ρ a b k := by
    subst hh hk
    exact ⟨hmn.heap, hmn.sink, hmn.frames.length_eq, by rw [hmn.primitives],
      by rw [hmn.primitives]⟩
  have hend := hp ρ a b args args' h k ⟨hhost, by subst hh hk; exact hargs⟩
  have hkeeps := hadd args h h ⟨.refl _, .refl _⟩
  have hkeeps' := hadd args' k k ⟨.refl _, .refl _⟩
  have hheap : h.heap = m.heap := by rw [hh]
  have hheap' : k.heap = n.heap := by rw [hk]
  unfold runNative
  simp only [← hh, ← hk]
  generalize p.run args h = r at hend hkeeps
  generalize p.run args' k = r' at hend hkeeps'
  cases hend with
  | ok hst =>
    exact .ok ⟨hmn.addStrings hst.1.heap (hheap ▸ hkeeps.heap) (hheap' ▸ hkeeps'.heap) hst.1.sink,
      hst.2⟩
  | error hst =>
    exact .error (hmn.addStrings hst.heap (hheap ▸ hkeeps.heap) (hheap' ▸ hkeeps'.heap) hst.sink)
  | full hfull =>
    cases r' with
    | ok v h' => exact .full hfull
    | error e h' => exact .full hfull

/-- Writing a register does not empty a heap. -/
theorem full_writeReg {n : Machine} (h : n.Full) (base reg : Nat) (v : Value) :
    Full (endState (writeReg base reg v n)) := by
  unfold writeReg
  split_ifs <;> exact h

theorem along_callPrimitive {P : Machine → Machine → Prop} (hP : ∀ m n, P m n → m.Alike ρ a b n)
    (index start count dest : Nat) :
    Alongside Full P (callPrimitive index start count dest) (callPrimitive index start count dest)
      (fun _ _ => Alike ρ a b) (Alike ρ a b) := by
  refine (along_primitive hP index).bind fun p q => .assume ?_
  rintro ⟨rfl, hadd, hp⟩
  split_ifs
  · exact .throw rfl hP
  · refine Alongside.bindGet fun m n hmn => ?_
    have hstart := hP m n hmn
    have hargs := hstart.stack.extract start (start + count)
    refine Alongside.bindFull (Q := WithValue ρ a b) ?_ (fun v w => ?_)
      fun v t h => full_writeReg h dest 0 v
    · refine (along_runNative hadd hp).weaken ?_ fun _ _ _ _ hst => hst
      rintro s t ⟨rfl, rfl⟩
      exact ⟨hstart, hargs⟩
    · exact (along_writeReg dest 0 v w).relax

theorem along_function {P : Machine → Machine → Prop} (hP : ∀ m n, P m n → m.Alike ρ a b n)
    {i j : UInt32} (hi : ∀ m n, P m n → i.toNat < m.heap.functions.size)
    (hj : j.toNat = ρ.place i.toNat) :
    Alongside never P (function i) (function j)
      (fun f g m n => (f.arity = g.arity ∧ f.name = g.name ∧ f.slots = g.slots) ∧ P m n)
      (Alike ρ a b) := by
  intro m n hmn
  obtain ⟨f, g, hf, hg, hfg⟩ := (hP m n hmn).heap.function? (hi m n hmn) hj
  unfold function
  rw [hf, hg]
  exact .ok ⟨⟨hfg.arity, hfg.name, hfg.slots⟩, hmn⟩

theorem along_ensureRegs (base slots : Nat) {P : Machine → Machine → Prop}
    (hP : ∀ m n, P m n → m.Alike ρ a b n)
    (hgrow : ∀ (m n : Machine) (k : Nat), P m n →
      P { m with stack := m.stack ++ Array.replicate k Value.nil }
        { n with stack := n.stack ++ Array.replicate k Value.nil }) :
    Alongside never P (ensureRegs base slots) (ensureRegs base slots) (fun _ _ => P)
      (Alike ρ a b) := by
  intro m n hmn
  dsimp only [ensureRegs]
  rw [(hP m n hmn).stack.size_eq]
  split_ifs
  · exact .error (hP m n hmn)
  · exact .ok hmn
  · exact .ok (hgrow m n _ hmn)

theorem along_callFunction {P : Machine → Machine → Prop} (hP : ∀ m n, P m n → m.Alike ρ a b n)
    {i j : UInt32} (hi : ∀ m n, P m n → i.toNat < m.heap.functions.size)
    (hj : j.toNat = ρ.place i.toNat) (start count dest : Nat) :
    Alongside never P (callFunction i start count dest) (callFunction j start count dest)
      (fun _ _ => Alike ρ a b) (Alike ρ a b) := by
  refine (along_function hP hi hj).bind fun f g => .assume ?_
  rintro ⟨harity, hname, hslots⟩
  rw [harity, hname, hslots]
  split_ifs
  · exact .throw rfl hP
  · refine Alongside.bindGet fun m n hmn => ?_
    have hstart := hP m n hmn
    rw [hstart.frames.length_eq]
    split_ifs
    · refine .throw rfl ?_
      rintro s t ⟨rfl, rfl⟩
      exact hstart
    · have hrest : Alongside never
          (fun m n => m.Alike ρ a b n ∧ i.toNat < m.heap.functions.size)
          (do ensureRegs start g.slots; pushFrame ⟨i, 0, start, dest⟩)
          (do ensureRegs start g.slots; pushFrame ⟨j, 0, start, dest⟩) (fun _ _ => Alike ρ a b)
          (Alike ρ a b) := by
        refine (along_ensureRegs start g.slots (fun _ _ h => h.1)
          fun m n k h => ⟨h.1.growStack k, h.2⟩).bind fun _ _ => ?_
        rintro m n ⟨h, hlt⟩
        exact .ok (h.setFrames (.cons ⟨hlt, hj, rfl, rfl, rfl⟩ h.frames))
      refine hrest.weaken ?_ fun _ _ _ _ hst => hst
      rintro s t ⟨rfl, rfl⟩
      exact ⟨hstart, hi _ _ hmn⟩

theorem along_call (base p q r : Nat) :
    Alongside Full (Alike ρ a b) (call base p q r) (call base p q r) (fun _ _ => Alike ρ a b)
      (Alike ρ a b) := by
  refine (along_readReg (fun _ _ h => h) base q).bind fun v w => ?_
  refine (along_checkArguments (fun _ _ h => h.1) _ _).bind fun _ _ => ?_
  rintro m n ⟨hmn, hv⟩
  by_cases hprim : v.kind = .primitive
  · have hw : v = w := hv.eq_of_kind (by simp [hprim]) (by simp [hprim])
    subst hw
    simp only [hprim]
    exact along_callPrimitive (fun _ _ h => h) _ _ _ _ m n hmn
  · by_cases hfun : v.kind = .function
    · obtain ⟨hlt, hplace⟩ := hv.function_place hfun
      simp only [hfun, ← hv.kind_eq]
      exact (along_callFunction (P := fun m n => m.Alike ρ a b n ∧
        v.handle.toNat < m.heap.functions.size) (fun _ _ h => h.1) (fun _ _ h => h.2) hplace
        _ _ _).relax m n ⟨hmn, hlt⟩
    · rw [hv.kind_eq] at hprim hfun ⊢
      cases hk : w.kind <;> first
        | exact absurd hk hprim
        | exact absurd hk hfun
        | exact .error hmn

/-! ## Returns -/

theorem along_leaveFrame (v w : Value) :
    Alongside never (WithValue ρ a b v w) (leaveFrame v) (leaveFrame w)
      (fun r r' m n => m.Alike ρ a b n ∧ Option.Rel (Value.Alike ρ m.heap n.heap) r r')
      (Alike ρ a b) := by
  rintro m n ⟨hmn, hv⟩
  have hframes := hmn.frames
  unfold leaveFrame
  generalize hfs : m.frames = fs at hframes
  generalize hgs : n.frames = gs at hframes
  cases hframes with
  | nil => exact .ok ⟨hmn, .some hv⟩
  | @cons f g fs gs hfg hrest =>
    have hpop := hmn.setFrames hrest
    cases hrest with
    | nil => exact .ok ⟨hpop, .some hv⟩
    | cons hfg' hrest' =>
      have hwrite := along_writeReg f.dest 0 v w _ _ ⟨hpop, hv⟩
      simp only [← hfg.dest]
      revert hwrite
      generalize writeReg f.dest 0 v _ = r
      generalize writeReg f.dest 0 w _ = r'
      intro hwrite
      cases hwrite with
      | ok h => exact .ok ⟨h, .none⟩
      | error h => exact .error h
      | full h => exact h.elim

/-! ## Steps -/

/-- What two alike machines come to: results that are alike, if there are any. -/
def Results (ρ : Shift) (a b : String) (r r' : Option Value) (m n : Machine) : Prop :=
  m.Alike ρ a b n ∧ Option.Rel (Value.Alike ρ m.heap n.heap) r r'

theorem along_none {full : Machine → Prop} :
    Alongside full (Alike ρ a b) (return none : Action (Option Value)) (return none)
      (Results ρ a b) (Alike ρ a b) :=
  .pure fun _ _ h => ⟨h, .none⟩

/-- Functions that have the same code and alike constants make the same step. -/
theorem along_perform {f g : Function} {h k : Heap} (hcode : AlikeArrays ρ h k f.constants
    g.constants) (base : Nat) (op : Opcode) (w : Word) :
    Alongside Full (fun m n => m.Alike ρ a b n ∧ h.Grows m.heap ∧ k.Grows n.heap)
      (perform f base op w) (perform g base op w) (Results ρ a b) (Alike ρ a b) := by
  have hwrite : ∀ v v' : Value, Alongside Full (WithValue ρ a b v v')
      (do writeReg base w.a v; return (none : Option Value))
      (do writeReg base w.a v'; return none) (Results ρ a b) (Alike ρ a b) :=
    fun v v' => (along_writeReg base w.a v v').bind fun _ _ => along_none
  have hfull : ∀ (v : Value) (t : Machine), t.Full →
      Full (endState ((do writeReg base w.a v; return none : Action (Option Value)) t)) := by
    intro v t ht
    have h := full_writeReg ht base w.a v
    show Full (endState (EStateM.bind (writeReg base w.a v) (fun _ => pure none) t))
    unfold EStateM.bind
    cases hr : writeReg base w.a v t <;> rw [hr] at h <;> exact h
  -- an instruction that reads the constants needs the heaps as they were
  have hplain : ∀ {act act' : Action (Option Value)},
      Alongside Full (Alike ρ a b) act act' (Results ρ a b) (Alike ρ a b) →
      Alongside Full (fun m n => m.Alike ρ a b n ∧ h.Grows m.heap ∧ k.Grows n.heap) act act'
        (Results ρ a b) (Alike ρ a b) :=
    fun hact => hact.weaken (fun _ _ h => h.1) fun _ _ _ _ h => h
  have hread : ∀ reg, Alongside never (Alike ρ a b) (readReg base reg) (readReg base reg)
      (fun v w m n => m.Alike ρ a b n ∧ v.Alike ρ m.heap n.heap w) (Alike ρ a b) :=
    fun reg => along_readReg (fun _ _ hmn => hmn) base reg
  cases op with
  | loadConst =>
    have hconst := hcode w.bx
    simp only [perform]
    generalize f.constants[w.bx]? = x at hconst
    generalize g.constants[w.bx]? = y at hconst
    cases hconst with
    | none =>
      refine hplain (Alongside.bind (Q := fun _ _ => Alike ρ a b) ?_ fun _ _ => along_none)
      exact .throw rfl fun _ _ h => h
    | some hv =>
      refine (hwrite _ _).weaken ?_ fun _ _ _ _ h => h
      rintro m n ⟨hmn, hm, hn⟩
      exact ⟨hmn, hv.grows hm hn⟩
  | loadTrue | loadFalse =>
    exact hplain ((hwrite _ _).weaken (fun _ _ h => ⟨h, .bool _⟩) fun _ _ _ _ h => h)
  | loadNil => exact hplain ((hwrite _ _).weaken (fun _ _ h => ⟨h, .nil⟩) fun _ _ _ _ h => h)
  | move => exact hplain ((hread w.b).bind hwrite)
  | neg | logNot =>
    refine hplain ((hread w.b).bind fun v v' => ?_)
    refine Alongside.bindFull (Q := WithValue ρ a b) ?_ hwrite hfull
    rintro m n ⟨hmn, hv⟩
    rw [unaryResult_renamed hv.renamed]
    exact along_liftFault (fun _ h => unaryResult_ok h) hmn
  | add | sub | mul | div | mod | eq | notEq | lt | le | gt | ge =>
    refine hplain ((hread w.b).bind fun v v' => ?_)
    refine (along_readReg (fun _ _ h => h.1) base w.c).bind fun u u' => ?_
    refine Alongside.bindFull (Q := WithValue ρ a b) ?_ hwrite hfull
    rintro m n ⟨⟨hmn, hv⟩, hu⟩
    exact along_binaryResult hmn hv hu
  | jump => exact hplain ((along_jumpTo _).bind fun _ _ => along_none)
  | jumpIfFalse | jumpIfTrue =>
    refine hplain ((hread w.a).bind fun v v' => ?_)
    rintro m n ⟨hmn, hv⟩
    rw [hv.isFalsey_eq]
    split_ifs
    · exact (along_jumpTo _).bind (fun _ _ => along_none) m n hmn
    · exact along_none m n hmn
  | getGlobal => exact hplain ((along_globalValue _).bind hwrite)
  | setGlobal =>
    refine hplain ((along_checkAssignable _).bind fun _ _ => (hread w.a).bind fun v v' => ?_)
    exact (along_writeGlobal _ v v').bind fun _ _ => along_none
  | defGlobal =>
    refine hplain ((hread w.a).bind fun v v' => ?_)
    exact (along_writeGlobal _ v v').bind fun _ _ => along_none
  | getPrim =>
    refine hplain ((along_primitive (fun _ _ h => h) w.bx).bind fun p q => ?_)
    exact (hwrite _ _).weaken (fun _ _ h => ⟨h.2, .primitive _⟩) fun _ _ _ _ h => h
  | call =>
    refine hplain (Alongside.bindFull (along_call base w.a w.b w.c) (fun _ _ => along_none) ?_)
    exact fun _ _ h => h
  | ret => exact hplain ((hread w.a).bind fun v v' => (along_leaveFrame v v').relax)

theorem Alike.fuelled_iff {m n : Machine} (h : m.Alike ρ a b n) : m.Fuelled ↔ n.Fuelled := by
  rw [Fuelled, Fuelled, h.fuel, h.executed]

/-- Alike machines make alike steps. -/
theorem along_step : Alongside Full (Alike ρ a b) step step (Results ρ a b) (Alike ρ a b) := by
  intro m n hmn
  have hframes := hmn.frames
  generalize hfs : m.frames = fs at hframes
  generalize hgs : n.frames = gs at hframes
  cases hframes with
  | nil =>
    rw [step_of_no_frame hfs, step_of_no_frame hgs]
    exact .ok ⟨hmn, .some .nil⟩
  | @cons f g fs gs hfg hrest =>
    obtain ⟨p, q, hp, hq, hpq⟩ := hmn.heap.function? hfg.function_lt hfg.function
    cases hw : p.code[f.ip]? with
    | none =>
      have hw' : q.code[g.ip]? = none := by rw [← hpq.code, ← hfg.ip, hw]
      rw [step_at_end hfs hp hw, step_at_end hgs hq hw']
      exact (along_leaveFrame .nil .nil).relax m n ⟨hmn, .nil⟩
    | some w =>
      have hw' : q.code[g.ip]? = some w := by rw [← hpq.code, ← hfg.ip, hw]
      have hpast := hmn.past hfs hgs
      rcases m.fuelled_or_spent with hfuel | ⟨limit, hlimit, hspent⟩
      · have hfuel' := hmn.fuelled_iff.1 hfuel
        cases hop : Word.opcode? w with
        | none =>
          rw [step_of_invalid_opcode hfs hp hw hfuel hop,
            step_of_invalid_opcode hgs hq hw' hfuel' hop]
          exact .error hpast
        | some op =>
          rw [step_performs hfs hp hw hfuel hop, step_performs hgs hq hw' hfuel' hop, hfg.base]
          exact along_perform hpq.constants g.base op w _ _ ⟨hpast, .refl _, .refl _⟩
      · rw [step_out_of_fuel hfs hp hw hlimit hspent,
          step_out_of_fuel hgs hq hw' (hmn.fuel ▸ hlimit) (hmn.executed ▸ hspent)]
        exact .error hpast

/-! ## Runs -/

/-- A heap that is full stays full. -/
theorem Continues.full {m n : Machine} (h : m.Continues n) (hm : m.Full) : n.Full :=
  lt_of_lt_of_le hm h.heap.grows.strings_size

theorem endState_continues {α : Type} {act : Action α} {m : Machine} (h : m.Keeps act) :
    m.Continues (endState (act m)) := by
  have hm := h m (.refl m)
  cases hr : act m <;> rw [hr] at hm <;> exact hm

/-- Alike machines come to alike ends, however many steps they take. -/
theorem along_run (k : Nat) :
    Alongside Full (Alike ρ a b) (run k) (run k) (Results ρ a b) (Alike ρ a b) := by
  induction k with
  | zero => exact fun m n hmn => .ok ⟨hmn, .none⟩
  | succ k ih =>
    intro m n hmn
    have hadd : n.primitives.Additive := hmn.primitives ▸ hmn.additive
    have hstep := along_step m n hmn
    have hkeeps := endState_continues (keeps_step hadd)
    unfold run
    generalize step m = r at hstep
    generalize step n = r' at hstep hkeeps
    cases hstep with
    | error h => exact .error h
    | @ok x y s t h =>
      obtain ⟨hst, hxy⟩ := h
      cases hxy with
      | none => exact ih s t hst
      | some hv => exact .ok ⟨hst, .some hv⟩
    | full h =>
      cases r' with
      | error e t => exact .full h
      | ok y t =>
        cases y with
        | some v => exact .full h
        | none =>
          have hrun := endState_continues (keeps_run (m := t) (hkeeps.primitives ▸ hadd) k)
          exact .full (hrun.full h)

theorem along_enter {i j : UInt32} (hj : j.toNat = ρ.place i.toNat) :
    Alongside never (fun m n => m.Alike ρ a b n ∧ i.toNat < m.heap.functions.size) (enter i)
      (enter j) (fun _ _ => Alike ρ a b) (Alike ρ a b) := by
  rintro m n ⟨hmn, hi⟩
  obtain ⟨f, g, hf, hg, hfg⟩ := hmn.heap.function? hi hj
  have hclear : Alike ρ a b { m with stack := #[], frames := [] }
      { n with stack := #[], frames := [] } :=
    { hmn with stack := fun _ => .none, frames := .nil }
  have hrest : Alongside never
      (fun m n => m.Alike ρ a b n ∧ i.toNat < m.heap.functions.size)
      (do ensureRegs 0 f.slots; pushFrame ⟨i, 0, 0, 0⟩)
      (do ensureRegs 0 f.slots; pushFrame ⟨j, 0, 0, 0⟩) (fun _ _ => Alike ρ a b)
      (Alike ρ a b) := by
    refine (along_ensureRegs 0 f.slots (fun _ _ h => h.1)
      fun m n k h => ⟨h.1.growStack k, h.2⟩).bind fun _ _ => ?_
    rintro m n ⟨h, hlt⟩
    exact .ok (h.setFrames (.cons ⟨hlt, hj, rfl, rfl, rfl⟩ h.frames))
  unfold enter
  simp only [hf, hg, ← hfg.slots]
  exact hrest _ _ ⟨hclear, hi⟩

/-- Functions at matching places come to alike ends. -/
theorem along_execute {i j : UInt32} (hj : j.toNat = ρ.place i.toNat) (patience : Nat) :
    Alongside Full (fun m n => m.Alike ρ a b n ∧ i.toNat < m.heap.functions.size)
      (execute i patience) (execute j patience) (Results ρ a b) (Alike ρ a b) := by
  refine (along_enter hj).bind fun _ _ => Alongside.bindGet fun m n hmn => ?_
  rw [hmn.fuel]
  refine (along_run _).weaken ?_ fun _ _ _ _ h => h
  rintro s t ⟨rfl, rfl⟩
  exact hmn

end Machine
end ScriptMachine
