import ScriptMachine.Proofs.Machine.Effects
import ScriptMachine.Proofs.Machine.Operators
import ScriptMachine.Proofs.Machine.Pairing
import ScriptMachine.Proofs.Machine.Conduct
import ScriptMachine.Proofs.Machine.Stepping

/-!
# Actions on machines under other handles

Each action of a machine is retraced by the same action of a machine that holds the same under other
handles, given that the cells that it reads agree. The cells that it writes then agree as well.
-/

namespace ScriptMachine.Machine

open Bytecode

/-! ## Actions that retrace others

An action retraces another one when it succeeds wherever the other does, on machines that are related in
some way. Nothing is said of what it does where the other fails. The first action may also leave a
machine that is full; then the second one need not succeed.
-/

section

variable {α β : Type}

/-- From machines related by `P`, when the first action succeeds, so does the second, and they end in
machines related by `Q` together with their results, unless the first one is full. -/
def Retraces (full : Machine → Prop) (P : Machine → Machine → Prop) (act act' : Action α)
    (Q : α → α → Machine → Machine → Prop) : Prop :=
  ∀ m n x m', P m n → act m = .ok x m' → full m' ∨ ∃ y n', act' n = .ok y n' ∧ Q x y m' n'

namespace Retraces

variable {full : Machine → Prop} {P P' : Machine → Machine → Prop}
  {Q Q' : α → α → Machine → Machine → Prop} {R : β → β → Machine → Machine → Prop}
  {act act' : Action α} {next next' : α → Action β}

theorem pure {x y : α} (h : ∀ m n, P m n → Q x y m n) :
    Retraces full P (pure x : Action α) (pure y) Q := by
  intro m n x' m' hmn hact
  cases hact
  exact .inr ⟨y, n, rfl, h m n hmn⟩

/-- An action that fails is retraced by any. -/
theorem throw {e : Fault} : Retraces full P (throw e : Action α) act' Q := by
  intro m n x m' _ hact
  cases hact

/-- Nor does anything come after it. -/
theorem throwBind {e : Fault} {next : Unit → Action α} :
    Retraces full P ((MonadExcept.throw e : Action Unit) >>= next) act' Q := by
  intro m n x m' _ hact
  obtain ⟨_, _, hthrow, -⟩ := ok_of_bind hact
  cases hthrow

/-- What comes next may depend on the machines, once they have been looked at. -/
theorem bindGet {next next' : Machine → Action α}
    (h : ∀ m n, P m n → Retraces full (fun m' n' => m' = m ∧ n' = n) (next m) (next' n) Q) :
    Retraces full P (MonadState.get >>= next) (MonadState.get >>= next') Q :=
  fun m n x m' hmn hact => h m n hmn m n x m' ⟨rfl, rfl⟩ hact

/-- Where full machines stay full, one action may come after another. -/
theorem bindFull (h : Retraces full P act act' Q)
    (hnext : ∀ x y, Retraces full (Q x y) (next x) (next' y) R)
    (hfull : ∀ x m z m', full m → next x m = .ok z m' → full m') :
    Retraces full P (act >>= next) (act' >>= next') R := by
  intro m n z m' hmn hact
  obtain ⟨x, m₁, hx, hz⟩ := ok_of_bind hact
  rcases h m n x m₁ hmn hx with hf | ⟨y, n₁, hy, hQ⟩
  · exact .inl (hfull x m₁ z m' hf hz)
  · refine (hnext x y m₁ n₁ z m' hQ hz).imp_right ?_
    rintro ⟨z', n', hz', hR⟩
    exact ⟨z', n', (bind_of_ok hy).trans hz', hR⟩

/-- After actions that fill nothing, others may come. -/
theorem bind (h : Retraces never P act act' Q)
    (hnext : ∀ x y, Retraces full (Q x y) (next x) (next' y) R) :
    Retraces full P (act >>= next) (act' >>= next') R := by
  intro m n z m' hmn hact
  obtain ⟨x, m₁, hx, hz⟩ := ok_of_bind hact
  obtain ⟨y, n₁, hy, hQ⟩ := (h m n x m₁ hmn hx).resolve_left id
  refine (hnext x y m₁ n₁ z m' hQ hz).imp_right ?_
  rintro ⟨z', n', hz', hR⟩
  exact ⟨z', n', (bind_of_ok hy).trans hz', hR⟩

/-- Actions that fill nothing retrace each other whatever counts as full. -/
theorem relax (h : Retraces never P act act' Q) : Retraces full P act act' Q :=
  fun m n x m' hmn hact => .inr ((h m n x m' hmn hact).resolve_left id)

theorem weaken (h : Retraces full P act act' Q) (hP : ∀ m n, P' m n → P m n)
    (hQ : ∀ x y m n, Q x y m n → Q' x y m n) : Retraces full P' act act' Q' := by
  intro m n x m' hmn hact
  refine (h m n x m' (hP m n hmn) hact).imp_right ?_
  rintro ⟨y, n', hy, hq⟩
  exact ⟨y, n', hy, hQ x y m' n' hq⟩

/-- A condition that does not depend on the machines can be assumed. -/
theorem assume {p : Prop} (h : p → Retraces full P act act' Q) :
    Retraces full (fun m n => p ∧ P m n) act act' Q :=
  fun m n x m' hmn hact => h hmn.1 m n x m' hmn.2 hact

end Retraces

end

variable {P : Pairing} {C : Nat → Prop} {F G : List Frame} {v w : Value}

/-- The heap of the machine does not leave handles for what the other one may hold. -/
def FullFor (P : Pairing) (m : Machine) : Prop :=
  P.FullHeap m.heap

theorem not_full_of_le {m : Machine} (h : m.heap.strings.size + P.slack ≤ handleCount) :
    ¬ FullFor P m :=
  Nat.not_lt.2 h

/-! ## Registers and frames -/

theorem retraces_readReg {Q : Machine → Machine → Prop} (hQ : ∀ m n, Q m n → m.Held P C F G n)
    {base reg : Nat} (hC : C (base + reg)) :
    Retraces never Q (readReg base reg) (readReg base reg)
      (fun v w m n => Q m n ∧ v.Renamed P.function m.heap n.heap w) := by
  intro m n v m' hmn hread
  obtain ⟨rfl, hv⟩ := readReg_ok_iff.1 hread
  obtain ⟨v', w, hv', hw, hvw⟩ := (hQ m' n hmn).cells _ hC
  obtain rfl := Option.some.inj (hv.symm.trans hv')
  exact .inr ⟨w, n, readReg_ok_iff.2 ⟨rfl, hw⟩, hmn, hvw⟩

theorem retraces_writeReg (base reg : Nat) (v w : Value) :
    Retraces never (HeldWith P C F G v w) (writeReg base reg v) (writeReg base reg w)
      (fun _ _ => Held P (fun c => C c ∨ c = base + reg) F G) := by
  rintro m n x m' ⟨hmn, hv⟩ hwrite
  unfold writeReg at hwrite
  split_ifs at hwrite with hi
  cases hwrite
  have hj : base + reg < n.stack.size := Nat.lt_of_lt_of_le hi hmn.stack
  exact .inr ⟨(), _, dif_pos hj, hmn.setStack hv hi hj⟩

theorem retraces_jumpTo {f g : Frame} {fs gs : List Frame} (i j : Nat) :
    Retraces never (Held P C (f :: fs) (g :: gs)) (jumpTo i) (jumpTo j)
      (fun _ _ => Held P C ({ f with ip := i } :: fs) ({ g with ip := j } :: gs)) := by
  intro m n x m' hmn hjump
  unfold jumpTo at hjump ⊢
  rw [hmn.frames] at hjump
  cases hjump
  simp only [hmn.frames']
  exact .inr ⟨(), _, rfl, hmn.setFrames⟩

theorem retraces_ensureRegs (base slots : Nat) :
    Retraces never (Held P C F G) (ensureRegs base slots) (ensureRegs base slots)
      (fun _ _ => Held P C F G) := by
  intro m n x m' hmn hensure
  have hle := hmn.stack
  rw [ensureRegs_eq] at hensure ⊢
  split_ifs at hensure ⊢
  cases hensure
  exact .inr ⟨(), _, rfl, hmn.growStack (by omega)⟩

theorem retraces_pushFrame (f g : Frame) :
    Retraces never (Held P C F G) (pushFrame f) (pushFrame g)
      (fun _ _ => Held P C (f :: F) (g :: G)) := by
  intro m n x m' hmn hpush
  cases hpush
  refine .inr ⟨(), _, rfl, ?_⟩
  rw [hmn.frames, hmn.frames']
  exact hmn.setFrames

/-- The end of a frame that is not the last one. -/
theorem retraces_leaveFrame {f g f' g' : Frame} {fs gs : List Frame} (hdest : f.dest = g.dest)
    (v w : Value) :
    Retraces never (HeldWith P C (f :: f' :: fs) (g :: g' :: gs) v w) (leaveFrame v) (leaveFrame w)
      (fun r r' m n => (r = none ∧ r' = none) ∧
        m.Held P (fun c => C c ∨ c = f.dest) (f' :: fs) (g' :: gs) n) := by
  rintro m n x m' ⟨hmn, hv⟩ hleave
  unfold leaveFrame at hleave ⊢
  simp only [hmn.frames, hmn.frames', ← hdest] at hleave ⊢
  cases hwrite : writeReg f.dest 0 v { m with frames := f' :: fs } with
  | error e m₁ =>
    rw [hwrite] at hleave
    cases hleave
  | ok u m₁ =>
    rw [hwrite] at hleave
    cases hleave
    have hpopped : HeldWith P C (f' :: fs) (g' :: gs) v w { m with frames := f' :: fs }
        { n with frames := g' :: gs } := ⟨hmn.setFrames, hv⟩
    obtain ⟨y, n', hy, hmn'⟩ :=
      (retraces_writeReg f.dest 0 v w _ _ _ _ hpopped hwrite).resolve_left id
    rw [hy]
    exact .inr ⟨none, n', rfl, ⟨rfl, rfl⟩, hmn'⟩

/-! ## Operators -/

/-- A result without a handle is its own name. -/
theorem retraces_liftFault {Q : Machine → Machine → Prop} (hQ : ∀ m n, Q m n → m.Held P C F G n)
    {r r' : Except Fault Value} (he : r = r')
    (hr : ∀ v, r = .ok v → (∃ i, v = .int i) ∨ ∃ c, v = .bool c) :
    Retraces never Q (liftFault r) (liftFault r') (HeldWith P C F G) := by
  intro m n v m' hmn hlift
  subst he
  cases r with
  | error e => cases hlift
  | ok u =>
    cases hlift
    refine .inr ⟨v, n, rfl, hQ m n hmn, ?_⟩
    rcases hr v rfl with ⟨i, rfl⟩ | ⟨c, rfl⟩
    · exact .int i
    · exact .bool c

theorem retraces_allocString (s : String) :
    Retraces (FullFor P) (Held P C F G) (allocString s) (allocString s) (HeldWith P C F G) := by
  intro m n v m' hmn halloc
  cases halloc
  by_cases hroom : P.FullHeap (m.heap.allocString s).2
  · exact .inl hroom
  · obtain ⟨hheap, hsize, hsize'⟩ := hmn.heap.allocString s hroom
    refine .inr ⟨_, _, rfl, hmn.addStrings hheap (Heap.addsStrings_allocString _ s)
      (Heap.addsStrings_allocString _ s) hmn.sink hmn.room, ?_⟩
    exact .string (Heap.string?_allocString s hsize) (Heap.string?_allocString s hsize')

section

variable {op : Opcode} {v' w' : Value}

theorem retraces_addValues :
    Retraces (FullFor P)
      (fun m n => HeldWith P C F G v w m n ∧ v'.Renamed P.function m.heap n.heap w')
      (addValues v v') (addValues w w') (HeldWith P C F G) := by
  rintro m n x m' ⟨⟨hmn, hv⟩, hv'⟩ hadd
  unfold addValues at hadd ⊢
  rw [← bothStrings_renamed hv hv']
  split_ifs at hadd ⊢ with hs
  · obtain ⟨s, t, h₁, h₂⟩ := stringOperands_renamed hv hv' hs
    rw [h₁] at hadd
    rw [h₂]
    exact retraces_allocString (s ++ t) m n x m' hmn hadd
  · rw [← intOperands_renamed hv hv']
    exact (retraces_liftFault (fun _ _ h => h) rfl fun _ h => .inl (arithmetic_ok h)).relax m n x m'
      hmn hadd

theorem retraces_binaryResult (hP : OneToOne P.function) :
    Retraces (FullFor P)
      (fun m n => HeldWith P C F G v w m n ∧ v'.Renamed P.function m.heap n.heap w')
      (binaryResult op v v') (binaryResult op w w') (HeldWith P C F G) := by
  rintro m n x m' ⟨⟨hmn, hv⟩, hv'⟩ hbinary
  have hint : ∀ {r r' : Except Fault Value}, r = r' → (∀ u, r = .ok u → ∃ i, u = .int i) →
      Retraces (FullFor P) (Held P C F G) (liftFault r) (liftFault r') (HeldWith P C F G) :=
    fun he hr => (retraces_liftFault (fun _ _ h => h) he fun u h => .inl (hr u h)).relax
  unfold binaryResult at hbinary ⊢
  cases op with
  | add => exact retraces_addValues m n x m' ⟨⟨hmn, hv⟩, hv'⟩ hbinary
  | eq | notEq =>
    cases hbinary
    rw [← hv.sameValue_eq hP hv']
    exact .inr ⟨_, _, rfl, hmn, .bool _⟩
  | lt | le | gt | ge =>
    refine (retraces_liftFault (fun _ _ h => h) ?_ fun _ h => .inr (map_bool_ok h)).relax m n x m'
      hmn hbinary
    rw [order_renamed hv hv']
  | _ =>
    exact hint (by rw [intOperands_renamed hv hv']) (fun _ h => arithmetic_ok h) m n x m' hmn hbinary

end

/-! ## Globals -/

theorem retraces_globalValue (slot : Nat) :
    Retraces never (Held P C F G) (globalValue slot) (globalValue slot) (HeldWith P C F G) := by
  intro m n v m' hmn hvalue
  obtain ⟨rfl, hv, hkind⟩ := globalValue_ok_iff.1 hvalue
  have hrel := hmn.globals slot
  rw [hv, Option.getD_some] at hrel
  cases hw : n.global? slot with
  | none =>
    rw [hw] at hrel
    exact absurd hrel.kind_eq hkind
  | some w =>
    rw [hw, Option.getD_some] at hrel
    exact .inr ⟨w, n, globalValue_ok_iff.2 ⟨rfl, hw, hrel.kind_eq ▸ hkind⟩, hmn, hrel⟩

theorem retraces_checkAssignable (slot : Nat) :
    Retraces never (Held P C F G) (checkAssignable slot) (checkAssignable slot)
      (fun _ _ => Held P C F G) := by
  intro m n x m' hmn hcheck
  unfold checkAssignable at hcheck ⊢
  by_cases hm : m.pending.contains slot = true
  · rw [if_pos hm] at hcheck
    cases hcheck
    rw [if_pos (hmn.pending slot hm)]
    exact .inr ⟨(), n, rfl, hmn⟩
  · rw [if_neg hm] at hcheck
    cases hvalue : globalValue slot m with
    | error e m₁ =>
      rw [hvalue] at hcheck
      cases hcheck
    | ok v m₁ =>
      rw [hvalue] at hcheck
      cases hcheck
      obtain ⟨rfl, -⟩ := globalValue_ok_iff.1 hvalue
      obtain ⟨w, n₁, hw, -⟩ := (retraces_globalValue slot _ n v _ hmn hvalue).resolve_left id
      obtain ⟨rfl, -⟩ := globalValue_ok_iff.1 hw
      rw [hw]
      refine .inr ⟨(), n₁, ?_, hmn⟩
      split_ifs <;> rfl

theorem retraces_writeGlobal (slot : Nat) (v w : Value) :
    Retraces never (HeldWith P C F G v w) (writeGlobal slot v) (writeGlobal slot w)
      (fun _ _ => Held P C F G) := by
  rintro m n x m' ⟨hmn, hv⟩ hwrite
  cases hwrite
  exact .inr ⟨(), _, rfl, hmn.addPending slot hv⟩

/-! ## Calls -/

theorem retraces_primitive {Q : Machine → Machine → Prop} (hQ : ∀ m n, Q m n → m.Held P C F G n)
    (index : Nat) :
    Retraces never Q (primitive index) (primitive index)
      (fun p q m n => (p = q ∧ p ∈ Standard.primitives) ∧ Q m n) := by
  intro m n p m' hmn hp
  have h := hQ m n hmn
  unfold primitive at hp ⊢
  rw [h.primitives] at hp
  rw [h.primitives']
  unfold Registry.lookup at hp ⊢
  cases hentry : Registry.standard.entries[index]? with
  | none =>
    rw [hentry] at hp
    cases hp
  | some q =>
    rw [hentry] at hp
    cases hp
    exact .inr ⟨p, n, rfl, ⟨rfl, Array.mem_toList_iff.2 (Array.mem_of_getElem? hentry)⟩, hmn⟩

theorem retraces_checkArguments {Q : Machine → Machine → Prop}
    (hQ : ∀ m n, Q m n → m.Held P C F G n) (start count : Nat) :
    Retraces never Q (checkArguments start count) (checkArguments start count)
      (fun _ _ m n => Q m n ∧ start + count ≤ m.stack.size) := by
  intro m n x m' hmn hcheck
  have hle := (hQ m n hmn).stack
  unfold checkArguments at hcheck ⊢
  split_ifs at hcheck with hroom
  cases hcheck
  rw [if_neg (by omega)]
  exact .inr ⟨(), n, rfl, hmn, by omega⟩

/-- What a primitive sees of two such machines differs in the handles of the heaps only. -/
theorem Held.like {m n : Machine} (h : m.Held P C F G n) (hlength : F.length = G.length) :
    (⟨n.heap, n.sink, n.frames.length, n.primitives.count, n.primitives.name?⟩ : Host).Like
      P.likeness m.sink.text m.sink.text
      ⟨m.heap, m.sink, m.frames.length, m.primitives.count, m.primitives.name?⟩ where
  heap := h.heap
  sink := by
    have hsink : m.sink = ⟨m.sink.text ++ "", none⟩ := by
      rw [String.append_empty, ← h.room]
    exact ⟨"", h.sink.symm.trans hsink, hsink⟩
  depth := by rw [h.frames, h.frames', hlength]
  primitiveCount := by rw [h.primitives, h.primitives']
  primitiveName? := by rw [h.primitives, h.primitives']

theorem retraces_runNative (hP : P.Lawful) {p : Primitive} (hp : p ∈ Standard.primitives)
    {args args' : List Value} (hlength : F.length = G.length) :
    Retraces (FullFor P)
      (fun m n => m.Held P C F G n ∧
        List.Forall₂ (Value.Renamed P.function m.heap n.heap) args args')
      (runNative p.run args) (runNative p.run args') (HeldWith P C F G) := by
  rintro m n v m' ⟨hmn, hargs⟩ hrun
  have hargs' : List.Forall₂ (Value.Renamed P.likeness.function n.heap m.heap) args' args :=
    hargs.flip.imp fun _ _ hv => hv.flip
  have hend := Standard.oblivious_primitives p hp _ hP.likeness _ _ args' args _ _
    ⟨hmn.like hlength, hargs'⟩
  have hkeeps := Standard.additive_primitives p hp args
    ⟨m.heap, m.sink, m.frames.length, m.primitives.count, m.primitives.name?⟩ _
    ⟨.refl _, .refl _⟩
  have hkeeps' := Standard.additive_primitives p hp args'
    ⟨n.heap, n.sink, n.frames.length, n.primitives.count, n.primitives.name?⟩ _
    ⟨.refl _, .refl _⟩
  unfold runNative at hrun ⊢
  dsimp only at hrun ⊢
  generalize p.run args _ = r at hend hkeeps hrun
  generalize p.run args' _ = r' at hend hkeeps'
  cases hend with
  | error hst => cases hrun
  | full hfull =>
    cases r with
    | error e h' => cases hrun
    | ok u h' =>
      cases hrun
      exact .inl hfull
  | ok hst =>
    cases hrun
    obtain ⟨⟨hheaps, ⟨more, hs, ht⟩, -⟩, hv⟩ := hst
    refine .inr ⟨_, _, rfl, hmn.addStrings hheaps hkeeps.heap hkeeps'.heap (ht.trans hs.symm)
      (by rw [ht]), hv.flip⟩

/-- Writing a register fills nothing. -/
theorem full_of_writeReg {m m' : Machine} {base reg : Nat} {x : Unit} (h : FullFor P m)
    (hwrite : writeReg base reg v m = .ok x m') : FullFor P m' := by
  unfold writeReg at hwrite
  split_ifs at hwrite
  cases hwrite
  exact h

theorem retraces_callPrimitive (hP : P.Lawful) (index : Nat) {start count dest : Nat}
    (hlength : F.length = G.length) (hC : ∀ i < count, C (start + i)) :
    Retraces (FullFor P) (fun m n => m.Held P C F G n ∧ start + count ≤ m.stack.size)
      (callPrimitive index start count dest) (callPrimitive index start count dest)
      (fun _ _ => Held P (fun c => C c ∨ c = dest) F G) := by
  refine (retraces_primitive (fun _ _ h => h.1) index).bind fun p q => .assume ?_
  rintro ⟨rfl, hp⟩
  split_ifs
  · exact .throwBind
  · refine Retraces.bindGet fun m n hmn => ?_
    refine Retraces.bindFull (Q := HeldWith P C F G) ?_ (fun v w => ?_)
      fun v s _ s' hs hwrite => full_of_writeReg hs hwrite
    · refine (retraces_runNative hP hp hlength).weaken ?_ fun _ _ _ _ h => h
      rintro s t ⟨rfl, rfl⟩
      exact ⟨hmn.1, hmn.1.extract hC hmn.2⟩
    · exact (retraces_writeReg dest 0 v w).relax

/-- A call of a function and of the one that belongs to it, with as many arguments as they take. -/
theorem retraces_callFunction (hP : P.Lawful) {i j : UInt32} (hij : P.function i.toNat j.toNat)
    (hlength : F.length = G.length) (start count dest : Nat) :
    Retraces never (Held P C F G) (callFunction i start count dest)
      (callFunction j start count dest)
      (fun _ _ m n => (∀ f, P.first.functions[i.toNat]? = some f → f.arity = count) ∧
        m.Held P C (⟨i, 0, start, dest⟩ :: F) (⟨j, 0, start, dest⟩ :: G) n) := by
  obtain ⟨f, g, hf, hg, hfg, -⟩ := hP.corresponds _ _ hij
  have hfunction : Retraces never (Held P C F G) (function i) (function j)
      (fun f' g' m n => (f' = f ∧ g' = g) ∧ m.Held P C F G n) := by
    intro m n x m' hmn hx
    have hm : m.heap.function? i = some f := hmn.heap.first.grows.functions _ _ hf
    have hn : n.heap.function? j = some g := hmn.heap.second.grows.functions _ _ hg
    unfold function at hx ⊢
    rw [hm] at hx
    cases hx
    rw [hn]
    exact .inr ⟨g, n, rfl, ⟨rfl, rfl⟩, hmn⟩
  refine hfunction.bind fun f' g' => .assume ?_
  rintro ⟨rfl, rfl⟩
  rw [hfg.name, hfg.slots, ← hfg.arity]
  split_ifs with harity
  · exact .throwBind
  · have hcount : ∀ f, P.first.functions[i.toNat]? = some f → f.arity = count := by
      intro f'' hf'
      rw [← Option.some.inj (hf.symm.trans hf')]
      exact not_not.1 harity
    refine Retraces.bindGet fun m n hmn => ?_
    rw [hmn.frames, hmn.frames', hlength]
    split_ifs
    · exact .throwBind
    · refine ((retraces_ensureRegs start g'.slots).bind fun _ _ =>
        retraces_pushFrame ⟨i, 0, start, dest⟩ ⟨j, 0, start, dest⟩).weaken ?_
        fun _ _ _ _ h => ⟨hcount, h⟩
      rintro s t ⟨rfl, rfl⟩
      exact hmn

/-- After a call, a primitive's result is there, or two functions that belong together have frames. -/
inductive AfterCall (P : Pairing) (C : Nat → Prop) (F G : List Frame) (start count dest : Nat)
    (m n : Machine) : Prop
  | result (h : m.Held P (fun c => C c ∨ c = dest) F G n)
  | frames {i j : UInt32} (hij : P.function i.toNat j.toNat)
    (hcount : ∀ f, P.first.functions[i.toNat]? = some f → f.arity = count)
    (h : m.Held P C (⟨i, 0, start, dest⟩ :: F) (⟨j, 0, start, dest⟩ :: G) n)

theorem retraces_call (hP : P.Lawful) {base a b c : Nat} (hlength : F.length = G.length)
    (hC : ∀ reg, b ≤ reg → reg ≤ b + c → C (base + reg)) :
    Retraces (FullFor P) (Held P C F G) (call base a b c) (call base a b c)
      (fun _ _ => AfterCall P C F G (base + b + 1) c (base + a)) := by
  refine (retraces_readReg (fun _ _ h => h) (hC b (Nat.le_refl _) (Nat.le_add_right _ _))).bind
    fun v w => ?_
  refine (retraces_checkArguments (fun _ _ h => h.1) _ _).bind fun _ _ => ?_
  have hargs : ∀ i < c, C (base + b + 1 + i) := by
    intro i hi
    rw [Nat.add_assoc, Nat.add_assoc]
    exact hC _ (by omega) (by omega)
  rintro m n x m' ⟨⟨hmn, hv⟩, hroom⟩ hcall
  by_cases hprim : v.kind = .primitive
  · have hw : v = w := hv.eq_of_kind (by simp [hprim]) (by simp [hprim])
    subst hw
    simp only [hprim] at hcall ⊢
    refine (retraces_callPrimitive hP _ hlength hargs m n x m' ⟨hmn, hroom⟩ hcall).imp_right ?_
    rintro ⟨y, n', hy, hmn'⟩
    exact ⟨y, n', hy, .result hmn'⟩
  · by_cases hfun : v.kind = .function
    · have hij := hv.function_related hfun
      simp only [← hv.kind_eq, hfun] at hcall ⊢
      obtain ⟨y, n', hy, hcount, hmn'⟩ :=
        (retraces_callFunction hP hij hlength _ _ _ m n x m' hmn hcall).resolve_left id
      exact .inr ⟨y, n', hy, .frames hij hcount hmn'⟩
    · cases hk : v.kind with
      | primitive => exact absurd hk hprim
      | function => exact absurd hk hfun
      | _ =>
        rw [hk] at hcall
        cases hcall

end ScriptMachine.Machine
