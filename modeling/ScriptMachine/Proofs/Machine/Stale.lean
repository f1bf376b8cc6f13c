import ScriptMachine.Proofs.Machine.Conduct
import ScriptMachine.Proofs.Machine.Owners

/-!
# Values that are nobody's

Two machines that differ in nothing but stack cells whose values are nobody's do the same, as long as
each instruction reads values of its own activation. What earlier activations have left on the stack,
and what fills new cells, is then without any effect.
-/

namespace ScriptMachine.Machine

open Bytecode

/-! ## Machines with the same cells -/

/-- Two machines at these frames that differ at most in cells of the stack outside `K`. -/
structure SameIn (K : Nat → Prop) (frames : List Frame) (m n : Machine) : Prop where
  frames : m.frames = frames
  stack : ∃ stack : Array Value, n = { m with stack } ∧ stack.size = m.stack.size ∧
    ∀ i, K i → stack[i]? = m.stack[i]?

/-- One result, and two such machines. -/
def Both {α : Type} (K : Nat → Prop) (frames : List Frame) (x y : α) (m n : Machine) : Prop :=
  x = y ∧ SameIn K frames m n

/-- Two such machines at some frames. -/
def SameAnywhere (K : Nat → Prop) (m n : Machine) : Prop :=
  ∃ frames, SameIn K frames m n

theorem SameIn.mono {K K' : Nat → Prop} {frames : List Frame} {m n : Machine}
    (h : SameIn K frames m n) (hK : ∀ i, K' i → K i) : SameIn K' frames m n := by
  obtain ⟨stack, hn, hsize, hcells⟩ := h.stack
  exact ⟨h.frames, stack, hn, hsize, fun i hi => hcells i (hK i hi)⟩

/-! ## Actions -/

/-- An action that does not look at the stack. -/
def Detached {α : Type} (act : Action α) : Prop :=
  ∀ K frames, Alongside never (SameIn K frames) act act (Both K frames) (SameAnywhere K)

theorem detached_liftFault {α : Type} (r : Except Fault α) : Detached (liftFault r) := by
  intro K frames m n h
  cases r with
  | ok x => exact .ok ⟨rfl, h⟩
  | error e => exact .error ⟨frames, h⟩

theorem detached_addValues (v w : Value) : Detached (addValues v w) := by
  rintro K frames m _ ⟨hframes, stack, rfl, hstack⟩
  unfold addValues
  dsimp only
  split_ifs
  · cases stringOperands m.heap v w with
    | ok strings => exact .ok ⟨rfl, hframes, stack, rfl, hstack⟩
    | error e => exact .error ⟨frames, hframes, stack, rfl, hstack⟩
  · exact detached_liftFault _ K frames _ _ ⟨hframes, stack, rfl, hstack⟩

theorem detached_binaryResult (op : Opcode) (v w : Value) : Detached (binaryResult op v w) := by
  rintro K frames m _ ⟨hframes, stack, rfl, hstack⟩
  unfold binaryResult
  cases op
  case add => exact detached_addValues v w K frames _ _ ⟨hframes, stack, rfl, hstack⟩
  case eq | notEq => exact .ok ⟨rfl, hframes, stack, rfl, hstack⟩
  all_goals exact detached_liftFault _ K frames _ _ ⟨hframes, stack, rfl, hstack⟩

theorem detached_globalValue (slot : Nat) : Detached (globalValue slot) := by
  rintro K frames m _ ⟨hframes, stack, rfl, hstack⟩
  unfold globalValue
  dsimp only
  cases m.pending[slot]? with
  | some v =>
    dsimp only
    split_ifs
    · exact .error ⟨frames, hframes, stack, rfl, hstack⟩
    · exact .ok ⟨rfl, hframes, stack, rfl, hstack⟩
  | none =>
    cases m.globals.get slot with
    | error e => exact .error ⟨frames, hframes, stack, rfl, hstack⟩
    | ok v =>
      dsimp only
      split_ifs
      · exact .error ⟨frames, hframes, stack, rfl, hstack⟩
      · exact .ok ⟨rfl, hframes, stack, rfl, hstack⟩

theorem detached_checkAssignable (slot : Nat) : Detached (checkAssignable slot) := by
  rintro K frames m _ ⟨hframes, stack, rfl, hstack⟩
  have hvalue := detached_globalValue slot K frames m _ ⟨hframes, stack, rfl, hstack⟩
  unfold checkAssignable
  dsimp only
  split_ifs
  · exact .ok ⟨rfl, hframes, stack, rfl, hstack⟩
  · generalize globalValue slot m = r at hvalue ⊢
    generalize globalValue slot { m with stack } = r' at hvalue ⊢
    cases hvalue with
    | ok h => exact .ok ⟨rfl, h.2⟩
    | error h => exact .error h
    | full h => exact h.elim

theorem detached_primitive (index : Nat) : Detached (primitive index) := by
  rintro K frames m _ ⟨hframes, stack, rfl, hstack⟩
  unfold primitive
  dsimp only
  cases m.primitives.lookup index with
  | ok p => exact .ok ⟨rfl, hframes, stack, rfl, hstack⟩
  | error e => exact .error ⟨frames, hframes, stack, rfl, hstack⟩

theorem detached_writeGlobal (slot : Nat) (v : Value) : Detached (writeGlobal slot v) := by
  rintro K frames m _ ⟨hframes, stack, rfl, hstack⟩
  exact .ok ⟨rfl, hframes, stack, rfl, hstack⟩

theorem detached_runNative (native : Native) (args : List Value) :
    Detached (runNative native args) := by
  rintro K frames m _ ⟨hframes, stack, rfl, hstack⟩
  unfold runNative
  dsimp only
  cases native args ⟨m.heap, m.sink, m.frames.length, m.primitives.count, m.primitives.name?⟩ with
  | ok v host => exact .ok ⟨rfl, hframes, stack, rfl, hstack⟩
  | error e host => exact .error ⟨frames, hframes, stack, rfl, hstack⟩

theorem detached_function (handle : UInt32) : Detached (function handle) := by
  rintro K frames m _ ⟨hframes, stack, rfl, hstack⟩
  unfold function
  dsimp only
  cases m.heap.function? handle with
  | some f => exact .ok ⟨rfl, hframes, stack, rfl, hstack⟩
  | none => exact .error ⟨frames, hframes, stack, rfl, hstack⟩

theorem detached_checkArguments (start count : Nat) : Detached (checkArguments start count) := by
  rintro K frames m _ ⟨hframes, stack, rfl, hsize, hcells⟩
  unfold checkArguments
  dsimp only
  rw [hsize]
  split_ifs
  · exact .error ⟨frames, hframes, stack, rfl, hsize, hcells⟩
  · exact .ok ⟨rfl, hframes, stack, rfl, hsize, hcells⟩

theorem detached_spendFuel : Detached spendFuel := by
  rintro K frames m _ ⟨hframes, stack, rfl, hstack⟩
  unfold spendFuel
  dsimp only
  cases m.fuel with
  | none => exact .ok ⟨rfl, hframes, stack, rfl, hstack⟩
  | some limit =>
    dsimp only
    split_ifs
    · exact .error ⟨frames, hframes, stack, rfl, hstack⟩
    · exact .ok ⟨rfl, hframes, stack, rfl, hstack⟩

section

variable {K : Nat → Prop} {frame : Frame} {frames rest : List Frame}

/-- A register in `K` is read. -/
theorem same_readReg {base reg : Nat} (h : K (base + reg)) :
    Alongside never (SameIn K frames) (readReg base reg) (readReg base reg) (Both K frames)
      (SameAnywhere K) := by
  rintro m _ ⟨hframes, stack, rfl, hsize, hcells⟩
  unfold readReg
  dsimp only
  rw [hcells _ h]
  cases m.stack[base + reg]? with
  | some v => exact .ok ⟨rfl, hframes, stack, rfl, hsize, hcells⟩
  | none => exact .error ⟨frames, hframes, stack, rfl, hsize, hcells⟩

/-- A cell that is written is the same afterwards. -/
theorem same_writeReg (base reg : Nat) (v : Value) :
    Alongside never (SameIn K frames) (writeReg base reg v) (writeReg base reg v)
      (Both (fun i => K i ∨ i = base + reg) frames) (SameAnywhere K) := by
  rintro m _ ⟨hframes, stack, rfl, hsize, hcells⟩
  unfold writeReg
  by_cases hcell : base + reg < m.stack.size
  · have hcell' : base + reg < stack.size := hsize ▸ hcell
    rw [dif_pos hcell, dif_pos hcell']
    refine .ok ⟨rfl, hframes, _, rfl, by simp only [Array.size_set, hsize], fun i hi => ?_⟩
    rw [Array.getElem?_set, Array.getElem?_set]
    split_ifs with heq
    · rfl
    · exact hcells i (hi.resolve_right (Ne.symm heq))
  · have hcell' : ¬ base + reg < stack.size := hsize ▸ hcell
    rw [dif_neg hcell, dif_neg hcell']
    exact .error ⟨frames, hframes, stack, rfl, hsize, hcells⟩

theorem same_jumpTo (ip : Nat) :
    Alongside never (SameIn K (frame :: rest)) (jumpTo ip) (jumpTo ip)
      (Both K ({ frame with ip } :: rest)) (SameAnywhere K) := by
  rintro m _ ⟨hframes, stack, rfl, hstack⟩
  unfold jumpTo
  dsimp only
  rw [hframes]
  exact .ok ⟨rfl, rfl, stack, rfl, hstack⟩

/-- A primitive that is called on cells in `K`. -/
theorem same_callPrimitive (index : Nat) {start count : Nat} (dest : Nat)
    (h : ∀ i, start ≤ i → i < start + count → K i) :
    Alongside never (SameIn K frames) (callPrimitive index start count dest)
      (callPrimitive index start count dest) (Both (fun i => K i ∨ i = dest) frames)
      (SameAnywhere K) := by
  refine (detached_primitive index K frames).bind fun p q => .assume ?_
  rintro rfl
  split_ifs
  · exact Alongside.bind (Q := fun _ _ _ _ => False)
      (Alongside.throw rfl fun _ _ h => ⟨frames, h⟩) fun _ _ _ _ h => h.elim
  · refine Alongside.bindGet ?_
    rintro m _ ⟨hframes, stack, rfl, hsize, hcells⟩
    have hargs : (stack.extract start (start + count)).toList =
        (m.stack.extract start (start + count)).toList := by
      congr 1
      refine Array.ext_getElem? fun i => ?_
      rw [Array.getElem?_extract, Array.getElem?_extract, hsize]
      split_ifs with hi
      · exact hcells _ (h _ (Nat.le_add_right _ _) (by omega))
      · rfl
    dsimp only
    rw [hargs]
    refine Alongside.weaken (P := SameIn K frames) ?_ ?_ fun _ _ _ _ h => h
    · refine (detached_runNative _ _ K frames).bind fun v v' => .assume ?_
      rintro rfl
      exact same_writeReg dest 0 v
    · rintro _ _ ⟨rfl, rfl⟩
      exact ⟨hframes, stack, rfl, hsize, hcells⟩

/-- A function that is called. -/
theorem same_callFunction (handle : UInt32) (start count dest : Nat) :
    Alongside never (SameIn K frames) (callFunction handle start count dest)
      (callFunction handle start count dest) (Both K (⟨handle, 0, start, dest⟩ :: frames))
      (SameAnywhere K) := by
  have hstop : ∀ (e : Fault) (next : Unit → Action Unit),
      Alongside never (SameIn K frames) (throw e >>= next) (throw e >>= next)
        (Both K (⟨handle, 0, start, dest⟩ :: frames)) (SameAnywhere K) :=
    fun e next => Alongside.bind (Q := fun _ _ _ _ => False)
      (Alongside.throw rfl fun _ _ h => ⟨frames, h⟩) fun _ _ _ _ h => h.elim
  refine (detached_function handle K frames).bind fun f g => .assume ?_
  rintro rfl
  split_ifs
  · exact hstop _ _
  · refine Alongside.bindGet ?_
    rintro m _ ⟨hframes, stack, rfl, hsize, hcells⟩
    refine Alongside.weaken (P := SameIn K frames) ?_ ?_ fun _ _ _ _ h => h
    · dsimp only
      split_ifs
      · exact hstop _ _
      · refine Alongside.bind (Q := Both K frames) ?_ fun _ _ => .assume fun _ => ?_
        · rintro m _ ⟨hframes, stack, rfl, hsize, hcells⟩
          rw [ensureRegs_eq, ensureRegs_eq]
          split_ifs
          · exact .error ⟨frames, hframes, stack, rfl, hsize, hcells⟩
          · refine .ok ⟨rfl, hframes, _, rfl, by simp only [Array.size_append, hsize], fun i hi => ?_⟩
            simp only [Array.getElem?_append, hsize]
            rw [hcells i hi]
        · rintro m _ ⟨hframes, stack, rfl, hstack⟩
          exact .ok ⟨rfl, congrArg _ hframes, stack, rfl, hstack⟩
    · rintro _ _ ⟨rfl, rfl⟩
      exact ⟨hframes, stack, rfl, hsize, hcells⟩

end

/-! ## Steps -/

/-- The action ends in machines that are the same in cells for which, with the frames that are left,
`Q` holds; or it fails in both. -/
def Tells (K : Nat → Prop) (frames : List Frame) (act : Action (Option Value))
    (Q : List Frame → (Nat → Prop) → Prop) : Prop :=
  Alongside never (SameIn K frames) act act
    (fun x y m n => x = y ∧ ∃ after K', Q after K' ∧ SameIn K' after m n) (SameAnywhere K)

section

variable {K : Nat → Prop} {frame : Frame} {frames rest : List Frame} {act : Action (Option Value)}
  {Q : List Frame → (Nat → Prop) → Prop}

theorem Tells.after {α : Type} {first : Action α} {next : α → Action (Option Value)}
    (hfirst : Alongside never (SameIn K frames) first first (Both K frames) (SameAnywhere K))
    (hnext : ∀ x, Tells K frames (next x) Q) : Tells K frames (first >>= next) Q :=
  hfirst.bind fun x _ => .assume fun hxy => hxy ▸ hnext x

theorem tells_none (h : Q frames K) : Tells K frames (return none) Q :=
  Alongside.pure fun _ _ hmn => ⟨rfl, frames, K, h, hmn⟩

theorem tells_throw (e : Fault) {next : Unit → Action (Option Value)} :
    Tells K frames ((throw e : Action Unit) >>= next) Q :=
  Alongside.bind (Q := fun _ _ _ _ => False) (Alongside.throw rfl fun _ _ h => ⟨frames, h⟩)
    fun _ _ _ _ h => h.elim

theorem tells_writeReg {base reg : Nat} {v : Value} (h : Q frames fun i => K i ∨ i = base + reg) :
    Tells K frames (do writeReg base reg v; return none) Q :=
  (same_writeReg base reg v).bind fun _ _ => .pure fun _ _ hmn => ⟨rfl, frames, _, h, hmn.2⟩

theorem tells_jumpTo {ip : Nat} (h : Q ({ frame with ip } :: rest) K) :
    Tells K (frame :: rest) (do jumpTo ip; return none) Q :=
  (same_jumpTo ip).bind fun _ _ => .pure fun _ _ hmn => ⟨rfl, _, K, h, hmn.2⟩

theorem tells_leaveFrame {v : Value} (hlast : rest = [] → Q [] K)
    (hreturn : Q rest fun i => K i ∨ i = frame.dest) :
    Tells K (frame :: rest) (leaveFrame v) Q := by
  rintro m _ ⟨hframes, stack, rfl, hstack⟩
  unfold leaveFrame
  dsimp only
  rw [hframes]
  cases rest with
  | nil => exact .ok ⟨rfl, [], K, hlast rfl, rfl, stack, rfl, hstack⟩
  | cons next others =>
    have hwrite := same_writeReg (K := K) frame.dest 0 v { m with frames := next :: others }
      { m with stack, frames := next :: others } ⟨rfl, stack, rfl, hstack⟩
    dsimp only
    generalize writeReg frame.dest 0 v { m with frames := next :: others } = r at hwrite ⊢
    generalize writeReg frame.dest 0 v { m with stack, frames := next :: others } = r' at hwrite ⊢
    cases hwrite with
    | ok h => exact .ok ⟨rfl, _, _, hreturn, h.2⟩
    | error h => exact .error h
    | full h => exact h.elim

/-- A call whose callee and arguments are in `K`. -/
theorem tells_call {base a b c : Nat} (hreads : ∀ reg, b ≤ reg → reg ≤ b + c → K (base + reg))
    (hwrite : Q frames fun i => K i ∨ i = base + a)
    (hcall : ∀ handle, Q (⟨handle, 0, base + b + 1, base + a⟩ :: frames) K) :
    Tells K frames (do call base a b c; return none) Q := by
  refine Alongside.bind (Q := fun _ _ m n => ∃ after K', Q after K' ∧ SameIn K' after m n) ?_
    fun _ _ => .pure fun _ _ hmn => ⟨rfl, hmn⟩
  refine (same_readReg (hreads b (Nat.le_refl _) (Nat.le_add_right _ _))).bind fun v w => .assume ?_
  rintro rfl
  refine (detached_checkArguments _ _ K frames).bind fun _ _ => .assume fun _ => ?_
  cases v.kind
  case primitive =>
    refine (same_callPrimitive _ (base + a) fun i hle hlt => ?_).weaken (fun _ _ h => h)
      fun _ _ _ _ h => ⟨_, _, hwrite, h.2⟩
    have hreg := hreads (i - base) (by omega) (by omega)
    rwa [Nat.add_sub_of_le (by omega)] at hreg
  case function =>
    exact (same_callFunction _ _ _ _).weaken (fun _ _ h => h)
      fun _ _ _ _ h => ⟨_, _, hcall _, h.2⟩
  all_goals exact Alongside.throw rfl fun _ _ h => ⟨frames, h⟩

end

/-- The cells whose values are somebody's. -/
def Owners.known (o : Owners) (i : Nat) : Prop :=
  (o i).isSome = true

theorem Owners.known_give {o : Owners} {start count depth i : Nat}
    (h : (o.give start count depth).known i) : o.known i ∨ start ≤ i ∧ i < start + count := by
  unfold Owners.known Owners.give at h
  split_ifs at h with hi
  · exact .inr hi
  · exact .inl h

theorem Owners.known_give_one {o : Owners} {start depth i : Nat}
    (h : (o.give start 1 depth).known i) : o.known i ∨ i = start :=
  (known_give h).imp_right fun hi => by omega

theorem Owners.known_release {o : Owners} {depth i : Nat} (h : (o.release depth).known i) :
    o.known i := by
  unfold Owners.known Owners.release at h
  split_ifs at h
  · cases h
  · exact h

section

variable {m : Machine} {o : Owners} {f : Function} {frame : Frame} {rest : List Frame} {w : Word}
  {op : Opcode}

theorem known_of_finish (hframes : m.frames = [frame]) :
    ∀ i, (o.next m []).known i → o.known i := by
  intro i h
  rw [next_of_finish hframes] at h
  exact Owners.known_release h

theorem known_of_return (hframes : m.frames = frame :: rest) :
    ∀ i, (o.next m rest).known i → o.known i ∨ i = frame.dest := by
  intro i h
  cases rest with
  | nil => exact .inl (known_of_finish hframes i h)
  | cons below others =>
    rw [next_of_return hframes] at h
    exact (Owners.known_give_one h).imp_left Owners.known_release

/-- An instruction that reads values of its own activation does the same whatever the values are that
are nobody's. Afterwards the machines are the same in all cells whose values are somebody's. -/
theorem tells_perform (hframes : m.frames = frame :: rest)
    (hf : m.heap.function? frame.function = some f) (hw : f.code[frame.ip]? = some w)
    (hop : w.opcode? = some op) (hreads : ∀ reg, op.Reads w reg → o.known (frame.base + reg)) :
    Tells o.known ({ frame with ip := frame.ip + 1 } :: rest) (perform f frame.base op w)
      fun after K => ∀ i, (o.next m after).known i → K i := by
  have hi := instruction?_eq hframes hf hw hop
  have hmove : ∀ {ip}, ¬ op.Writes w w.a → ∀ i, (o.next m ({ frame with ip } :: rest)).known i →
      o.known i := by
    intro ip hwrites i h
    rwa [next_of_move hframes hi hwrites rfl] at h
  have hwrite : op.Writes w w.a → ∀ {ip} i, (o.next m ({ frame with ip } :: rest)).known i →
      o.known i ∨ i = frame.base + w.a := by
    intro hwrites ip i h
    rw [next_of_write hframes hi hwrites rfl] at h
    exact Owners.known_give_one h
  have hread : ∀ reg, op.Reads w reg →
      Alongside never (SameIn o.known ({ frame with ip := frame.ip + 1 } :: rest))
        (readReg frame.base reg) (readReg frame.base reg)
        (Both o.known ({ frame with ip := frame.ip + 1 } :: rest)) (SameAnywhere o.known) :=
    fun reg h => same_readReg (hreads reg h)
  cases op with
  | loadConst =>
    simp only [perform]
    cases f.constants[w.bx]? with
    | some v => exact tells_writeReg (hwrite rfl)
    | none => exact tells_throw _
  | loadTrue | loadFalse | loadNil => exact tells_writeReg (hwrite rfl)
  | move => exact .after (hread _ rfl) fun v => tells_writeReg (hwrite rfl)
  | neg | logNot =>
    exact .after (hread _ rfl) fun v => .after (detached_liftFault _ _ _) fun x =>
      tells_writeReg (hwrite rfl)
  | add | sub | mul | div | mod | eq | notEq | lt | le | gt | ge =>
    exact .after (hread _ (.inl rfl)) fun v => .after (hread _ (.inr rfl)) fun x =>
      .after (detached_binaryResult _ _ _ _ _) fun y => tells_writeReg (hwrite rfl)
  | jump => exact tells_jumpTo (hmove id)
  | jumpIfFalse | jumpIfTrue =>
    refine .after (hread _ rfl) fun v => ?_
    split_ifs
    · exact tells_jumpTo (hmove id)
    · exact tells_none (hmove id)
  | getGlobal => exact .after (detached_globalValue _ _ _) fun v => tells_writeReg (hwrite rfl)
  | setGlobal =>
    exact .after (detached_checkAssignable _ _ _) fun _ => .after (hread _ rfl) fun v =>
      .after (detached_writeGlobal _ v _ _) fun _ => tells_none (hmove id)
  | defGlobal =>
    exact .after (hread _ rfl) fun v => .after (detached_writeGlobal _ v _ _) fun _ =>
      tells_none (hmove id)
  | getPrim => exact .after (detached_primitive _ _ _) fun _ => tells_writeReg (hwrite rfl)
  | call =>
    refine tells_call (fun reg hle hlt => hreads reg ⟨hle, hlt⟩) (hwrite rfl) fun handle i h => ?_
    rw [next_of_call hframes hi rfl] at h
    refine (Owners.known_give h).elim id fun hargs => ?_
    have hreg := hreads (i - frame.base) ⟨by omega, by omega⟩
    rwa [Nat.add_sub_of_le (by omega)] at hreg
  | ret =>
    have hreturn := known_of_return (o := o) hframes
    refine .after (hread _ rfl) fun v => tells_leaveFrame ?_ hreturn
    rintro rfl
    exact known_of_finish hframes

/-- After a step whose action tells the same, machines are the same in what is then somebody's. -/
theorem Tells.step {K : Nat → Prop} {frames : List Frame} {act : Action (Option Value)}
    {m' n' : Machine}
    (h : Tells K frames act fun after K' => ∀ i, (o.next m after).known i → K' i)
    (hsame : SameIn K frames m' n') :
    Matched never (fun x y m' n' => x = y ∧ SameIn (o.next m m'.frames).known m'.frames m' n')
      (SameAnywhere K) (act m') (act n') := by
  refine Alongside.weaken h (fun _ _ h => h) ?_ m' n' hsame
  rintro x y s t ⟨hxy, after, K', hK', hst⟩
  refine ⟨hxy, ?_⟩
  rw [hst.frames]
  exact hst.mono hK'

/-- A step that reads values of its own activation does the same whatever the values are that are
nobody's. -/
theorem same_step (hreads : ReadsOwn o m) {n : Machine} (hsame : SameIn o.known m.frames m n) :
    Matched never (fun x y m' n' => x = y ∧ SameIn (o.next m m'.frames).known m'.frames m' n')
      (SameAnywhere o.known) (step m) (step n) := by
  obtain ⟨-, stack, hn, hstack⟩ := hsame
  have hnframes : n.frames = m.frames := by rw [hn]
  have hnheap : n.heap = m.heap := by rw [hn]
  unfold step
  rw [hnframes, hnheap]
  cases hframes : m.frames with
  | nil =>
    have hnext : o.next m m.frames = o := by
      unfold Owners.next
      rw [hframes]
    refine .ok ⟨rfl, ?_⟩
    rw [hnext]
    exact ⟨rfl, stack, hn, hstack⟩
  | cons frame rest =>
    have hstart : SameIn o.known (frame :: rest) m n := ⟨hframes, stack, hn, hstack⟩
    dsimp only
    cases hf : m.heap.function? frame.function with
    | none => exact .error ⟨_, hstart⟩
    | some f =>
      dsimp only
      cases hw : f.code[frame.ip]? with
      | none =>
        have hlast : rest = [] → ∀ i, (o.next m []).known i → o.known i := by
          rintro rfl
          exact known_of_finish hframes
        exact (tells_leaveFrame hlast (known_of_return hframes)).step hstart
      | some w =>
        have hcount := ((same_jumpTo (frame.ip + 1)).bind fun _ _ => .assume fun _ =>
          detached_spendFuel _ _) m n hstart
        dsimp only
        generalize (do jumpTo (frame.ip + 1); spendFuel : Action Unit) m = r at hcount ⊢
        generalize (do jumpTo (frame.ip + 1); spendFuel : Action Unit) n = r' at hcount ⊢
        cases hcount with
        | error h => exact .error h
        | full h => exact h.elim
        | ok h =>
          dsimp only
          cases hop : Word.opcode? w with
          | none => exact .error ⟨_, h.2⟩
          | some op =>
            have hown : ∀ reg, op.Reads w reg → o.known (frame.base + reg) := by
              intro reg hreg
              unfold Owners.known
              rw [hreads frame rest op w hframes (instruction?_eq hframes hf hw hop) reg hreg]
              rfl
            exact (tells_perform hframes hf hw hop hown).step h.2

end

/-! ## Runs -/

section

variable {m₀ m m' n : Machine} {o : Owners}

/-- A run from `m₀`, and beside it one in which at any time values that are nobody's may be replaced by
others. -/
inductive Disturbed (m₀ : Machine) : Machine → Owners → Machine → Prop
  | start : Disturbed m₀ m₀ (fun _ => none) m₀
  | step {m m' n n' : Machine} {o : Owners} (h : Disturbed m₀ m o n)
    (hm : Machine.step m = .ok none m') (hn : Machine.step n = .ok none n') :
    Disturbed m₀ m' (o.next m m'.frames) n'
  | replace {m n n' : Machine} {o : Owners} (h : Disturbed m₀ m o n)
    (hsame : SameIn o.known n.frames n n') : Disturbed m₀ m o n'

/-- The disturbed run stays the same as the other in all values that are somebody's. -/
theorem Disturbed.same (hreads : ∀ m o, Reaches m₀ m o → ReadsOwn o m) (h : Disturbed m₀ m o n) :
    Reaches m₀ m o ∧ SameIn o.known m.frames m n := by
  induction h with
  | start => exact ⟨.start, rfl, m₀.stack, rfl, rfl, fun _ _ => rfl⟩
  | step _ hm hn ih =>
    have hstep := same_step (hreads _ _ ih.1) ih.2
    rw [hm, hn] at hstep
    cases hstep with
    | ok hok => exact ⟨.step ih.1 hm, hok.2⟩
    | full hf => exact hf.elim
  | replace _ hsame ih =>
    obtain ⟨-, stack, rfl, hsize, hcells⟩ := ih.2
    obtain ⟨-, stack', rfl, hsize', hcells'⟩ := hsame
    exact ⟨ih.1, rfl, stack', rfl, hsize'.trans hsize,
      fun i hi => (hcells' i hi).trans (hcells i hi)⟩

end

end ScriptMachine.Machine
