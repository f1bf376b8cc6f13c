import ScriptMachine.Proofs.Simulation.Trees
import Mathlib.Data.List.Nodup

/-!
# Calls

A call of the machine does what the call of a datum does: a primitive follows its routine, and the
code of a function computes the function's body from its arguments, and then returns. The proof is by
induction on the fuel, which bounds the depth of the calls.
-/

namespace ScriptMachine.Simulation

open Bytecode Compile Evaluation

variable {σ : Slots} {n k : Nat} {A : Activation} {C : Coding} {sc : Scope} {t i : Nat} {s : Store}
  {m o : Machine} {f : Datum} {ds : List Datum}

/-! ## Arguments -/

/-- The cells of the arguments stand for them. -/
theorem forall₂_arguments {start : Nat}
    (hvalues : ∀ (x : Nat) (d : Datum), ds[x]? = some d →
      ∃ v, o.stack[start + x]? = some v ∧ Stands σ n o.heap v d)
    (hroom : start + ds.length ≤ o.stack.size) :
    List.Forall₂ (Stands σ n o.heap) (o.stack.extract start (start + ds.length)).toList ds := by
  rw [List.forall₂_iff_get]
  refine ⟨?_, fun x h₁ h₂ => ?_⟩
  · simp only [Array.length_toList, Array.size_extract]
    omega
  · obtain ⟨v, hv, hd⟩ := hvalues x ds[x] (List.getElem?_eq_getElem h₂)
    obtain ⟨hlt, hget⟩ := Array.getElem?_eq_some_iff.1 hv
    simp only [List.get_eq_getElem, Array.getElem_toList, Array.getElem_extract, hget]
    exact hd

/-- Parameters are the first registers of a function. -/
theorem forall₂_params {P : String × Datum → String × Nat → Prop} {params : List String}
    (hlength : params.length = ds.length)
    (hP : ∀ x name d, params[x]? = some name → ds[x]? = some d → P (name, d) (name, x)) :
    List.Forall₂ P (params.zip ds).reverse params.zipIdx.reverse := by
  rw [List.forall₂_reverse_iff, List.forall₂_iff_get]
  refine ⟨by simp [hlength], fun x h₁ h₂ => ?_⟩
  simp only [List.length_zip] at h₁
  simp only [List.get_eq_getElem, List.getElem_zip, List.getElem_zipIdx, Nat.zero_add]
  exact hP x _ _ (List.getElem?_eq_getElem _) (List.getElem?_eq_getElem _)

/-! ## Primitives -/

theorem yields_native {p : Primitive} {routine : Routine} (hp : Follows p routine)
    {args : List Value} (hargs : List.Forall₂ (Stands σ n o.heap) args ds)
    (hprimitives : o.primitives = .standard) :
    Yields σ n o (Machine.runNative p.run args o) (routine ds o.sink) := by
  have h := hp σ n args ds ⟨o.heap, o.sink, o.frames.length, o.primitives.count,
    o.primitives.name?⟩ hargs (by rw [hprimitives])
  unfold Machine.runNative
  dsimp only at h ⊢
  generalize p.run args _ = result at h ⊢
  generalize routine ds o.sink = result' at h ⊢
  cases h with
  | ok hadd hd => exact .ok hadd hd
  | error he => exact .error he

/-- A primitive on its arguments, whose number is checked first. -/
def checkedNative (p : Primitive) (args : List Value) (count : Nat) : Action Value :=
  if p.accepts count then Machine.runNative p.run args
  else throw (.primitiveArity p.name p.arity count)

theorem callPrimitive_eq {index start dest : Nat} {p : Primitive}
    (hp : o.primitives.entries[index]? = some p) (count : Nat) :
    Machine.callPrimitive index start count dest o =
      (checkedNative p (o.stack.extract start (start + count)).toList count >>=
        fun v => Machine.writeReg dest 0 v) o := by
  have hprimitive : Machine.primitive index o = .ok p o := by
    unfold Machine.primitive Registry.lookup
    rw [hp]
  unfold Machine.callPrimitive checkedNative
  rw [Machine.bind_of_ok hprimitive]
  by_cases haccepts : p.accepts count = true
  · simp only [haccepts, Bool.not_true, Bool.false_eq_true, if_false, if_true]
    rfl
  · have hfalse : p.accepts count = false := by simpa using haccepts
    simp only [hfalse, Bool.not_false, if_true, Bool.false_eq_true, if_false]
    rfl

/-- What follows an action depends on how the action ends. -/
theorem bind_congr {α β : Type} {act act' : Action α} (next : α → Action β)
    (h : act o = act' o) : (act >>= next) o = (act' >>= next) o := by
  show EStateM.bind act next o = EStateM.bind act' next o
  unfold EStateM.bind
  rw [h]

/-- The call instruction, by the kind of its callee. -/
theorem perform_call {g : Function} {b count : Nat} {v : Value} (ht : t < 256) (hb : b < 256)
    (hc : count < 256) (hv : o.stack[A.base + b]? = some v)
    (hroom : A.base + b + 1 + count ≤ o.stack.size) :
    (v.kind = .primitive → Machine.perform g A.base .call (.abc .call t b count) o =
      (Machine.callPrimitive v.handle.toNat (A.base + b + 1) count (A.base + t) >>=
        fun _ => pure none : Action (Option Value)) o) ∧
    (v.kind = .function → Machine.perform g A.base .call (.abc .call t b count) o =
      (Machine.callFunction v.handle (A.base + b + 1) count (A.base + t) >>=
        fun _ => pure none : Action (Option Value)) o) ∧
    (v.kind ≠ .primitive → v.kind ≠ .function →
      Machine.perform g A.base .call (.abc .call t b count) o = .error (.notCallable v.kind) o) := by
  have hcheck : Machine.checkArguments (A.base + b + 1) count o = .ok () o := by
    unfold Machine.checkArguments
    rw [if_neg (by omega)]
  have hread := Machine.readReg_eq hv
  simp only [Machine.perform, Machine.call, Word.a_abc _ ht, Word.b_abc _ hb, Word.c_abc _ hc,
    bind_assoc]
  rw [Machine.bind_of_ok hread, Machine.bind_of_ok hcheck]
  refine ⟨fun hk => by rw [hk], fun hk => by rw [hk], fun hp hf => ?_⟩
  generalize v.kind = kind at hp hf
  cases kind with
  | primitive => exact absurd rfl hp
  | function => exact absurd rfl hf
  | _ => rfl

namespace AtCall

theorem target_lt (h : AtCall σ n A C sc t i s m f ds) : t < 256 := by
  have htop := h.top
  have hlt := h.spare.1
  omega

theorem count_lt (h : AtCall σ n A C sc t i s m f ds) : ds.length < 256 :=
  Nat.lt_of_le_of_lt h.few (by decide)

theorem room (h : AtCall σ n A C sc t i s m f ds) :
    A.base + sc.top + 1 + ds.length ≤ m.stack.size := by
  have hroom := h.here.room
  have hslots := h.slots
  omega

/-- The machine that has moved past the call finds the same callee and arguments. -/
theorem perform (h : AtCall σ n A C sc t i s m f ds) {v : Value}
    (hv : m.stack[A.base + sc.top]? = some v) (hstack : o.stack = m.stack) (g : Function) :
    (v.kind = .primitive → Machine.perform g A.base .call (.abc .call t sc.top ds.length) o =
      (Machine.callPrimitive v.handle.toNat (A.base + sc.top + 1) ds.length (A.base + t) >>=
        fun _ => pure none : Action (Option Value)) o) ∧
    (v.kind = .function → Machine.perform g A.base .call (.abc .call t sc.top ds.length) o =
      (Machine.callFunction v.handle (A.base + sc.top + 1) ds.length (A.base + t) >>=
        fun _ => pure none : Action (Option Value)) o) ∧
    (v.kind ≠ .primitive → v.kind ≠ .function →
      Machine.perform g A.base .call (.abc .call t sc.top ds.length) o =
        .error (.notCallable v.kind) o) := by
  rw [← hstack] at hv
  exact perform_call h.target_lt (Nat.lt_succ_of_lt h.top) h.count_lt hv (hstack ▸ h.room)

theorem argument (h : AtCall σ n A C sc t i s m f ds) (hheap : o.heap = m.heap)
    (hstack : o.stack = m.stack) (x : Nat) (d : Datum) (hx : ds[x]? = some d) :
    Reg σ n A o (sc.top + 1 + x) d := by
  refine (h.arguments x d hx).grows ?_ (by rw [hstack])
  rw [hheap]
  exact .refl _

end AtCall

/-- Calling a primitive follows its routine. -/
theorem simulates_callPrimitive {R : Datum → Store → Machine → Prop} {index : Nat}
    (h : AtCall σ n A C sc t i s m (.primitive index) ds) :
    Simulates k m (runRoutine (callPrimitive index ds) s) (Computed σ n A C sc t (i + 1) m) R := by
  obtain ⟨v, hv, hvf⟩ := h.callee
  cases hvf with
  | @primitive index hindex =>
  have hlt : index.toNat < Registry.standard.entries.size := hindex
  have hp : Registry.standard.entries[index.toNat]? = some Registry.standard.entries[index.toNat] :=
    Array.getElem?_eq_getElem hlt
  have hroutine : routines[index.toNat]? = some routines[index.toNat] :=
    List.getElem?_eq_getElem hindex
  have hfollows : Follows Registry.standard.entries[index.toNat] routines[index.toNat] :=
    (List.forall₂_iff_get.1 follows_standard).2 index.toNat hlt hindex
  generalize Registry.standard.entries[index.toNat] = p at hp hfollows
  generalize routines[index.toNat] = routine at hroutine hfollows
  have hcall : callPrimitive index.toNat ds =
      if p.accepts ds.length then routine ds
      else throw (.primitiveArity p.name p.arity ds.length) := by
    unfold callPrimitive
    rw [hp, hroutine]
  have hwrite : Writes (A.base + t) fun v => (do
      Machine.writeReg (A.base + t) 0 v
      return none) := writes_writeReg (A.base + t) 0
  rw [hcall]
  refine simulates_routine h.here h.scope h.spare h.call (Word.opcode?_abc _ _ _ _) hwrite
    fun g o hheap hstack ho => ?_
  have hp' : o.primitives.entries[index.toNat]? = some p := by
    rw [ho.matched.primitives]
    exact hp
  refine ⟨checkedNative p (o.stack.extract (A.base + sc.top + 1)
    (A.base + sc.top + 1 + ds.length)).toList ds.length, ?_, ?_⟩
  · unfold checkedNative
    by_cases haccepts : p.accepts ds.length = true
    · rw [if_pos haccepts, if_pos haccepts]
      refine yields_native hfollows (forall₂_arguments (fun x d hx => ?_) (hstack ▸ h.room))
        ho.matched.primitives
      obtain ⟨v, hv, hd⟩ := h.argument hheap hstack x d hx
      exact ⟨v, by rwa [show A.base + sc.top + 1 + x = A.base + (sc.top + 1 + x) by omega], hd⟩
    · rw [if_neg haccepts, if_neg haccepts]
      exact .error trivial
  · rw [(h.perform hv hstack g).1 (Value.kind_primitive index), Value.handle_primitive,
      bind_congr _ (callPrimitive_eq hp' ds.length), bind_assoc]

/-! ## Functions -/

/-- A frame is given its registers and pushed, if there is room for both. -/
theorem callFunction_eq {handle : UInt32} (start dest : Nat) {g : Function}
    (hg : o.heap.function? handle = some g) :
    Machine.callFunction handle start g.arity dest o = .error .stackOverflow o ∨
      ∃ extra, start + g.slots ≤ (o.stack ++ extra).size ∧
        Machine.callFunction handle start g.arity dest o =
          .ok () { o with stack := o.stack ++ extra, frames := ⟨handle, 0, start, dest⟩ :: o.frames } := by
  have hfunction : Machine.function handle o = .ok g o := by
    unfold Machine.function
    rw [hg]
  unfold Machine.callFunction
  rw [Machine.bind_of_ok hfunction, if_neg (not_not.2 rfl)]
  by_cases hframes : o.frames.length ≥ frameLimit
  · refine .inl ?_
    show (if o.frames.length ≥ frameLimit then _ else _ : Action Unit) o = _
    rw [if_pos hframes]
    rfl
  · show (if o.frames.length ≥ frameLimit then _ else _ : Action Unit) o = _ ∨
      ∃ extra, _ ∧ (if o.frames.length ≥ frameLimit then _ else _ : Action Unit) o = _
    rw [if_neg hframes]
    show EStateM.bind (Machine.ensureRegs start g.slots) _ o = _ ∨
      ∃ extra, _ ∧ EStateM.bind (Machine.ensureRegs start g.slots) _ o = _
    unfold EStateM.bind
    by_cases hlimit : start + g.slots > stackLimit
    · refine .inl ?_
      rw [show Machine.ensureRegs start g.slots o = .error .stackOverflow o by
        rw [Machine.ensureRegs, if_pos hlimit]]
    · refine .inr ?_
      by_cases hmissing : start + g.slots - o.stack.size = 0
      · refine ⟨#[], by rw [Array.append_empty]; omega, ?_⟩
        rw [show Machine.ensureRegs start g.slots o = .ok () o by
          rw [Machine.ensureRegs, if_neg hlimit]
          simp only [hmissing, if_true], Array.append_empty]
        rfl
      · refine ⟨Array.replicate (start + g.slots - o.stack.size) Value.nil, ?_, ?_⟩
        · rw [Array.size_append, Array.size_replicate]
          omega
        · rw [show Machine.ensureRegs start g.slots o = .ok () { o with
              stack := o.stack ++ Array.replicate (start + g.slots - o.stack.size) Value.nil } by
            rw [Machine.ensureRegs, if_neg hlimit]
            simp only [if_neg hmissing]]
          rfl

theorem callFunction_arity {handle : UInt32} {start count dest : Nat} {g : Function}
    (hg : o.heap.function? handle = some g) (hcount : g.arity ≠ count) :
    Machine.callFunction handle start count dest o =
      .error (.functionArity g.name g.arity count) o := by
  have hfunction : Machine.function handle o = .ok g o := by
    unfold Machine.function
    rw [hg]
  unfold Machine.callFunction
  rw [Machine.bind_of_ok hfunction, if_pos hcount]
  rfl

/-- The activation of a callee whose arguments begin above the register `top` of its caller. The
caller goes on at the instruction after `i`, with the result in its register `t`. -/
def Activation.callee (A : Activation) (handle : UInt32) (top i t : Nat) (stack : Array Value) :
    Activation :=
  ⟨handle, A.base + top + 1, A.base + t, A.frame (i + 1) :: A.callers, stack⟩

/-- When a callee has returned, its caller is where it was, with the result in its target. -/
theorem Returned.resume {handle : UInt32} {d : Datum} {s' : Store} {o' : Machine}
    (h : Returned σ n (A.callee handle sc.top i t o.stack) d s' o') (hsc : sc.InOrder C)
    (ht : sc.Spare t) (ho : Here σ n A C sc (i + 1) s o) (hheap : o.heap = m.heap)
    (hstack : o.stack = m.stack) (hgrows : o.heap.Grows o'.heap) :
    Computed σ n A C sc t (i + 1) m d { s' with locals := s.locals } o' := by
  have hcell : ∀ r < sc.top, r ≠ t → o'.stack[A.base + r]? = o.stack[A.base + r]? := by
    intro r hr hne
    refine h.below (A.base + r) ?_ ?_
    · show A.base + r < A.base + sc.top + 1
      omega
    · show A.base + r ≠ A.base + t
      omega
  have hsize : o.stack.size ≤ o'.stack.size := h.size_le
  refine ⟨⟨h.frames, ?_, Nat.le_trans ho.room hsize, ?_, Nat.le_trans ho.size_le hsize, ?_, ?_⟩,
    h.value, ⟨?_, fun r hr hne _ => ?_⟩⟩
  · obtain ⟨g, hg, hC⟩ := ho.code
    exact ⟨g, hgrows.function? hg, hC.grows hgrows⟩
  · refine forall₂_imp_mem ho.locals fun x y hy hxy => ⟨hxy.1, hxy.2.grows hgrows ?_⟩
    exact hcell y.2 (hsc.regs y hy) (ht.2 y hy)
  · intro cell hlt
    rw [h.below cell ?_ ?_]
    · exact ho.below cell hlt
    · show cell < A.base + sc.top + 1
      omega
    · show cell ≠ A.base + t
      omega
  · exact ⟨h.matched.sink, h.matched.primitives, h.matched.globals, h.matched.bound⟩
  · rw [← hheap]
    exact hgrows
  · rw [hcell r hr hne, hstack]

/-- A callee that has just been entered finds its arguments in its first registers. -/
theorem here_callee {handle : UInt32} {g : Function} {f : Closure} {C' : Coding} {extra : Array Value}
    (ho : Here σ n A C sc (i + 1) s o) (hslots : sc.top + ds.length < C.slots)
    (hvalues : ∀ (x : Nat) (d : Datum), ds[x]? = some d → Reg σ n A o (sc.top + 1 + x) d)
    (hg : o.heap.function? handle = some g) (hC' : Has o.heap g C')
    (hlength : f.params.length = ds.length)
    (hroom : A.base + sc.top + 1 + g.slots ≤ (o.stack ++ extra).size) :
    Here σ n (A.callee handle sc.top i t o.stack) C' (paramScope f.params) 0
      { s with locals := (f.params.zip ds).reverse }
      { o with
        stack := o.stack ++ extra
        frames := ⟨handle, 0, A.base + sc.top + 1, A.base + t⟩ :: o.frames } := by
  have hfits : A.base + sc.top + 1 + ds.length ≤ o.stack.size := by
    have := ho.room
    omega
  have hframes : o.frames = A.frame (i + 1) :: A.callers := ho.frames
  refine ⟨?_, ⟨g, hg, hC'⟩, ?_, ?_, ?_, ?_, ?_⟩
  · show _ :: o.frames = _
    rw [hframes]
    rfl
  · show A.base + sc.top + 1 + C'.slots ≤ _
    rw [← hC'.slots]
    exact hroom
  · refine forall₂_params hlength fun x name d hx hd => ⟨rfl, ?_⟩
    obtain ⟨v, hv, hvd⟩ := hvalues x d hd
    refine ⟨v, ?_, hvd⟩
    have hlt := (List.getElem?_eq_some_iff.1 hd).1
    show (o.stack ++ extra)[A.base + sc.top + 1 + x]? = some v
    rw [Array.getElem?_append_left (by omega), ← hv]
    congr 1
    omega
  · show o.stack.size ≤ (o.stack ++ extra).size
    rw [Array.size_append]
    omega
  · intro cell hcell
    have hcell' : cell < A.base + sc.top + 1 := hcell
    show (o.stack ++ extra)[cell]? = o.stack[cell]?
    rw [Array.getElem?_append_left (by omega)]
  · exact ⟨ho.matched.sink, ho.matched.primitives, ho.matched.globals, ho.matched.bound⟩

/-- A body whose run returns, whether at its end or before, has been entered and left. -/
theorem simulates_enter {B : Activation} {R : Datum → Store → Machine → Prop} {body : Eval Datum}
    {locals : List (String × Datum)}
    (h : Simulates k m (body { s with locals }) (Returned σ n B) (Returned σ n B)) :
    Simulates k m (Evaluation.enter body locals s)
      (fun d s' o => ∃ s₁, Returned σ n B d s₁ o ∧ s' = { s₁ with locals := s.locals }) R := by
  unfold Evaluation.enter
  rcases h with h | h
  · exact .lost h
  · refine .inr ?_
    generalize body { s with locals } = result at h
    cases result with
    | ok d s₁ =>
      obtain ⟨steps, o, hrun, ho⟩ := h
      exact ⟨steps, o, hrun, s₁, ho, rfl⟩
    | error e s₁ =>
      cases e with
      | returned d =>
        obtain ⟨steps, o, hrun, ho⟩ := h
        exact ⟨steps, o, hrun, s₁, ho, rfl⟩
      | _ => exact h

/-- Calling a function computes its body, with one unit of fuel less. -/
theorem simulates_callFunction (hσ : σ.Distinct) (hcalls : CallsAgree σ n k)
    {R : Datum → Store → Machine → Prop} {f : Closure}
    (h : AtCall σ n A C sc t i s m (.function f) ds) (hlength : f.params.length = ds.length) :
    Simulates (k + 1) m
      (Evaluation.enter (evalBlock (apply k) k f.names f.body) (f.params.zip ds).reverse s)
      (Computed σ n A C sc t (i + 1) m) R := by
  obtain ⟨v, hv, hvf⟩ := h.callee
  cases hvf with
  | @function handle g f hg hf _ horder hn =>
  refine h.here.step h.call (Word.opcode?_abc _ _ _ _) fun g' o hheap hstack hC ho hs => ?_
  rw [← hheap] at hg hf
  rw [(h.perform hv hstack g').2.1 (Value.kind_function handle), Value.handle_function] at hs
  have hcall := callFunction_eq (A.base + sc.top + 1) (A.base + t) hg
  rw [hf.arity, hlength] at hcall
  rcases hcall with hover | ⟨extra, hextra, hentered⟩
  · refine .lost ⟨1, ?_⟩
    have herror : Machine.step m = .error .stackOverflow o := by
      rw [hs]
      show EStateM.bind _ _ o = _
      unfold EStateM.bind
      rw [hover]
    rw [Machine.run_one_error herror]
    exact .stack
  · obtain ⟨C', hC', hcodes⟩ := hf.code
    rw [Machine.bind_of_ok hentered] at hs
    have hB := here_callee (t := t) ho h.slots (h.argument hheap hstack) hg hC' hlength hextra
    have hcalled : (A.callee handle sc.top i t o.stack).callers ≠ [] ∧
        (A.callee handle sc.top i t o.stack).dest < (A.callee handle sc.top i t o.stack).base := by
      refine ⟨List.cons_ne_nil _ _, ?_⟩
      have hlt := h.spare.1
      show A.base + t < A.base + sc.top + 1
      omega
    have S : Setting σ n k (A.callee handle sc.top i t o.stack) C' f.names :=
      ⟨hσ, hcalls, fun _ => hcalled, horder, hn⟩
    obtain ⟨hparams, hspare⟩ := paramScope_inOrder hcodes.room
    obtain ⟨j, hblock, hret⟩ := hcodes.body
    -- the end of the body is a return too, so the callee has been left in both cases
    have hbody := (computes_body S f.body hparams hspare hblock _ _ hB).extend
      fun d s₁ o₁ h₁ => simulates_ret h₁.here hcalled.1 hcalled.2
        (Nat.lt_succ_of_lt hcodes.room.1) h₁.value hret fun o₂ h₂ => .here h₂
    -- the call takes a step, which pays for the unit of fuel that the body does not get
    refine .step_succ hs ?_
    refine ((simulates_enter hbody).continues hB.matched.additive).extend ?_
    rintro d s' o' ⟨hcontinues, s₁, hreturned, rfl⟩
    exact .here (hreturned.resume h.scope h.spare ho hheap hstack hcontinues.heap.grows)

/-! ## All calls -/

section

variable {R : Datum → Store → Machine → Prop} {Q : Datum → Store → Machine → Prop}

/-- A fault in the call instruction itself. -/
theorem simulates_badCall {e : Fault} (h : AtCall σ n A C sc t i s m f ds) (he : e.Ordinary)
    (hperform : ∀ g o, o.heap = m.heap → o.stack = m.stack →
      Machine.perform g A.base .call (.abc .call t sc.top ds.length) o = .error e o) :
    Simulates k m (.error (.fault e) s) Q R := by
  refine h.here.step h.call (Word.opcode?_abc _ _ _ _) fun g o hheap hstack _ ho hs => ?_
  rw [hperform g o hheap hstack] at hs
  exact .fault hs ho.matched.sink he

/-- A call with a wrong number of arguments. -/
theorem simulates_wrongArity {f : Closure} (h : AtCall σ n A C sc t i s m (.function f) ds)
    (hlength : f.params.length ≠ ds.length) :
    Simulates k m (apply k (.function f) ds s) Q R := by
  have happly : apply k (.function f) ds s =
      .error (.fault (.functionArity f.name f.params.length ds.length)) s := by
    unfold apply
    rw [if_pos hlength]
    rfl
  rw [happly]
  obtain ⟨v, hv, hvf⟩ := h.callee
  cases hvf with
  | @function handle g f hg hf _ _ _ =>
  refine simulates_badCall h trivial fun g' o hheap hstack => ?_
  rw [← hheap] at hg
  rw [(h.perform hv hstack g').2.1 (Value.kind_function handle), Value.handle_function, ← hf.name,
    ← hf.arity]
  show EStateM.bind _ _ o = _
  unfold EStateM.bind
  rw [callFunction_arity hg (by rw [hf.arity]; exact hlength)]

/-- A call of what is neither a function nor a primitive. -/
theorem simulates_notCallable (h : AtCall σ n A C sc t i s m f ds) (hp : f.kind ≠ .primitive)
    (hf : f.kind ≠ .function) : Simulates k m (apply k f ds s) Q R := by
  have happly : apply k f ds s = .error (.fault (.notCallable f.kind)) s := by
    cases f with
    | primitive => exact absurd rfl hp
    | function => exact absurd rfl hf
    | _ =>
      unfold apply
      rfl
  rw [happly]
  obtain ⟨v, hv, hvf⟩ := h.callee
  refine simulates_badCall h trivial fun g o _ hstack => ?_
  have hcall := (h.perform hv hstack g).2.2
  rw [hvf.kind_eq] at hcall
  exact hcall hp hf

end

/-- Calls agree when those of functions with the right number of arguments do. -/
theorem callsAgree_of_functions
    (hfunctions : ∀ (A : Activation) (C : Coding) (sc : Scope) (t i : Nat) (s : Store) (m : Machine)
      (f : Closure) (ds : List Datum), AtCall σ n A C sc t i s m (.function f) ds →
      f.params.length = ds.length →
      Simulates k m (apply k (.function f) ds s) (Computed σ n A C sc t (i + 1) m)
        (Returned σ n A)) : CallsAgree σ n k := by
  intro A C sc t i s m f ds h
  by_cases hprimitive : f.kind = .primitive
  · cases f with
    | primitive index =>
      unfold apply
      exact simulates_callPrimitive h
    | bool b => cases b <;> cases hprimitive
    | _ => cases hprimitive
  by_cases hfunction : f.kind = .function
  · cases f with
    | function f =>
      by_cases hlength : f.params.length = ds.length
      · exact hfunctions A C sc t i s m f ds h hlength
      · exact simulates_wrongArity h hlength
    | bool b => cases b <;> cases hfunction
    | _ => cases hfunction
  · exact simulates_notCallable h hprimitive hfunction

/-- Calls agree with the evaluation, whatever the fuel. -/
theorem calls_agree (hσ : σ.Distinct) (n k : Nat) : CallsAgree σ n k := by
  induction k with
  | zero =>
    refine callsAgree_of_functions fun A C sc t i s m f ds h hlength => ?_
    have happly : apply 0 (.function f) ds s = .error .timeout s := by
      rw [apply, if_neg (not_not.2 hlength)]
      rfl
    rw [happly]
    exact .timeout h.here.matched.sink
  | succ k ih =>
    refine callsAgree_of_functions fun A C sc t i s m f ds h hlength => ?_
    have happly : apply (k + 1) (.function f) ds =
        Evaluation.enter (evalBlock (apply k) k f.names f.body) (f.params.zip ds).reverse := by
      rw [apply, if_neg (not_not.2 hlength)]
    rw [happly]
    exact simulates_callFunction hσ ih h hlength

end ScriptMachine.Simulation
