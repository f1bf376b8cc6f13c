import ScriptMachine.Proofs.Compile.Fragments
import ScriptMachine.Proofs.Simulation.Calls

/-!
# Fragments

The main body of a fragment follows the evaluation of its statements. Each definition binds the next
slot, so what has been made visible is always bound, and the value of the last expression waits in
the result register.
-/

namespace ScriptMachine.Simulation

open Source Bytecode Compile Evaluation

variable {σ : Slots} {n k : Nat} {A : Activation} {C : Coding} {sc : Scope} {i j t : Nat} {s : Store}
  {m o : Machine} {d : Datum} {names after : Names} {made : Nat → Closure → Prop}

/-- A function of the heap stands for a declaration, once its own slot is bound. -/
def Serves (σ : Slots) (heap : Heap) (handle : UInt32) (f : Closure) : Prop :=
  ∃ g, heap.function? handle = some g ∧ Implements heap g f ∧ σ handle = some f.slot

/-- The constants of a body that are functions serve the declarations that they should. -/
def Makes (σ : Slots) (heap : Heap) (handle : UInt32) (made : Nat → Closure → Prop) : Prop :=
  ∀ (k : Nat) (f : Closure), made k f → ∃ g h, heap.function? handle = some g ∧
    g.constants[k]? = some (.function h) ∧ Serves σ heap h f

theorem Makes.grows {heap heap' : Heap} {handle : UInt32} (h : Makes σ heap handle made)
    (hg : heap.Grows heap') : Makes σ heap' handle made := by
  intro k f hf
  obtain ⟨g, i, hg', hk, g₁, hg₁, hi, hslot⟩ := h k f hf
  exact ⟨g, i, hg.function? hg', hk, g₁, hg.function? hg₁, hi.grows hg, hslot⟩

/-- A register is copied to a new global. -/
theorem simulates_defGlobal {R : Datum → Store → Machine → Prop} (h : Here σ n A C sc i s m)
    (ht : t < 256) (hn : n ≤ maxWide) (hd : Reg σ (n + 1) A m t d)
    (hw : C.At i (.abx .defGlobal t n)) {α : Type} {x : EStateM.Result Stop Store α}
    {Q : α → Store → Machine → Prop}
    (hnext : ∀ o, Here σ (n + 1) A C sc (i + 1) (s.setGlobal n d) o → o.heap = m.heap →
      o.stack = m.stack → Simulates k o x Q R) : Simulates k m x Q R := by
  refine h.step hw (Word.opcode?_abx _ _ _) fun g o hheap hstack _ ho hs => ?_
  obtain ⟨v, hv, hvd⟩ := hd
  rw [← hheap] at hvd
  rw [← hstack] at hv
  have hstep : Machine.step m = .ok none { o with pending := o.pending.insert n v } := by
    rw [hs]
    simp only [Machine.perform, Word.a_abx _ ht, Word.bx_abx _ (Nat.lt_succ_of_le hn)]
    rw [Machine.bind_of_ok (Machine.readReg_eq hv)]
    rfl
  refine .step hstep (hnext _ (ho.setGlobal hvd (Nat.le_succ n) fun _ => ?_) hheap hstack)
  omega

/-- The function of a declaration is loaded; it stands for it once the slot is bound. -/
theorem simulates_function {R : Datum → Store → Machine → Prop} {f : Closure}
    (h : Here σ n A C topScope i s m) (hroom : C.Room 1) (hmakes : Makes σ m.heap A.handle made)
    {p : Nat} (hp : p ≤ maxWide) (hmade : made p f) (horder : f.names.InOrder)
    (hn : f.names.nextSlot ≤ n + 1) (hw : C.At i (.abx .loadConst 1 p)) {α : Type}
    {x : EStateM.Result Stop Store α} {Q : α → Store → Machine → Prop}
    (hnext : ∀ o, Here σ n A C topScope (i + 1) s o → o.heap = m.heap →
      Reg σ (n + 1) A o 1 (.function f) → Kept A topScope 1 m o → Simulates k o x Q R) :
    Simulates k m x Q R := by
  refine h.step hw (Word.opcode?_abx _ _ _) fun g o hheap hstack hC ho hs => ?_
  rw [← hheap] at hmakes
  obtain ⟨g', handle, hg', hconstant, g₁, hg₁, hf, hslot⟩ := hmakes p f hmade
  rw [hC.1, Option.some.injEq] at hg'
  subst hg'
  have hcell : A.base + 1 < o.stack.size := by
    have hslots := hroom.2
    have := ho.room
    omega
  have hstep : Machine.step m = .ok none (o.store (A.base + 1) (.function handle)) := by
    rw [hs]
    simp only [Machine.perform, Word.a_abx _ (show 1 < 256 by decide),
      Word.bx_abx _ (Nat.lt_succ_of_le hp), hconstant]
    exact Machine.bind_of_ok (Machine.writeReg_eq hcell)
  refine .step hstep (hnext _ (ho.store (fun _ hx => absurd hx List.not_mem_nil) _) hheap ?_ ?_)
  · exact ⟨_, Machine.store_self hcell, .function hg₁ hf hslot horder hn⟩
  · exact (Kept.of_eq hheap hstack).trans .store

/-- The statements of a fragment have been run: all slots up to those of the definitions are bound,
and the result register has the value. -/
structure Concluded (σ : Slots) (A : Activation) (C : Coding) (after : Names) (j : Nat) (d : Datum)
    (s : Store) (o : Machine) : Prop where
  order : after.InOrder
  here : Here σ after.nextSlot A C topScope j s o
  value : Reg σ after.nextSlot A o resultReg d

theorem evalTop_plain {stmt : Stmt} (hplain : Plain stmt) (names : Names) (rest : List Stmt)
    (value : Datum) : evalTop k names (stmt :: rest) value = (do
      evalStmt (apply k) k names stmt
      evalTop k names rest value) := by
  cases stmt with
  | bind => exact hplain.elim
  | func => exact hplain.elim
  | expr => exact hplain.elim
  | _ => simp only [evalTop]

/-- The statements of a fragment are followed one after another. -/
theorem simulates_top (hσ : σ.Distinct) (hA : A.Called C) (hcallers : A.callers = [])
    (hroom : C.Room 0) {stmts : List Stmt} (htop : TopAt C made after names stmts i j) :
    names.InOrder → ∀ s m value, Here σ names.nextSlot A C topScope i s m →
      Makes σ m.heap A.handle made → Reg σ names.nextSlot A m resultReg value →
      Simulates k m (evalTop k names stmts value s) (Concluded σ A C after j)
        fun _ _ _ => False := by
  have hsc := topScope_inOrder hroom
  -- no function has been called, so nothing returns early
  have hnever : ∀ n d s o, Returned σ n A d s o → False := fun _ _ _ _ h => h.called hcallers
  have hsetting : ∀ names : Names, names.InOrder → Setting σ names.nextSlot k A C names :=
    fun names hnames => ⟨hσ, calls_agree hσ _ k, hA, hnames, Nat.le_refl _⟩
  have hspare : ∀ x ∈ topScope.locals, x.2 ≠ resultReg := fun _ hx => absurd hx List.not_mem_nil
  -- along the layout, since each definition adds a slot to those that are bound
  induction htop with
  | nil =>
    intro hnames s m value h _ hvalue
    simp only [evalTop]
    exact .here ⟨hnames, h, hvalue⟩
  | @expr names e rest i l j he _ ih =>
    intro hnames s m value h hmakes _
    have hexpr := computes_expr (hsetting names hnames) e hsc topScope_spare he
    simp only [evalTop]
    refine ((hexpr s m h).weakenReturned (hnever _)).bind fun d s₁ m₁ h₁ => ?_
    exact ih hnames s₁ m₁ d h₁.here (hmakes.grows h₁.kept.grows) h₁.value
  | @bind names mutable name e pos rest i l j hroom₁ he hslot hw _ ih =>
    intro hnames s m value h hmakes hvalue
    have hexpr := computes_expr (hsetting names hnames) e (hsc.take hroom₁) hsc.spare_take he
    simp only [evalTop]
    refine ((hexpr s m (h.of_locals rfl)).weakenReturned (hnever _)).bind fun d s₁ m₁ h₁ => ?_
    have hvalue₁ : Reg σ names.nextSlot A m₁ resultReg value :=
      h₁.kept.reg hvalue (by decide) (by decide) hspare
    have hhere : Here σ names.nextSlot A C topScope l s₁ m₁ := h₁.here.of_locals rfl
    refine simulates_defGlobal hhere (by decide) hslot (h₁.value.mono (Nat.le_succ _)) hw
      fun o ho hheap hstack => ?_
    have hnext := names.nextSlot_define name mutable
    refine ih (hnames.define name mutable) _ o value ?_ ?_ ?_
    · rw [hnext]
      exact ho
    · rw [hheap]
      exact hmakes.grows h₁.kept.grows
    · rw [hnext]
      refine (hvalue₁.mono (Nat.le_succ _)).grows ?_ (by rw [hstack])
      rw [hheap]
      exact .refl _
  | @func names name params body pos rest i l j hroom₁ hk hmade hload hslot hdef _ ih =>
    intro hnames s m value h hmakes hvalue
    have hnext := names.nextSlot_define name false
    have hnames' := hnames.define name false
    simp only [evalTop]
    refine simulates_function h hroom₁ hmakes hk hmade hnames' (Nat.le_of_eq hnext) hload
      fun o ho hheap hreg hkept => ?_
    have hvalue₁ : Reg σ names.nextSlot A o resultReg value :=
      hkept.reg hvalue (by decide) (by decide) hspare
    refine simulates_defGlobal ho (by decide) hslot hreg hdef fun o' ho' hheap' hstack' => ?_
    refine ih hnames' _ o' value ?_ ?_ ?_
    · rw [hnext]
      exact ho'
    · rw [hheap', hheap]
      exact hmakes
    · rw [hnext]
      refine (hvalue₁.mono (Nat.le_succ _)).grows ?_ (by rw [hstack'])
      rw [hheap']
      exact .refl _
  | @plain names stmt rest i l j hplain hstmt _ ih =>
    intro hnames s m value h hmakes hvalue
    have hperforms := performs_stmt (hsetting names hnames) stmt hsc hstmt
    rw [evalTop_plain hplain]
    refine ((hperforms s m h).weakenReturned (hnever _)).bind fun _ s₁ m₁ h₁ => ?_
    refine ih hnames s₁ m₁ value h₁.here (hmakes.grows h₁.kept.grows) ?_
    exact h₁.kept.reg hvalue (by decide) (by decide) hspare

/-! ## Main bodies -/

/-- The run from `m` of a main body follows an evaluation with this result and at least `k` units of
fuel: it ends with the value, stops with the fault, is still going, or comes to a limit. -/
inductive Tracks (σ : Slots) (n k : Nat) (m : Machine) : EStateM.Result Stop Store Datum → Prop
  | lost {r : EStateM.Result Stop Store Datum} (h : Lost m) : Tracks σ n k m r
  | done {d : Datum} {s : Store} {steps : Nat} {v : Value} {o : Machine}
    (hrun : Machine.run steps m = .ok (some v) o) (hv : Stands σ n o.heap v d)
    (hm : Matches σ n o s) : Tracks σ n k m (.ok d s)
  | fault {e : Fault} {s : Store} {steps : Nat} {o : Machine}
    (hrun : Machine.run steps m = .error e o) (hsink : o.sink = s.sink) (he : e.Ordinary) :
    Tracks σ n k m (.error (.fault e) s)
  | timeout {s : Store} {steps : Nat} {o : Machine} (hle : k ≤ steps)
    (hrun : Machine.run steps m = .ok none o) (hsink : o.sink = s.sink) :
    Tracks σ n k m (.error .timeout s)

/-- Where a main body returns, its run ends. -/
theorem ends_of_ret (h : Here σ n A C sc i s m) (hcallers : A.callers = []) (ht : t < 256)
    (hd : Reg σ n A m t d) (hw : C.At i (.abc .ret t 0 0)) :
    Lost m ∨ ∃ v o, Machine.step m = .ok (some v) o ∧ Stands σ n o.heap v d ∧ Matches σ n o s := by
  rcases h.next hw (Word.opcode?_abc _ _ _ _) with hlost | ⟨g, o, hheap, hstack, _, ho, hs⟩
  · exact .inl hlost
  · obtain ⟨v, hv, hvd⟩ := hd
    rw [← hheap] at hvd
    rw [← hstack] at hv
    refine .inr ⟨v, { o with frames := [] }, ?_, hvd, ⟨ho.matched.sink, ho.matched.primitives,
      ho.matched.globals, ho.matched.bound⟩⟩
    rw [hs]
    simp only [Machine.perform, Word.a_abc _ ht]
    rw [Machine.bind_of_ok (Machine.readReg_eq hv), Machine.leaveFrame, ho.frames, hcallers]

/-- The main body of a fragment follows the evaluation of the fragment. -/
theorem tracks_main (hσ : σ.Distinct) (hA : A.Called C) (hcallers : A.callers = [])
    {f : Fragment} (hmain : MainAt C made names after f) (hnames : names.InOrder)
    (h : Here σ names.nextSlot A C topScope 0 s m) (hmakes : Makes σ m.heap A.handle made) (k : Nat) :
    Tracks σ after.nextSlot k m (evaluate k names f s) := by
  obtain ⟨j, htop, hret, -⟩ := hmain.body
  have hsc := topScope_inOrder hmain.room
  have hnil : Computes σ names.nextSlot k A C topScope resultReg 0 1 (pure .nil) :=
    computes_nil hsc topScope_spare hmain.start
  have hrun : Simulates k m ((pure Datum.nil >>= evalTop k names f) s) (Concluded σ A C after j)
      fun _ _ _ => False := by
    refine ((hnil s m h).weakenReturned fun _ _ _ hr => hr.called hcallers).bind
      fun d s₁ m₁ h₁ => ?_
    exact simulates_top hσ hA hcallers hmain.room htop hnames s₁ m₁ d h₁.here
      (hmakes.grows h₁.kept.grows) h₁.value
  rw [pure_bind] at hrun
  unfold evaluate
  rcases hrun with hlost | hrun
  · exact .lost hlost
  · cases hr : evalTop k names f Datum.nil s with
    | ok d s₁ =>
      rw [hr] at hrun
      obtain ⟨steps, o, hsteps, ho⟩ := hrun
      rcases ends_of_ret ho.here hcallers (by decide) ho.value hret with hlost | ⟨v, o', hs, hv, hm⟩
      · exact .lost (hlost.after hsteps)
      · have hend : Machine.run 1 o = .ok (some v) o' := by
          unfold Machine.run
          rw [hs]
        exact .done ((Machine.run_add hsteps).trans hend) hv hm
    | error e s₁ =>
      rw [hr] at hrun
      cases e with
      | returned d =>
        obtain ⟨_, _, _, hfalse⟩ := hrun
        exact hfalse.elim
      | fault e =>
        obtain ⟨steps, o, hsteps, hsink, he⟩ := hrun
        exact .fault hsteps hsink he
      | timeout =>
        obtain ⟨steps, o, hle, hsteps, hsink⟩ := hrun
        exact .timeout hle hsteps hsink
      | stuck => exact hrun.elim

end ScriptMachine.Simulation
