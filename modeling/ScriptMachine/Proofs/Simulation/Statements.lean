import ScriptMachine.Proofs.Simulation.Expressions

/-!
# Statements

Code performs a statement when its run follows the evaluation and leaves the locals as the statement
does. The locals of a block go when it ends, and what was in use before it is still there.
-/

namespace ScriptMachine.Simulation

open Source Bytecode Compile Evaluation

/-- A statement has been performed, up to instruction `j`, since `m`. -/
structure Performed (σ : Slots) (n : Nat) (A : Activation) (C : Coding) (sc sc' : Scope) (j : Nat)
    (m : Machine) (s : Store) (o : Machine) : Prop where
  here : Here σ n A C sc' j s o
  kept : Kept A sc sc.top m o

/-- The code from `i` to `j` performs an evaluation that leads from one scope to another. -/
def Performs (σ : Slots) (n k : Nat) (A : Activation) (C : Coding) (sc sc' : Scope) (i j : Nat)
    (act : Eval Unit) : Prop :=
  ∀ s m, Here σ n A C sc i s m →
    Simulates k m (act s) (fun _ => Performed σ n A C sc sc' j m) (Returned σ n A)

variable {σ : Slots} {n k : Nat} {A : Activation} {C : Coding} {sc sc' : Scope} {t i j l p r : Nat}
  {act : Eval Datum} {d : Datum} {names : Names} {ident : String}

/-! ## Single statements -/

/-- What was computed above all that is in use can be forgotten. -/
theorem Computed.forget {m : Machine} {s : Store} {o : Machine}
    (h : Computed σ n A C sc.take sc.top j m d s o) : Performed σ n A C sc sc j m s o :=
  ⟨h.here.of_locals rfl, h.kept.above rfl (Nat.le_succ _) (.inl rfl)⟩

theorem performs_expr (he : Computes σ n k A C sc.take sc.top i j act) :
    Performs σ n k A C sc sc i j (do let _ ← act) :=
  fun s m h => (he s m (h.of_locals rfl)).bind fun _ _ _ h₁ => .here h₁.forget

/-- A binding leaves its value in the register on top. -/
theorem performs_bind (name : String) (he : Computes σ n k A C sc.take sc.top i j act) :
    Performs σ n k A C sc (sc.declare name) i j (do
      let d ← act
      modify fun s => s.declare name d) := by
  intro s m h
  refine (he s m (h.of_locals rfl)).bind fun d s₁ m₁ h₁ => ?_
  have hhere := h₁.here
  exact .here ⟨⟨hhere.frames, hhere.code, hhere.room, .cons ⟨rfl, h₁.value⟩ hhere.locals,
    hhere.size_le, hhere.below, ⟨hhere.matched.sink, hhere.matched.primitives,
      hhere.matched.globals, hhere.matched.bound⟩⟩, h₁.forget.kept⟩

theorem performs_assign (hsc : sc.InOrder C) (hroom : C.Room sc.top)
    (hreg : sc.reg? ident = some r) (he : Computes σ n k A C sc.take sc.top i j act)
    (hw : C.At j (.abc .move r sc.top 0)) :
    Performs σ n k A C sc sc i (j + 1) (do
      let d ← act
      reassign names ident d) := by
  intro s m h
  refine (he s m (h.of_locals rfl)).bind fun d s₁ m₁ h₁ => ?_
  have h₂ := h₁.forget
  have hlocal : (s₁.locals.lookup ident).isSome = true := by
    have hrel := h₂.here.lookup ident
    rw [hreg] at hrel
    generalize s₁.locals.lookup ident = found at hrel
    cases hrel with
    | some _ => rfl
  unfold reassign
  rw [if_pos hlocal]
  refine simulates_assign h₂.here hsc hreg (Nat.lt_succ_of_lt hroom.1) h₁.value hw
    fun o ho hkept => ?_
  exact .here ⟨ho, h₂.kept.trans hkept⟩

theorem performs_setGlobal (hnames : names.InOrder) (hn : names.nextSlot ≤ n)
    (hroom : C.Room sc.top) {g : GlobalName} (hreg : sc.reg? ident = none)
    (hg : names.global? ident = some g) (hslot : g.slot ≤ maxWide)
    (he : Computes σ n k A C sc.take sc.top i j act) (hw : C.At j (.abx .setGlobal sc.top g.slot)) :
    Performs σ n k A C sc sc i (j + 1) (do
      let d ← act
      reassign names ident d) := by
  intro s m h
  refine (he s m (h.of_locals rfl)).bind fun d s₁ m₁ h₁ => ?_
  have h₂ := h₁.forget
  have hlocal : ¬ (s₁.locals.lookup ident).isSome = true := by
    have hrel := h₂.here.lookup ident
    rw [hreg] at hrel
    rw [(rel_none_iff hrel).2 rfl]
    exact Bool.false_ne_true
  unfold reassign
  rw [if_neg hlocal, hg]
  have hbound : g.slot < n := Nat.lt_of_lt_of_le (hnames.globals ident g hg) hn
  refine simulates_setGlobal h₂.here hslot hbound (Nat.lt_succ_of_lt hroom.1) h₁.value hw
    fun o ho hkept => ?_
  exact .here ⟨ho, h₂.kept.trans hkept⟩

/-- A return ends the activation, from however deep in its code. -/
theorem performs_ret (hA : A.Called C) (hreturns : C.returns = true) (hroom : C.Room sc.top)
    (he : Computes σ n k A C sc.take sc.top i j act) (hw : C.At j (.abc .ret sc.top 0 0)) :
    Performs σ n k A C sc sc i (j + 1) (do
      let d ← act
      throw (.returned d)) := by
  intro s m h
  refine (he s m (h.of_locals rfl)).bind fun d s₁ m₁ h₁ => ?_
  obtain ⟨hcallers, hdest⟩ := hA hreturns
  exact simulates_ret h₁.here hcallers hdest (Nat.lt_succ_of_lt hroom.1) h₁.value hw
    fun o ho => .returned ho

/-! ## Loops -/

/-- Each round of a loop takes a step, so a loop that has used up its fuel has taken as many. -/
theorem performs_loop {test body : Eval Datum} (hroom : C.Room sc.top) (hi : i ≤ maxWide)
    (htest : Computes σ n k A C sc.take sc.top i l test)
    (hskip : C.At l (.abx .jumpIfFalse sc.top (p + 1))) (hp : p + 1 ≤ maxWide)
    (hbody : Computes σ n k A C sc.take sc.top (l + 1) p body) (hback : C.At p (.abx .jump 0 i)) :
    Performs σ n k A C sc sc i (p + 1) (iterate test body k) := by
  -- the fuel of the loop counts down while that of its parts stays `k`
  suffices hrounds : ∀ rounds ≤ k, ∀ s m, Here σ n A C sc i s m →
      Simulates rounds m (iterate test body rounds s)
        (fun _ => Performed σ n A C sc sc (p + 1) m) (Returned σ n A) from hrounds k (Nat.le_refl k)
  intro rounds
  induction rounds with
  | zero => exact fun _ s m h => .timeout h.matched.sink
  | succ rounds ih =>
    intro hle s m h
    refine ((htest s m (h.of_locals rfl)).less hle).bind fun d s₁ m₁ h₁ => ?_
    have hhere : Here σ n A C sc l s₁ m₁ := h₁.forget.here
    refine simulates_skip hhere .and (Nat.lt_succ_of_lt hroom.1) h₁.value
      hskip hp fun o hheap hstack ho => ?_
    have hkept : Kept A sc sc.top m o := h₁.forget.kept.trans (.of_eq hheap hstack)
    by_cases hfalsey : d.isFalsey = true
    · have ho' : Here σ n A C sc (p + 1) s₁ o := by
        rwa [show decides .and d = true from hfalsey, if_pos rfl] at ho
      rw [if_pos hfalsey]
      exact .here ⟨ho', hkept⟩
    · have ho' : Here σ n A C sc (l + 1) s₁ o := by
        rwa [show decides .and d = false by simpa [decides] using hfalsey, if_neg (by decide)] at ho
      rw [if_neg hfalsey]
      refine ((hbody s₁ o (ho'.of_locals rfl)).less hle).bind fun e s₂ m₂ h₂ => ?_
      refine simulates_jump h₂.forget.here hback hi fun o' hheap' hstack' ho'' => ?_
      refine (ih (Nat.le_of_succ_le hle) s₂ o' ho'').weaken fun _ _ _ h₃ => ⟨h₃.here, ?_⟩
      exact (hkept.trans h₂.forget.kept).trans ((Kept.of_eq hheap' hstack').trans h₃.kept)

/-! ## Blocks -/

/-- A scope that has what another has, and above it perhaps more. -/
structure Extends (sc sc' : Scope) : Prop where
  locals : ∃ new, sc'.locals = new ++ sc.locals ∧ ∀ x ∈ new, sc.top ≤ x.2
  top_le : sc.top ≤ sc'.top

theorem Extends.refl (sc : Scope) : Extends sc sc :=
  ⟨⟨[], rfl, fun _ h => absurd h List.not_mem_nil⟩, Nat.le_refl _⟩

theorem Extends.declare (sc : Scope) (name : String) : Extends sc (sc.declare name) := by
  refine ⟨⟨[(name, sc.top)], rfl, fun x hx => ?_⟩, Nat.le_succ _⟩
  rw [List.mem_singleton.1 hx]

theorem Extends.kept {m m' : Machine} (hsc : Extends sc sc') (h : Kept A sc' t m m') :
    Kept A sc t m m' := by
  obtain ⟨new, hnew, hge⟩ := hsc.locals
  refine ⟨h.grows, fun r hr hne hl => h.regs r (Nat.lt_of_lt_of_le hr hsc.top_le) hne ?_⟩
  intro x hx
  rw [hnew] at hx
  rcases List.mem_append.1 hx with hx | hx
  · have := hge x hx
    omega
  · exact hl x hx

theorem Extends.spare (hsc : Extends sc sc') (ht : sc.Spare t) : sc'.Spare t := by
  obtain ⟨new, hnew, hge⟩ := hsc.locals
  refine ⟨Nat.lt_of_lt_of_le ht.1 hsc.top_le, fun x hx => ?_⟩
  rw [hnew] at hx
  rcases List.mem_append.1 hx with hx | hx
  · have := hge x hx
    have := ht.1
    omega
  · exact ht.2 x hx

theorem keepLocals_self {s : Store} {count : Nat} (h : s.locals.length = count) :
    s.keepLocals count = s := by
  subst h
  unfold Store.keepLocals
  rw [Nat.sub_self]
  rfl

/-- When only the outer locals are kept, the outer scope is back. -/
theorem Here.narrow {s : Store} {m : Machine} (hsc : Extends sc sc')
    (h : Here σ n A C sc' i (s.keepLocals sc'.locals.length) m) :
    Here σ n A C sc i (s.keepLocals sc.locals.length) m := by
  obtain ⟨new, hnew, -⟩ := hsc.locals
  refine ⟨h.frames, h.code, h.room, ?_, h.size_le, h.below, ⟨h.matched.sink, h.matched.primitives,
    h.matched.globals, h.matched.bound⟩⟩
  have hlocals := h.locals
  have hlength := hlocals.length_eq
  rw [hnew] at hlocals hlength
  have hdrop := List.forall₂_drop new.length hlocals
  rw [List.drop_left] at hdrop
  simp only [Store.keepLocals, List.drop_drop, List.length_drop, List.length_append] at hdrop hlength ⊢
  have hcount : s.locals.length - (new.length + sc.locals.length) + new.length =
      s.locals.length - sc.locals.length := by omega
  rwa [hcount] at hdrop

/-- The code from `i` to `j` computes the statements of a block; locals that the block declared are
forgotten. -/
def ComputesTail (σ : Slots) (n k : Nat) (A : Activation) (C : Coding) (sc : Scope) (t i j : Nat)
    (act : Eval Datum) : Prop :=
  ∀ s m, Here σ n A C sc i s m →
    Simulates k m (act s)
      (fun d s' => Computed σ n A C sc t j m d (s'.keepLocals sc.locals.length)) (Returned σ n A)

theorem computesTail_of_computes (he : Computes σ n k A C sc t i j act) :
    ComputesTail σ n k A C sc t i j act := by
  intro s m h
  refine (he s m h).weaken fun d s₁ o h₁ => ?_
  rwa [keepLocals_self h₁.here.locals.length_eq]

theorem computesTail_cons (hsc : Extends sc sc') {stmt : Eval Unit} {rest : Eval Datum}
    (hstmt : Performs σ n k A C sc sc' i l stmt)
    (hrest : ComputesTail σ n k A C sc' t l j rest) :
    ComputesTail σ n k A C sc t i j (do
      stmt
      rest) := by
  intro s m h
  refine (hstmt s m h).bind fun _ s₁ m₁ h₁ => ?_
  refine (hrest s₁ m₁ h₁.here).weaken fun d s₂ m₂ h₂ => ?_
  have hkept : Kept A sc t m m₁ := h₁.kept.above rfl (Nat.le_refl _) (.inr (Nat.le_refl _))
  exact ⟨h₂.here.narrow hsc, h₂.value, hkept.trans (hsc.kept h₂.kept)⟩

theorem computes_block (h : ComputesTail σ n k A C sc t i j act) :
    Computes σ n k A C sc t i j (Evaluation.inScope act) := by
  intro s m hs
  have hlength := hs.locals.length_eq
  have hrun := h s m hs
  rw [← hlength] at hrun
  unfold Evaluation.inScope
  generalize act s = result at hrun
  rcases hrun with hlost | hrun
  · exact .lost hlost
  · refine .inr ?_
    cases result with
    | ok d s₁ => exact hrun
    -- an early return leaves the locals of the block, which go with those of the function
    | error e s₁ => cases e <;> exact hrun

end ScriptMachine.Simulation
