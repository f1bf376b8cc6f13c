import ScriptMachine.Proofs.Compile.Checking
import ScriptMachine.Proofs.Compile.Linkable
import ScriptMachine.Proofs.Compile.TidyBuilders

/-!
# The register stack

No check of a compilation fails. Side by side with the compiler, each call of the compilation with
checks goes from a tidy builder to the same tidy builder, in the context that its check asks for.
-/

namespace ScriptMachine.Compile

open Source Bytecode

/-! ## Checks that pass -/

/-- A step with checks ends as the plain one does: in a refusal, or in the same builder, with
results of which `Q` holds. -/
def Passes {α β : Type} (checked : Except Complaint (α × Builder))
    (plain : Except CompileError (β × Builder)) (Q : α → β → Builder → Prop) : Prop :=
  match plain with
  | .error e => checked = .error (.refused e)
  | .ok (y, b) => ∃ x, checked = .ok (x, b) ∧ Q x y b

section

variable {α β γ δ : Type} {act : Checking α} {act' : Building β} {next : α → Checking γ}
  {next' : β → Building δ} {step : Building β} {b : Builder} {Q : α → β → Builder → Prop}
  {R : γ → δ → Builder → Prop}

theorem checking_bind {x : α} {b' : Builder} (h : act b = .ok (x, b')) :
    (act >>= next) b = next x b' := by
  show StateT.bind act next b = _
  unfold StateT.bind
  rw [h]
  rfl

theorem Passes.mono {Q' : α → β → Builder → Prop} (h : Passes (act b) (act' b) Q)
    (hQ : ∀ x y b', Q x y b' → Q' x y b') : Passes (act b) (act' b) Q' := by
  unfold Passes at h ⊢
  split at h
  · exact h
  · obtain ⟨x, hx, hQx⟩ := h
    exact ⟨x, hx, hQ _ _ _ hQx⟩

theorem Passes.bind (h : Passes (act b) (act' b) Q)
    (hnext : ∀ x y b', Q x y b' → Passes (next x b') (next' y b') R) :
    Passes ((act >>= next) b) ((act' >>= next') b) R := by
  show Passes (StateT.bind act next b) (StateT.bind act' next' b) R
  unfold StateT.bind
  cases hplain : act' b with
  | error e =>
    rw [hplain] at h
    rw [show act b = .error (.refused e) from h]
    rfl
  | ok r =>
    obtain ⟨y, b'⟩ := r
    rw [hplain] at h
    obtain ⟨x, hx, hQ⟩ := h
    rw [hx]
    exact hnext x y b' hQ

/-- What follows on the side with checks alone. -/
theorem Passes.after {S : γ → β → Builder → Prop} (h : Passes (act b) (act' b) Q)
    (hnext : ∀ x y b', Q x y b' → ∃ z, next x b' = .ok (z, b') ∧ S z y b') :
    Passes ((act >>= next) b) (act' b) S := by
  unfold Passes at h ⊢
  split at h
  · show StateT.bind act next b = _
    unfold StateT.bind
    rw [h]
    rfl
  · obtain ⟨x, hx, hQ⟩ := h
    obtain ⟨z, hz, hS⟩ := hnext _ _ _ hQ
    exact ⟨z, (checking_bind hx).trans hz, hS⟩

theorem passes_pure {x : α} {y : β} (h : Q x y b) :
    Passes ((pure x : Checking α) b) ((pure y : Building β) b) Q :=
  ⟨x, rfl, h⟩

/-- A step that is not checked, as the last one. -/
theorem passes_unchecked {Q : β → β → Builder → Prop}
    (h : ∀ y b', step b = .ok (y, b') → Q y y b') : Passes (unchecked step b) (step b) Q := by
  unfold unchecked
  cases hstep : step b with
  | error e => rfl
  | ok r => exact ⟨r.1, rfl, h r.1 r.2 hstep⟩

/-- A step that is not checked, and what follows it. -/
theorem passes_step {next : β → Checking γ}
    (h : ∀ y b', step b = .ok (y, b') → Passes (next y b') (next' y b') R) :
    Passes ((unchecked step >>= next) b) ((step >>= next') b) R :=
  (passes_unchecked (Q := fun x y b' => x = y ∧ step b = .ok (y, b')) fun _ _ hy => ⟨rfl, hy⟩).bind
    fun _ y b' ⟨hx, hy⟩ => hx ▸ h y b' hy

/-- A refusal. -/
theorem passes_throw {next : β → Checking γ} {e : CompileError} :
    Passes ((unchecked (throw e) >>= next) b) (((throw e : Building β) >>= next') b) R :=
  rfl

end

/-! ## Registers given back -/

section

variable {c : Context} {w : Option Body} {js : List Nat} {b : Builder}

theorem giveBack_eq {reg : Nat} (h : b.body.regTop = reg + 1) :
    giveBack reg b = .ok ((), { b with body := b.body.giveBackReg }) := by
  have hcheck : expect (fun b => b.body.regTop = reg + 1) b = .ok ((), b) := if_pos h
  exact (checking_bind hcheck).trans rfl

theorem passes_giveBack (h : b.Tidy c.take w js) :
    Passes (giveBack c.top b) (giveBackReg b) fun _ _ b' => b'.Tidy c w js := by
  have htop : b.body.regTop = c.top + 1 := congrArg Context.top h.context
  refine ⟨(), giveBack_eq htop, ?_⟩
  have hback := h.of_code (f := b.body.giveBackReg) rfl rfl
    (Nat.le_trans (Nat.sub_le _ _) h.body.top_le)
  have hcontext : b.body.giveBackReg.context = c := by
    show ({ b.context with top := b.context.top - 1 } : Context) = c
    rw [h.context]
    rfl
  rwa [hcontext] at hback

/-- Registers given back one after the other, or all at once. -/
theorem passes_giveBackAll {n : Nat} (h : b.Tidy (c.takeMany n) w js) :
    Passes (giveBackAll (List.range' c.top n).reverse b) (giveBackRegs n b) fun _ _ b' =>
      b'.Tidy c w js := by
  induction n generalizing b with
  | zero => exact ⟨(), rfl, h⟩
  | succ n ih =>
    have hrange : (List.range' c.top (n + 1)).reverse =
        (c.top + n) :: (List.range' c.top n).reverse := by
      rw [List.range'_1_concat, List.reverse_append]
      rfl
    have hplain : giveBackRegs (n + 1) b = (giveBackReg >>= fun _ => giveBackRegs n) b := by
      show Except.ok ((), ({ b with body := { b.body with regTop := b.body.regTop - (n + 1) } } :
        Builder)) =
          Except.ok ((), { b with body := { b.body with regTop := b.body.regTop - 1 - n } })
      rw [Nat.add_comm, Nat.sub_sub]
    rw [hrange, hplain]
    exact (passes_giveBack (c := c.takeMany n) h).bind fun _ _ _ hb => ih hb

/-! ## Scopes -/

/-- Locals of one depth, newest first, in consecutive registers from `base` on. -/
def Stacked (depth base : Nat) : List Local → Prop
  | [] => True
  | l :: older => l.depth = depth ∧ l.reg = base + older.length ∧ Stacked depth base older

theorem Stacked.depth {depth base : Nat} {new : List Local} (h : Stacked depth base new) :
    ∀ l ∈ new, l.depth = depth := by
  induction new with
  | nil => exact nofun
  | cons l older ih => exact List.forall_mem_cons.2 ⟨h.1, ih h.2.2⟩

theorem Stacked.append {depth base : Nat} {newer new : List Local} (h : Stacked depth base new)
    (h' : Stacked depth (base + new.length) newer) : Stacked depth base (newer ++ new) := by
  induction newer with
  | nil => exact h
  | cons l older ih =>
    obtain ⟨hdepth, hreg, holder⟩ := h'
    refine ⟨hdepth, ?_, ih holder⟩
    show l.reg = base + (older ++ new).length
    rw [hreg, List.length_append]
    omega

theorem Context.InOrder.extend (h : c.InOrder) {new : List Local}
    (hnew : Stacked c.depth c.top new) : (c.extend new).InOrder := by
  induction new with
  | nil => exact h
  | cons l older ih =>
    have hrest := ih hnew.2.2
    refine ⟨List.forall_mem_cons.2 ⟨Nat.le_of_eq hnew.1, hrest.nested⟩,
      List.forall_mem_cons.2 ⟨?_, fun k hk => Nat.lt_succ_of_lt (hrest.regs k hk)⟩⟩
    rw [hnew.2.1]
    exact Nat.lt_succ_self _

/-- Each local that is dropped is in the topmost register when its turn comes. -/
theorem dropLocals_eq {depth base : Nat} {old new : List Local} (hold : ∀ l ∈ old, l.depth ≤ depth)
    (hnew : Stacked (depth + 1) base new) (hlocals : b.body.locals = new ++ old)
    (htop : b.body.regTop = base + new.length) :
    dropLocals depth (new ++ old) b =
      .ok ((), { b with body := { b.body with locals := old, regTop := base } }) := by
  induction new generalizing b with
  | nil =>
    have hb : ({ b with body := { b.body with locals := old, regTop := base } } : Builder) = b := by
      rw [← show b.body.locals = old from hlocals, ← show b.body.regTop = base from htop]
    rw [hb]
    cases old with
    | nil => rfl
    | cons l rest =>
      have hle := hold l List.mem_cons_self
      rw [List.nil_append, dropLocals, if_neg (Nat.not_lt.2 hle)]
      rfl
  | cons l older ih =>
    obtain ⟨hdepth, hreg, holder⟩ := hnew
    rw [List.cons_append, dropLocals, if_pos (by omega)]
    have htopmost : b.body.regTop = l.reg + 1 := by
      rw [htop, hreg, List.length_cons]
      omega
    have hrest := ih (b := { b with
        body := { b.body with locals := older ++ old, regTop := b.body.regTop - 1 } })
      holder rfl (by show b.body.regTop - 1 = _; rw [htop]; rfl)
    have hback := giveBack_eq (b := { b with body := { b.body with locals := older ++ old } })
      htopmost
    exact (checking_bind rfl).trans ((checking_bind hback).trans hrest)

/-- The locals that go when a scope closes are those in the topmost registers. -/
theorem passes_closeScope {new : List Local} (h : b.Tidy (c.deepen.extend new) w js)
    (hc : c.InOrder) (hnew : Stacked (c.depth + 1) c.top new) :
    Passes (closeScope b) (updateBody Body.endScope b) fun _ _ b' => b'.Tidy c w js := by
  obtain ⟨-, hcontext, -⟩ := endScope_ok (n := 0) (u := ()) rfl h.body.top_le hc.nested hnew.depth
    h.context
  have hdepth : b.body.depth = c.depth + 1 := congrArg Context.depth h.context
  have hend : b.body.endScope =
      { b.body with depth := b.body.depth - 1, locals := c.locals, regTop := c.top } := by
    show ({ b.body with
      depth := b.body.depth - 1
      locals := b.body.endScope.locals
      regTop := b.body.endScope.regTop } : Body) = _
    rw [show b.body.endScope.locals = c.locals from congrArg Context.locals hcontext,
      show b.body.endScope.regTop = c.top from congrArg Context.top hcontext]
  have hless : b.body.depth - 1 = c.depth := by omega
  refine ⟨(), ?_, ?_⟩
  · have hcheck : expect (fun b => 0 < b.body.depth) b = .ok ((), b) :=
      if_pos (show 0 < b.body.depth by omega)
    refine (checking_bind hcheck).trans ((checking_bind rfl).trans ?_)
    show dropLocals (b.body.depth - 1) b.body.locals
      { b with body := { b.body with depth := b.body.depth - 1 } } = _
    rw [hend, hless, show b.body.locals = new ++ c.locals from congrArg Context.locals h.context]
    exact dropLocals_eq hc.nested hnew (congrArg Context.locals h.context)
      (congrArg Context.top h.context)
  · have hle : b.body.endScope.regTop ≤ b.body.maxSlots :=
      Nat.le_trans (Nat.sub_le _ _) h.body.top_le
    have hclosed := h.of_code (f := b.body.endScope) rfl rfl hle
    rwa [show b.body.endScope.context = c from hcontext] at hclosed

end

/-! ## Calls -/

/-- A call with a target in use leaves the context as it is. -/
def Restores (checked : Checking Unit) (plain : Building Unit) (t : Nat) : Prop :=
  ∀ c w js b, Builder.Tidy c w js b → c.InOrder → t < c.top →
    Passes (checked b) (plain b) fun _ _ b' => b'.Tidy c w js

section

variable {c : Context} {w : Option Body} {js : List Nat} {b : Builder} {call : Checking Unit}
  {plain : Building Unit}

/-- A check that holds after a call. -/
theorem Passes.expecting {Q : Unit → Unit → Builder → Prop} {p : Builder → Prop} [DecidablePred p]
    (h : Passes (call b) (plain b) Q) (hp : ∀ x y b', Q x y b' → p b') :
    Passes ((call >>= fun _ => expect p) b) (plain b) Q :=
  h.after fun _ _ _ hQ => ⟨(), if_pos (hp _ _ _ hQ), hQ⟩

theorem Passes.balanced (h : b.Tidy c w js)
    (hcall : Passes (call b) (plain b) fun _ _ b' => b'.Tidy c w js) :
    Passes (balanced call b) (plain b) fun _ _ b' => b'.Tidy c w js :=
  hcall.expecting fun _ _ _ h' => h'.context.trans h.context.symm

theorem Passes.above {α β : Type} {fill : Nat → Checking Unit} {fill' : Nat → Building Unit}
    {next : Nat → Checking α} {next' : Nat → Building β} {R : α → β → Builder → Prop}
    (h : b.Tidy c w js) (hc : c.InOrder) (hfill : ∀ r, Restores (fill r) (fill' r) r)
    (hnext : ∀ b', b'.Tidy c.take w js → Passes (next c.top b') (next' c.top b') R) :
    Passes ((above fill >>= next) b) ((takeReg >>= fun r => fill' r >>= fun _ => next' r) b) R := by
  unfold Compile.above
  simp only [bind_assoc, pure_bind]
  show Passes ((unchecked takeReg >>= fun r => fill r >>= fun _ =>
    expect (fun b' => r = b.context.top ∧ b'.context = b.context.take) >>= fun _ => next r) b) _ R
  refine passes_step fun r b₁ hr => ?_
  obtain ⟨rfl, h₁⟩ := h.takeReg hr
  refine (hfill _ _ _ _ _ h₁ hc.take (Nat.lt_succ_self _)).bind fun _ _ b₂ h₂ => ?_
  have hkept : c.top = b.context.top ∧ b₂.context = b.context.take := by
    rw [h.context, h₂.context]
    exact ⟨rfl, rfl⟩
  have hcheck : expect (fun b' => c.top = b.context.top ∧ b'.context = b.context.take) b₂ =
      .ok ((), b₂) := if_pos hkept
  rw [checking_bind hcheck]
  exact hnext b₂ h₂

theorem Passes.declaring {stmt : Stmt} (h : b.Tidy c w js)
    (hcall : Passes (call b) (plain b) fun _ _ b' => ∃ new,
      new.length = localsOf b.atTopLevel stmt ∧ Stacked c.depth c.top new ∧
        b'.Tidy (c.extend new) w js) :
    Passes (declaring stmt call b) (plain b) fun _ _ b' => ∃ new,
      new.length = localsOf b.atTopLevel stmt ∧ Stacked c.depth c.top new ∧
        b'.Tidy (c.extend new) w js := by
  refine hcall.expecting ?_
  rintro _ _ b' ⟨new, hlength, -, h'⟩
  rw [h.context, h'.context, ← hlength]
  refine ⟨List.drop_left .., ?_, rfl, rfl⟩
  rw [Nat.add_comm]
  exact List.length_append

end

/-! ## Trees -/

/-- The statements of a block add locals in the registers on top. -/
def FillsTail (checked : Checking Unit) (plain : Building Unit) (t : Nat) : Prop :=
  ∀ c w js b, Builder.Tidy c w js b → c.InOrder → t < c.top → 0 < c.depth →
    Passes (checked b) (plain b) fun _ _ b' =>
      ∃ new, Stacked c.depth c.top new ∧ b'.Tidy (c.extend new) w js

/-- A statement adds as many locals as it declares, in the registers on top. -/
def FillsStmt (stmt : Stmt) (checked : Checking Unit) (plain : Building Unit) : Prop :=
  ∀ c w js b, Builder.Tidy c w js b → c.InOrder → 0 < c.top →
    Passes (checked b) (plain b) fun _ _ b' => ∃ new, new.length = localsOf b.atTopLevel stmt ∧
      Stacked c.depth c.top new ∧ b'.Tidy (c.extend new) w js

section

variable {checked : Checking Unit} {plain : Building Unit} {t : Nat}

theorem Restores.balanced (h : Restores checked plain t) : Restores (balanced checked) plain t :=
  fun c w js b hb hc ht => .balanced hb (h c w js b hb hc ht)

theorem Restores.tail (h : Restores checked plain t) : FillsTail checked plain t :=
  fun _ _ _ _ hb hc ht _ => (h _ _ _ _ hb hc ht).mono fun _ _ _ h' => ⟨[], trivial, h'⟩

/-- A leaf emits what it emits. -/
theorem restores_leaf {step : Building Unit}
    (h : ∀ {c w js b b' u}, Builder.Tidy c w js b → c.InOrder → t < c.top →
      step b = .ok (u, b') → b'.Tidy c w js) : Restores (unchecked step) step t :=
  fun _ _ _ _ hb hc ht => passes_unchecked fun _ _ hs => h hb hc ht hs

theorem restores_emitABx {op : Opcode} {y : Nat} (hop : op.shape = .A ∨ op.shape = .ABx) :
    Restores (unchecked (emitABx op t y)) (emitABx op t y) t :=
  restores_leaf fun hb _ ht he => hb.emitABx ht hop he

theorem restores_number (digits : String) (pos : Position) :
    Restores (unchecked (compileInto (.number digits pos) t))
      (compileInto (.number digits pos) t) t :=
  restores_leaf fun hb _ ht h => by
    simp only [compileInto] at h
    cases hn : literalValue digits with
    | error e =>
      rw [hn] at h
      cases h
    | ok n =>
      rw [hn] at h
      exact hb.loadConstant ht h

theorem restores_text (raw : String) (pos : Position) :
    Restores (unchecked (compileInto (.text raw pos) t)) (compileInto (.text raw pos) t) t :=
  restores_leaf fun hb _ ht h => by
    simp only [compileInto] at h
    obtain ⟨index, b₁, hindex, h⟩ := bind_eq_ok.1 h
    exact (hb.stringIndex hindex).loadConstant ht h

theorem restores_name (ident : String) (pos : Position) :
    Restores (unchecked (compileInto (.name ident pos) t)) (compileInto (.name ident pos) t) t :=
  restores_leaf fun hb hc ht h => by
    simp only [compileInto] at h
    exact hb.loadName hc ht h

/-- A choice keeps what its parts keep. -/
theorem restores_choice {test : Nat → Checking Unit} {test' : Nat → Building Unit}
    {first second : Checking Unit} {first' second' : Building Unit}
    (htest : ∀ r, Restores (test r) (test' r) r) (hfirst : Restores first first' t)
    (hsecond : Restores second second' t) :
    Restores (checkedChoice test first second)
      (do
        let reg ← takeReg
        test' reg
        let toSecond ← jumpAhead .jumpIfFalse reg
        giveBackReg
        first'
        let toEnd ← jumpAhead .jump 0
        aimJump toSecond
        second'
        aimJump toEnd) t := by
  intro c w js b hb hc ht
  refine .above hb hc htest fun b₂ h₂ => ?_
  refine passes_step fun toSecond b₃ hjump => ?_
  have h₃ := h₂.jumpAhead_if (Nat.lt_succ_self _) rfl hjump
  refine (passes_giveBack h₃).bind fun _ _ b₄ h₄ => ?_
  refine (hfirst _ _ _ _ h₄ hc ht).bind fun _ _ b₅ h₅ => ?_
  refine passes_step fun toEnd b₆ hjump' => ?_
  have h₆ := h₅.jumpAhead (fun _ => Word.within_jump) hjump'
  refine passes_step fun _ b₇ haim => ?_
  have h₇ := h₆.aimJump (List.mem_cons_of_mem _ List.mem_cons_self) haim
  refine (hsecond _ _ _ _ h₇ hc ht).bind fun _ _ b₈ h₈ => ?_
  refine passes_unchecked fun _ b₉ haim' => ?_
  have h₉ := h₈.aimJump List.mem_cons_self haim'
  exact h₉.fewer fun p hp => List.mem_cons_of_mem _ (List.mem_cons_of_mem _ hp)

end

/-! ## Statements -/

theorem Context.extend_extend (c : Context) (new newer : List Local) :
    (c.extend new).extend newer = c.extend (newer ++ new) := by
  show (⟨newer ++ (new ++ c.locals), _, c.top + new.length + newer.length⟩ : Context) = ⟨_, _, _⟩
  rw [← List.append_assoc, Nat.add_assoc, Nat.add_comm new.length, ← List.length_append]
  rfl

theorem checkedTail_cons {stmt : Stmt} {rest : List Stmt} {t : Nat}
    (hlast : ∀ e, stmt = .expr e → rest ≠ []) :
    checkedTail (stmt :: rest) t = checkedStmt stmt >>= fun _ => checkedTail rest t := by
  cases rest with
  | nil =>
    cases stmt with
    | expr e => exact (hlast e rfl rfl).elim
    | _ => simp only [checkedTail]
  | cons next rest => simp only [checkedTail]

theorem fillsTail_cons {stmt : Stmt} {rest : List Stmt} {t : Nat}
    (hlast : ∀ e, stmt = .expr e → rest ≠ [])
    (hstmt : FillsStmt stmt (checkedStmt stmt) (compileStmt stmt))
    (hrest : FillsTail (checkedTail rest t) (compileTail rest t) t) :
    FillsTail (checkedTail (stmt :: rest) t) (compileTail (stmt :: rest) t) t := by
  rw [checkedTail_cons hlast, compileTail_cons hlast]
  intro c w js b hb hc ht hdepth
  have hfirst := hstmt _ _ _ _ hb hc (Nat.zero_lt_of_lt ht)
  refine hfirst.bind fun _ _ b₁ ⟨new, _, hnew, h₁⟩ => ?_
  have ht₁ : t < (c.extend new).top := Nat.lt_add_right _ ht
  refine (hrest _ _ _ _ h₁ (hc.extend hnew) ht₁ hdepth).mono ?_
  rintro _ _ b₂ ⟨newer, hnewer, h₂⟩
  rw [Context.extend_extend] at h₂
  exact ⟨newer ++ new, hnew.append hnewer, h₂⟩

/-- What adds no local leaves the context as it is. -/
theorem fillsStmt_of_restores {stmt : Stmt} {checked : Checking Unit} {plain : Building Unit}
    (hnone : ∀ top, localsOf top stmt = 0)
    (h : ∀ c w js b, Builder.Tidy c w js b → c.InOrder → 0 < c.top →
      Passes (checked b) (plain b) fun _ _ b' => b'.Tidy c w js) :
    FillsStmt stmt (declaring stmt checked) plain := by
  intro c w js b hb hc htop
  refine .declaring hb ((h _ _ _ _ hb hc htop).mono fun _ _ b' h' => ⟨[], ?_, trivial, h'⟩)
  rw [hnone]
  rfl

/-- A binding adds its local unless it is at the top level, where it gives its register back. -/
theorem fillsStmt_bind {mutable : Bool} {name : String} {value : Expr} {pos : Position}
    (hvalue : ∀ r, Restores (checkedInto value r) (compileInto value r) r) :
    FillsStmt (.bind mutable name value pos) (checkedStmt (.bind mutable name value pos))
      (compileStmt (.bind mutable name value pos)) := by
  simp only [checkedStmt, compileStmt]
  intro c w js b hb hc htop
  refine .declaring hb ?_
  refine .above hb hc hvalue fun b₁ h₁ => ?_
  have hlevel : b₁.atTopLevel = b.atTopLevel := by
    rw [h₁.atTopLevel_eq, hb.atTopLevel_eq]
    rfl
  show Passes ((if b₁.atTopLevel = true then _ else _ : Checking Unit) b₁)
    ((if b₁.atTopLevel = true then _ else _ : Building Unit) b₁) _
  rw [hlevel]
  cases htop : b.atTopLevel with
  | true =>
    rw [if_pos rfl, if_pos rfl]
    refine passes_step fun slot b₂ hslot => ?_
    have h₂ := h₁.newSlot hslot
    refine passes_step fun _ b₃ hemit => ?_
    have h₃ := h₂.emitABx (Nat.lt_succ_self _) (.inr rfl) hemit
    exact (passes_giveBack h₃).mono fun _ _ _ h₄ => ⟨[], rfl, trivial, h₄⟩
  | false =>
    rw [if_neg nofun, if_neg nofun]
    exact passes_unchecked fun _ b₂ hdeclare =>
      ⟨[⟨name, c.depth, c.top, mutable⟩], rfl, ⟨rfl, rfl, trivial⟩, h₁.declare hdeclare⟩

theorem passes_return {fill : Nat → Checking Unit} {fill' : Nat → Building Unit}
    (hfill : ∀ r, Restores (fill r) (fill' r) r) {pos : Position} {c : Context} {w : Option Body}
    {js : List Nat} {b : Builder} (hb : b.Tidy c w js) (hc : c.InOrder) :
    Passes (checkedReturn fill pos b)
      ((do
        if (← get).waiting.isNone then throw (.returnOutsideFunction pos)
        let reg ← takeReg
        fill' reg
        emitABC .ret reg 0 0
        giveBackReg : Building Unit) b) fun _ _ b' => b'.Tidy c w js := by
  unfold checkedReturn
  show Passes ((if b.waiting.isNone = true then _ else _ : Checking Unit) b)
    ((if b.waiting.isNone = true then _ else _ : Building Unit) b) _
  split_ifs with hwaiting
  · exact passes_throw
  refine .above hb hc hfill fun b₁ h₁ => ?_
  exact passes_step fun _ b₂ hemit => passes_giveBack (h₁.emitRet hemit)

/-- An assignment puts the value where its target is. -/
theorem passes_assign {ident : String} {pos : Position} {value : Expr}
    (hvalue : ∀ r, Restores (checkedInto value r) (compileInto value r) r) {c : Context}
    {w : Option Body} {js : List Nat} {b : Builder} (hb : b.Tidy c w js) (hc : c.InOrder) :
    Passes
      ((do
        let dest ← unchecked (destination ident pos)
        let reg ← above (checkedInto value)
        match dest with
        | .register r => unchecked (emitABC .move r reg 0)
        | .slot s => unchecked (emitABx .setGlobal reg s)
        giveBack reg : Checking Unit) b)
      ((do
        let dest ← destination ident pos
        let reg ← takeReg
        compileInto value reg
        match dest with
        | .register r => emitABC .move r reg 0
        | .slot s => emitABx .setGlobal reg s
        giveBackReg : Building Unit) b) fun _ _ b' => b'.Tidy c w js := by
  refine passes_step fun dest b₀ hdest => ?_
  obtain ⟨rfl, hd⟩ := destination_ok hdest
  refine .above hb hc hvalue fun b₁ h₁ => ?_
  cases dest with
  | register r =>
    obtain ⟨l, hl, rfl⟩ := Option.map_eq_some_iff.1 ((reg?_scope b ident).symm.trans hd)
    have hr : l.reg < c.take.top := Nat.lt_succ_of_lt (hb.reg_lt hc hl)
    exact passes_step fun _ b₂ hemit =>
      passes_giveBack (h₁.emitABC hr (Nat.lt_succ_self _) (Nat.succ_pos _) (by nofun) hemit)
  | slot s =>
    exact passes_step fun _ b₂ hemit =>
      passes_giveBack (h₁.emitABx (Nat.lt_succ_self _) (.inr rfl) hemit)

/-- A function is compiled with registers of its own, and leaves those of the main body alone. -/
theorem fillsStmt_func {name : String} {params : List String} {body : Block} {pos : Position}
    (hbody : ∀ r, Restores (checkedBlock body r) (compileBlock body r) r) :
    FillsStmt (.func name params body pos) (checkedStmt (.func name params body pos))
      (compileStmt (.func name params body pos)) := by
  simp only [checkedStmt, compileStmt]
  refine fillsStmt_of_restores (fun _ => rfl) fun c w js b hb hc _ => ?_
  show Passes ((if (!b.atTopLevel) = true then _ else _ : Checking Unit) b)
    ((if (!b.atTopLevel) = true then _ else _ : Building Unit) b) _
  cases hlevel : b.atTopLevel with
  | false => exact passes_throw
  | true =>
    have hnone : w = none := by
      rw [hb.atTopLevel_eq, Bool.and_eq_true, Option.isNone_iff_eq_none] at hlevel
      exact hlevel.1
    subst hnone
    have htop : ¬(!true) = true := by decide
    rw [if_neg htop, if_neg htop]
    split_ifs with hcount
    · exact passes_throw
    have hcount' : params.length ≤ 254 := Nat.le_of_not_lt hcount
    refine passes_step fun slot b₁ hslot => ?_
    have h₁ := hb.newSlot hslot
    refine passes_step fun _ b₂ henter => ?_
    have h₂ := h₁.enterFunction (by omega) henter
    refine passes_step fun _ b₃ hbegin => ?_
    have h₃ := h₂.beginScope hbegin
    refine passes_step fun _ b₄ hparams => ?_
    obtain ⟨locals, hc₄, h₄⟩ := h₃.declareParams ⟨nofun, nofun⟩
      (Nat.le_of_eq (Nat.zero_add params.length)) hparams
    refine passes_step fun result b₅ htake => ?_
    obtain ⟨rfl, h₅⟩ := h₄.takeReg htake
    refine (hbody _ _ _ _ _ h₅ hc₄.take (Nat.lt_succ_self _)).bind fun _ _ b₆ h₆ => ?_
    refine passes_step fun _ b₇ hret => ?_
    have h₇ := h₆.emitRet hret
    refine passes_step fun index b₈ hleave => ?_
    have h₈ := h₁.leaveFunction h₇ hleave
    refine passes_step fun k b₉ hconstant => ?_
    have h₉ := h₈.constantIndex hconstant
    refine passes_step fun reg b₁₀ htake' => ?_
    obtain ⟨rfl, h₁₀⟩ := h₉.takeReg htake'
    refine passes_step fun _ b₁₁ hload => ?_
    have h₁₁ := h₁₀.emitABx (Nat.lt_succ_self _) (.inr rfl) hload
    exact passes_step fun _ b₁₂ hdefine =>
      passes_giveBack (h₁₁.emitABx (Nat.lt_succ_self _) (.inr rfl) hdefine)

mutual

/-- An expression leaves the context as it is. -/
theorem restores_into : (e : Expr) → (t : Nat) → Restores (checkedInto e t) (compileInto e t) t
  | .number digits pos, t => by
    simp only [checkedInto]
    exact (restores_number digits pos).balanced
  | .text raw pos, t => by
    simp only [checkedInto]
    exact (restores_text raw pos).balanced
  | .bool value pos, t => by
    simp only [checkedInto]
    cases value <;> exact Restores.balanced (restores_emitABx (.inl rfl))
  | .nil pos, t => by
    simp only [checkedInto]
    exact Restores.balanced (restores_emitABx (.inl rfl))
  | .name ident pos, t => by
    simp only [checkedInto]
    exact (restores_name ident pos).balanced
  | .binary op lhs rhs _, t => by
    have hl := restores_into lhs t
    have hr := restores_into rhs
    simp only [checkedInto, compileInto]
    refine Restores.balanced fun c w js b hb hc ht => ?_
    refine (hl _ _ _ _ hb hc ht).bind fun _ _ b₁ h₁ => ?_
    cases hcode : operatorCode? op with
    | some code =>
      refine .above h₁ hc hr fun b₂ h₂ => ?_
      have hother : code ≠ .call := by
        rintro rfl
        cases op <;> cases hcode
      have ht' : t < c.take.top := Nat.lt_succ_of_lt ht
      exact passes_step fun _ b₃ hemit => passes_giveBack
        (h₂.emitABC ht' ht' (Nat.lt_succ_self _) (fun h => absurd h hother) hemit)
    | none =>
      refine passes_step fun skip b₂ hjump => ?_
      have h₂ := h₁.jumpAhead_if ht (by cases op <;> rfl) hjump
      refine (hr t _ _ _ _ h₂ hc ht).bind fun _ _ b₃ h₃ => ?_
      refine passes_unchecked fun _ b₄ haim => ?_
      exact (h₃.aimJump List.mem_cons_self haim).fewer fun p hp => List.mem_cons_of_mem _ hp
  | .unary op operand _, t => by
    have he := restores_into operand t
    simp only [checkedInto, compileInto]
    refine Restores.balanced fun c w js b hb hc ht => ?_
    refine (he _ _ _ _ hb hc ht).bind fun _ _ b₁ h₁ => ?_
    exact passes_unchecked fun _ b₂ hemit =>
      h₁.emitABC ht ht (Nat.zero_lt_of_lt ht) (by cases op <;> nofun) hemit
  | .call callee args _, t => by
    have hf := restores_into callee
    have hargs := args_fill args
    simp only [checkedInto, compileInto]
    refine Restores.balanced fun c w js b hb hc ht => ?_
    split_ifs with hcount
    · exact passes_throw
    refine .above hb hc hf fun b₁ h₁ => ?_
    refine (hargs _ _ _ _ h₁ hc.take).bind fun regs _ b₂ ⟨hregs, h₂⟩ => ?_
    subst hregs
    have htop : (c.take.takeMany args.length).top = c.top + 1 + args.length := rfl
    refine passes_step fun _ b₃ hemit => ?_
    have h₃ := h₂.emitABC (by omega) (by omega) (by omega) (fun _ => by omega) hemit
    refine (passes_giveBackAll h₃).bind fun _ _ b₄ h₄ => ?_
    exact passes_giveBack h₄
  | .cond test body otherwise _, t => by
    have htest := restores_into test
    have hbody := restores_block body t
    have helse := restores_else otherwise t
    simp only [checkedInto, compileInto]
    exact (restores_choice htest hbody helse).balanced
  | .block body, t => by
    have hbody := restores_block body t
    simp only [checkedInto, compileInto]
    exact hbody.balanced

/-- Arguments are in consecutive registers on top. -/
theorem args_fill : (args : List Expr) → ∀ c w js b, Builder.Tidy c w js b → c.InOrder →
    Passes (checkedArgs args b) (compileArgs args b) fun regs _ b' =>
      regs = List.range' c.top args.length ∧ b'.Tidy (c.takeMany args.length) w js
  | [] => fun _ _ _ _ hb _ => by
    simp only [checkedArgs, compileArgs]
    exact passes_pure ⟨rfl, hb⟩
  | arg :: rest => fun c w js b hb hc => by
    have harg := restores_into arg
    have hrest := args_fill rest
    simp only [checkedArgs, compileArgs]
    refine .above hb hc harg fun b₁ h₁ => ?_
    refine (hrest _ _ _ _ h₁ hc.take).after fun regs _ b₂ ⟨hregs, h₂⟩ => ⟨_, rfl, ?_, ?_⟩
    · rw [hregs]
      rfl
    · have hmany : c.take.takeMany rest.length = c.takeMany (rest.length + 1) := by
        show (⟨_, _, c.top + 1 + rest.length⟩ : Context) = ⟨_, _, _⟩
        rw [Nat.add_right_comm, Nat.add_assoc]
        rfl
      rwa [hmany] at h₂

/-- An alternative leaves the context as it is. -/
theorem restores_else : (e : Else) → (t : Nat) → Restores (checkedElse e t) (compileElse e t) t
  | .absent, t => by
    simp only [checkedElse, compileElse]
    exact restores_emitABx (.inl rfl)
  | .block body, t => by
    have hbody := restores_block body t
    simp only [checkedElse, compileElse]
    exact hbody
  | .elseIf test body otherwise _, t => by
    have htest := restores_into test
    have hbody := restores_block body t
    have helse := restores_else otherwise t
    simp only [checkedElse, compileElse]
    exact (restores_choice htest hbody helse).balanced

/-- A block leaves the context as it is. -/
theorem restores_block : (body : Block) → (t : Nat) →
    Restores (checkedBlock body t) (compileBlock body t) t
  | .mk stmts _, t => by
    have hstmts := tail_fills stmts t
    simp only [checkedBlock, compileBlock]
    refine Restores.balanced fun c w js b hb hc ht => ?_
    refine passes_step fun _ b₁ hbegin => ?_
    have h₁ := hb.beginScope hbegin
    have hc₁ : c.deepen.InOrder := ⟨fun l hl => Nat.le_succ_of_le (hc.nested l hl), hc.regs⟩
    refine (hstmts _ _ _ _ h₁ hc₁ ht (Nat.succ_pos _)).bind fun _ _ b₂ ⟨new, hnew, h₂⟩ => ?_
    exact passes_closeScope h₂ hc hnew

/-- The statements of a block add their locals. -/
theorem tail_fills : (stmts : List Stmt) → (t : Nat) →
    FillsTail (checkedTail stmts t) (compileTail stmts t) t
  | [], t => by
    simp only [checkedTail, compileTail]
    exact (restores_emitABx (.inl rfl)).tail
  | [.expr e], t => by
    have he := restores_into e t
    simp only [checkedTail, compileTail]
    exact he.tail
  | [.bind mutable name value pos], t =>
    fillsTail_cons (by simp) (stmt_fills (.bind mutable name value pos)) (tail_fills [] t)
  | [.assign target value pos], t =>
    fillsTail_cons (by simp) (stmt_fills (.assign target value pos)) (tail_fills [] t)
  | [.func name params body pos], t =>
    fillsTail_cons (by simp) (stmt_fills (.func name params body pos)) (tail_fills [] t)
  | [.retNil pos], t => fillsTail_cons (by simp) (stmt_fills (.retNil pos)) (tail_fills [] t)
  | [.ret value pos], t => fillsTail_cons (by simp) (stmt_fills (.ret value pos)) (tail_fills [] t)
  | [.loop test body pos], t =>
    fillsTail_cons (by simp) (stmt_fills (.loop test body pos)) (tail_fills [] t)
  | stmt :: next :: rest, t =>
    fillsTail_cons (by simp) (stmt_fills stmt) (tail_fills (next :: rest) t)

/-- A statement adds its locals. -/
theorem stmt_fills : (stmt : Stmt) → FillsStmt stmt (checkedStmt stmt) (compileStmt stmt)
  | .bind mutable name value pos => fillsStmt_bind (restores_into value)
  | .assign target value pos => by
    have hvalue := restores_into value
    cases target with
    | name ident p =>
      simp only [checkedStmt, compileStmt]
      exact fillsStmt_of_restores (fun _ => rfl) fun _ _ _ _ hb hc _ => passes_assign hvalue hb hc
    | _ =>
      simp only [checkedStmt, compileStmt]
      exact fillsStmt_of_restores (fun _ => rfl) fun _ _ _ _ _ _ _ => rfl
  | .func name params body pos => fillsStmt_func (restores_block body)
  | .retNil pos => by
    simp only [checkedStmt, compileStmt]
    refine fillsStmt_of_restores (fun _ => rfl) fun _ _ _ _ hb hc _ => ?_
    exact passes_return (fun _ => restores_emitABx (.inl rfl)) hb hc
  | .ret value pos => by
    have hvalue := restores_into value
    simp only [checkedStmt, compileStmt]
    exact fillsStmt_of_restores (fun _ => rfl) fun _ _ _ _ hb hc _ => passes_return hvalue hb hc
  | .loop test body pos => by
    have htest := restores_into test
    have hbody := restores_block body
    simp only [checkedStmt, compileStmt]
    refine fillsStmt_of_restores (fun _ => rfl) fun c w js b hb hc _ => ?_
    refine passes_step fun start b₀ hhere => ?_
    obtain ⟨-, rfl⟩ := here_ok hhere
    refine .above hb hc htest fun b₁ h₁ => ?_
    refine passes_step fun toEnd b₂ hjump => ?_
    have h₂ := h₁.jumpAhead_if (Nat.lt_succ_self _) rfl hjump
    refine (passes_giveBack h₂).bind fun _ _ b₃ h₃ => ?_
    refine passes_step fun scratch b₄ htake => ?_
    obtain ⟨rfl, h₄⟩ := h₃.takeReg htake
    refine (hbody _ _ _ _ _ h₄ hc.take (Nat.lt_succ_self _)).bind fun _ _ b₅ h₅ => ?_
    refine (passes_giveBack h₅).bind fun _ _ b₆ h₆ => ?_
    refine passes_step fun _ b₇ hback => ?_
    refine passes_unchecked fun _ b₈ haim => ?_
    exact ((h₆.jumpBack hback).aimJump List.mem_cons_self haim).fewer fun p hp =>
      List.mem_cons_of_mem _ hp
  | .expr e => by
    have he := restores_into e
    simp only [checkedStmt, compileStmt]
    refine fillsStmt_of_restores (fun _ => rfl) fun c w js b hb hc htop => ?_
    show Passes ((if b.atTopLevel = true then _ else _ : Checking Unit) b)
      ((if b.atTopLevel = true then _ else _ : Building Unit) b) _
    split_ifs with hlevel
    · exact he _ _ _ _ _ hb hc htop
    · refine .above hb hc he fun b₁ h₁ => ?_
      exact passes_giveBack h₁

end

/-! ## Fragments -/

/-- The statements of a fragment leave the registers of the main body as they are. -/
theorem passes_stmts (stmts : List Stmt) {c : Context} {b : Builder} (hb : b.Tidy c none [])
    (hc : c.InOrder) (hdepth : c.depth = 0) (htop : 0 < c.top) :
    Passes (checkedStmts stmts b) (compileStmts stmts b) fun _ _ b' => b'.Tidy c none [] := by
  have hlevel : ∀ {b : Builder}, b.Tidy c none [] → b.atTopLevel = true := fun h => by
    rw [h.atTopLevel_eq, hdepth]
    rfl
  induction stmts generalizing b with
  | nil => exact passes_pure hb
  | cons stmt rest ih =>
    refine (stmt_fills stmt _ _ _ _ hb hc htop).bind fun _ _ b₁ ⟨new, hlength, _, h₁⟩ => ?_
    have hnone : localsOf true stmt = 0 := by cases stmt <;> rfl
    rw [hlevel hb, hnone] at hlength
    obtain rfl := List.eq_nil_of_length_eq_zero hlength
    exact ih h₁

/-- A compilation passes every check, and the main body that it leaves is tidy. -/
theorem passes_main (names : Names) (f : Fragment) :
    Passes (checkedMain f (.new names)) (compileMain f (.new names)) fun _ _ b =>
      b.Tidy ⟨[], 0, 1⟩ none [] := by
  have hb : (Builder.new names).Tidy ⟨[], 0, 0⟩ none [] :=
    ⟨rfl, rfl, ⟨Nat.le_refl _, Nat.zero_le _, fun v hv => absurd hv (Array.not_mem_empty v)⟩, nofun,
      nofun, fun p hp => absurd hp (Array.not_mem_empty p)⟩
  refine passes_step fun result b₁ htake => ?_
  obtain ⟨rfl, h₁⟩ := hb.takeReg htake
  refine passes_step fun _ b₂ hemit => ?_
  have h₂ := h₁.emitABx (Nat.lt_succ_self _) (.inl rfl) hemit
  refine (passes_stmts f h₂ ⟨nofun, nofun⟩ rfl (Nat.succ_pos _)).bind fun _ _ b₃ h₃ => ?_
  exact passes_unchecked fun _ b₄ hret => h₃.emitRet (c := ⟨[], 0, 0⟩) hret

/-- No check of a compilation fails: it ends as the compiler does, in the same refusal or the same
builder. And every instruction of what is compiled keeps to the registers of its body, which are at
most 255. -/
theorem registers_checked (names : Names) (f : Fragment) :
    checkedMain f (.new names) = (compileMain f (.new names)).mapError .refused ∧
      ∀ c, compileFragment names f = .ok c → ∀ p ∈ c.program.bodies,
        p.slots.toNat ≤ 255 ∧ ∀ w ∈ p.code, w.Within p.slots.toNat := by
  have hmain := passes_main names f
  unfold Passes at hmain
  unfold compileFragment
  split at hmain
  · rename_i e he
    rw [he]
    exact ⟨hmain, nofun⟩
  · rename_i b hb
    obtain ⟨_, hchecked, htidy⟩ := hmain
    rw [hb]
    refine ⟨hchecked, ?_⟩
    rintro c ⟨⟩ p hp
    rcases List.mem_append.1 hp with hp | hp
    · exact htidy.finished p (Array.mem_toList_iff.1 hp)
    · rw [List.mem_singleton.1 hp]
      exact htidy.body.prototype

/-- A function, and a call of it in which a block declares a local beside an argument. -/
def nestedFragment : Fragment :=
  [.func "add" ["a", "b"]
      (.mk [.expr (.binary .add (.name "a" somewhere) (.name "b" somewhere) somewhere)] somewhere)
      somewhere,
    .expr (.call (.name "add" somewhere)
      [.number "1" somewhere,
        .block (.mk [.bind false "x" (.number "2" somewhere) somewhere,
          .expr (.name "x" somewhere)] somewhere)] somewhere)]

theorem nestedFragment_checked : ∃ c, compileFragment .empty nestedFragment = .ok c ∧
    checkedMain nestedFragment (.new .empty) =
      (compileMain nestedFragment (.new .empty)).mapError .refused ∧
    ∀ p ∈ c.program.bodies, p.slots.toNat ≤ 255 ∧ ∀ w ∈ p.code, w.Within p.slots.toNat := by
  have hcompiles : (compileFragment .empty nestedFragment).isOk = true := by decide +kernel
  obtain ⟨hchecked, hregisters⟩ := registers_checked .empty nestedFragment
  cases h : compileFragment .empty nestedFragment with
  | error e =>
    rw [h] at hcompiles
    cases hcompiles
  | ok c => exact ⟨c, rfl, hchecked, hregisters c h⟩

end ScriptMachine.Compile
