import ScriptMachine.Proofs.Compile.Levels

/-!
# Pools without duplicates

A string or a constant enters its table only if it is not there yet, so no table of a compiled fragment
holds anything twice. What is at an index of a pool stays there. A pool grows until the wide operand of an
instruction reaches just its last entry; then new constants are refused, and old ones are still found.
-/

namespace ScriptMachine.Compile

open Source Bytecode

/-! ## One constant after another -/

namespace Body

/-- The body after a constant was asked for; a constant that is refused leaves it as it was. -/
def ask (f : Body) (k : Constant) : Body :=
  match f.constantIndex k with
  | .ok (_, g) => g
  | .error _ => f

/-- The body after constants were asked for one after another. -/
def askAll (f : Body) (ks : List Constant) : Body :=
  ks.foldl ask f

/-- A new function that constants were asked for one after another. -/
def asked (name : String) (arity : Nat) (ks : List Constant) : Body :=
  (new name arity).askAll ks

variable {f g : Body} {k : Constant} {i : Nat}

/-- A constant that is handed an index was there, or is new at the end of a pool with room for it. -/
theorem constantIndex_eq_ok (h : f.constantIndex k = .ok (i, g)) :
    (f.constants[i]? = some k ∧ g = f) ∨
      (k ∉ f.constants ∧ f.constants.size ≤ maxWide ∧ i = f.constants.size ∧
        g = { f with constants := f.constants.push k }) := by
  unfold constantIndex at h
  cases hfind : f.constants.idxOf? k with
  | some j =>
    simp only [hfind, Except.ok.injEq, Prod.mk.injEq] at h
    obtain ⟨rfl, rfl⟩ := h
    exact .inl ⟨getElem?_of_idxOf? hfind, rfl⟩
  | none =>
    simp only [hfind] at h
    split_ifs at h with hfull
    cases h
    exact .inr ⟨Array.idxOf?_eq_none_iff.1 hfind, Nat.le_of_not_lt hfull, rfl, rfl⟩

/-- Only a new constant is refused, and only by a full pool. -/
theorem constantIndex_eq_error_iff {e : CompileError} :
    f.constantIndex k = .error e ↔
      e = .tooManyConstants ∧ k ∉ f.constants ∧ maxWide < f.constants.size := by
  rw [← Array.idxOf?_eq_none_iff]
  unfold constantIndex
  cases f.constants.idxOf? k with
  | some j => simp
  | none =>
    by_cases hfull : f.constants.size > maxWide
    · simp [hfull, eq_comm]
    · simp [hfull]

/-- A pool holds nothing twice, and each entry has an index that a wide operand can hold. -/
structure Pooled (f : Body) : Prop where
  distinct : f.constants.toList.Nodup
  size_le : f.constants.size ≤ maxWide + 1

theorem pooled_new (name : String) (arity : Nat) : (new name arity).Pooled :=
  ⟨List.nodup_nil, Nat.zero_le _⟩

/-- What a call does to a pool. -/
theorem Pooled.constantIndex (hf : f.Pooled) (h : f.constantIndex k = .ok (i, g)) :
    g.Pooled ∧ g.constants[i]? = some k := by
  obtain ⟨hk, rfl⟩ | ⟨hnew, hroom, rfl, rfl⟩ := constantIndex_eq_ok h
  · exact ⟨hf, hk⟩
  · refine ⟨⟨nodup_push hf.distinct hnew, ?_⟩, ?_⟩
    · show (f.constants.push k).size ≤ _
      rw [Array.size_push]
      omega
    · show (f.constants.push k)[f.constants.size]? = _
      rw [Array.getElem?_push, if_pos rfl]

theorem Pooled.ask (hf : f.Pooled) (k : Constant) : (f.ask k).Pooled := by
  unfold Body.ask
  split
  · next h => exact (hf.constantIndex h).1
  · exact hf

/-- No call moves what is in a pool. -/
theorem getElem?_ask {j : Constant} (h : f.constants[i]? = some j) (k : Constant) :
    (f.ask k).constants[i]? = some j := by
  unfold ask
  split
  · next g hg =>
    obtain ⟨-, rfl⟩ | ⟨-, -, -, rfl⟩ := constantIndex_eq_ok hg
    · exact h
    · have hlt := (Array.getElem?_eq_some_iff.1 h).1
      show (f.constants.push k)[i]? = _
      rw [Array.getElem?_push, if_neg (Nat.ne_of_lt hlt), h]
  · exact h

theorem Pooled.askAll (hf : f.Pooled) (ks : List Constant) : (f.askAll ks).Pooled := by
  induction ks generalizing f with
  | nil => exact hf
  | cons k rest ih => exact ih (hf.ask k)

theorem getElem?_askAll {j : Constant} (h : f.constants[i]? = some j) (ks : List Constant) :
    (f.askAll ks).constants[i]? = some j := by
  induction ks generalizing f with
  | nil => exact h
  | cons k rest ih => exact ih (getElem?_ask h k)

/-- An index of a pool is not cut when it is stored in sixteen bits. -/
theorem Pooled.toNat_index (hf : f.Pooled) {j : Constant} (h : f.constants[i]? = some j) :
    (UInt16.ofNat i).toNat = i := by
  have hlt := (Array.getElem?_eq_some_iff.1 h).1
  have hsize := hf.size_le
  rw [UInt16.toNat_ofNat']
  rw [maxWide] at hsize
  omega

end Body

/-! ## The tables of a builder -/

/-- Nothing stands twice in the strings of a builder, or in the constants of one of its bodies. -/
structure Builder.Distinct (b : Builder) : Prop where
  strings : b.strings.toList.Nodup
  body : b.body.constants.toList.Nodup
  waiting : ∀ f ∈ b.waiting, f.constants.toList.Nodup
  finished : ∀ p ∈ b.prototypes, p.constants.toList.Nodup

theorem distinct_new (names : Names) : (Builder.new names).Distinct :=
  ⟨List.nodup_nil, List.nodup_nil, nofun, fun p hp => absurd hp (Array.not_mem_empty p)⟩

/-- A step that repeats nothing in any table. -/
def RepeatsNothing {α : Type} (act : Building α) : Prop :=
  ∀ b x b', b.Distinct → act b = .ok (x, b') → b'.Distinct

section

variable {α β : Type} {act : Building α}

theorem RepeatsNothing.bind {next : α → Building β} (h : RepeatsNothing act)
    (hnext : ∀ x, RepeatsNothing (next x)) : RepeatsNothing (act >>= next) := by
  intro b y b' hb hy
  obtain ⟨x, b₁, hx, hy⟩ := bind_eq_ok.1 hy
  exact hnext x b₁ y b' (h b x b₁ hb hx) hy

theorem RepeatsNothing.bindGet {next : Builder → Building α} (h : ∀ b, RepeatsNothing (next b)) :
    RepeatsNothing ((get : Building Builder) >>= next) :=
  fun b x b' hb hx => h b b x b' hb (get_bind_eq_ok.1 hx)

theorem repeatsNothing_throw {e : CompileError} : RepeatsNothing (throw e : Building α) :=
  fun _ _ _ _ h => (throw_eq_ok.1 h).elim

theorem repeatsNothing_throw_bind {e : CompileError} {next : α → Building β} :
    RepeatsNothing ((throw e : Building α) >>= next) := by
  intro b y b' hb hy
  obtain ⟨_, _, hthrow, -⟩ := bind_eq_ok.1 hy
  exact (throw_eq_ok.1 hthrow).elim

theorem repeatsNothing_pure (x : α) : RepeatsNothing (pure x : Building α) := by
  intro b y b' hb h
  obtain ⟨-, rfl⟩ := pure_eq_ok.1 h
  exact hb

theorem repeatsNothing_lift (act : Except CompileError α) :
    RepeatsNothing (liftM act : Building α) := by
  intro b x b' hb h
  cases act with
  | error e => cases h
  | ok y =>
    cases h
    exact hb

end

/-! ## Steps -/

theorem repeatsNothing_updateBody {change : Body → Body}
    (h : ∀ f, (change f).constants = f.constants) : RepeatsNothing (updateBody change) := by
  intro b x b' hb hx
  rw [updateBody_ok hx]
  exact { hb with body := by rw [h]; exact hb.body }

theorem repeatsNothing_updateBody? {change : Body → Except CompileError Body}
    (h : ∀ f g, change f = .ok g → g.constants = f.constants) :
    RepeatsNothing (updateBody? change) := by
  intro b x b' hb hx
  obtain ⟨g, hg, rfl⟩ := updateBody?_eq_ok.1 hx
  exact { hb with body := by rw [h _ _ hg]; exact hb.body }

theorem repeatsNothing_takeReg : RepeatsNothing takeReg := by
  intro b r b' hb hr
  obtain ⟨g, hg, rfl⟩ := takeFromBody_eq_ok.1 hr
  unfold Body.takeReg at hg
  split_ifs at hg
  cases hg
  exact { hb with }

theorem repeatsNothing_giveBackRegs (n : Nat) : RepeatsNothing (giveBackRegs n) :=
  repeatsNothing_updateBody fun _ => rfl

theorem repeatsNothing_giveBackReg : RepeatsNothing giveBackReg :=
  repeatsNothing_giveBackRegs 1

theorem repeatsNothing_declare (name : String) (reg : Nat) (mutable : Bool) :
    RepeatsNothing (updateBody fun f => f.declare name reg mutable) :=
  repeatsNothing_updateBody fun _ => rfl

theorem repeatsNothing_beginScope : RepeatsNothing (updateBody Body.beginScope) :=
  repeatsNothing_updateBody fun _ => rfl

theorem repeatsNothing_endScope : RepeatsNothing (updateBody Body.endScope) :=
  repeatsNothing_updateBody fun _ => rfl

theorem repeatsNothing_emit (w : Word) : RepeatsNothing (updateBody fun f => f.emit w) :=
  repeatsNothing_updateBody fun _ => rfl

theorem repeatsNothing_jumpAhead (op : Opcode) (x : Nat) : RepeatsNothing (jumpAhead op x) :=
  (RepeatsNothing.bindGet fun _ => repeatsNothing_pure _).bind fun _ =>
    (repeatsNothing_emit _).bind fun _ => repeatsNothing_pure _

theorem repeatsNothing_aimJump (pos : Nat) : RepeatsNothing (aimJump pos) := by
  refine repeatsNothing_updateBody? fun f g hg => ?_
  unfold Body.aimJump at hg
  split_ifs at hg
  cases hg
  rfl

theorem repeatsNothing_jumpBack (start : Nat) :
    RepeatsNothing (updateBody? fun f => f.jumpBack start) := by
  refine repeatsNothing_updateBody? fun f g hg => ?_
  unfold Body.jumpBack at hg
  split_ifs at hg
  cases hg
  rfl

/-- A constant is added to the pool of the body under construction if it is not there. -/
theorem repeatsNothing_constantIndex (k : Constant) : RepeatsNothing (constantIndex k) := by
  intro b i b' hb hi
  obtain ⟨g, hg, rfl⟩ := takeFromBody_eq_ok.1 hi
  obtain ⟨-, rfl⟩ | ⟨hnew, -, -, rfl⟩ := Body.constantIndex_eq_ok hg
  · exact hb
  · exact { hb with body := nodup_push hb.body hnew }

/-- So is a string to the strings of the program. -/
theorem repeatsNothing_stringIndex (s : String) : RepeatsNothing (stringIndex s) := by
  intro b i b' hb hi
  obtain ⟨strings, rfl, -, -, -, hdistinct⟩ := strings_of_stringIndex hi
  exact { hb with strings := hdistinct hb.strings }

theorem repeatsNothing_newSlot (name : String) (mutable : Bool) :
    RepeatsNothing (newSlot name mutable) := by
  intro b slot b' hb hs
  obtain ⟨-, -, rfl⟩ := newSlot_ok hs
  exact { hb with }

theorem repeatsNothing_wideOperand (n : Nat) : RepeatsNothing (wideOperand n) := by
  unfold wideOperand
  split_ifs
  · exact repeatsNothing_throw
  · exact repeatsNothing_pure n

/-- A function starts with an empty pool, while the main body waits with its own. -/
theorem repeatsNothing_enterFunction (name : String) (arity : Nat) :
    RepeatsNothing (enterFunction name arity) := by
  intro b x b' hb hx
  cases hx
  refine { hb with body := List.nodup_nil, waiting := ?_ }
  rintro f ⟨⟩
  exact hb.body

theorem repeatsNothing_leaveFunction : RepeatsNothing leaveFunction := by
  intro b i b' hb hi
  cases hi
  refine { hb with body := ?_, waiting := nofun, finished := fun p hp => ?_ }
  · show (b.waiting.getD b.body).constants.toList.Nodup
    cases hwaiting : b.waiting with
    | none => exact hb.body
    | some f => exact hb.waiting f hwaiting
  · rcases Array.mem_push.1 hp with hp | rfl
    · exact hb.finished p hp
    · exact hb.body

/-! ## Names and constants -/

theorem repeatsNothing_loadConstant (k : Constant) (t : Nat) : RepeatsNothing (loadConstant k t) :=
  (repeatsNothing_constantIndex k).bind fun _ => repeatsNothing_emit _

theorem repeatsNothing_loadName (name : String) (pos : Position) (t : Nat) :
    RepeatsNothing (loadName name pos t) := by
  refine .bindGet fun b => ?_
  split
  · split_ifs
    · exact repeatsNothing_pure ()
    · exact repeatsNothing_emit _
  · split
    · exact (repeatsNothing_wideOperand _).bind fun _ => repeatsNothing_emit _
    · split
      · exact (repeatsNothing_wideOperand _).bind fun _ => repeatsNothing_emit _
      · exact repeatsNothing_throw

theorem repeatsNothing_destination (name : String) (pos : Position) :
    RepeatsNothing (destination name pos) := by
  refine .bindGet fun b => ?_
  split
  · split_ifs
    · exact repeatsNothing_pure _
    · exact repeatsNothing_throw
  · split
    · split_ifs
      · exact (repeatsNothing_wideOperand _).bind fun _ => repeatsNothing_pure _
      · exact repeatsNothing_throw
    · split_ifs
      · exact repeatsNothing_throw
      · exact repeatsNothing_throw

theorem repeatsNothing_bindName (name : String) (mutable : Bool) (reg : Nat) :
    RepeatsNothing (bindName name mutable reg) := by
  refine .bindGet fun b => ?_
  split_ifs
  · exact (repeatsNothing_newSlot name mutable).bind fun _ => (repeatsNothing_emit _).bind fun _ =>
      repeatsNothing_giveBackReg
  · exact repeatsNothing_declare name reg mutable

theorem repeatsNothing_declareParams (params earlier : List String) (i : Nat) :
    RepeatsNothing (declareParams i earlier params) := by
  induction params generalizing i earlier with
  | nil => exact repeatsNothing_pure ()
  | cons param rest ih =>
    unfold declareParams
    split_ifs
    · exact repeatsNothing_throw_bind
    · exact (repeatsNothing_declare param i false).bind fun _ => ih _ _

/-! ## Trees -/

/-- A value in a register of its own, and what is done with it. -/
theorem repeatsNothing_temporary {fill use : Nat → Building Unit}
    (hfill : ∀ r, RepeatsNothing (fill r)) (huse : ∀ r, RepeatsNothing (use r)) :
    RepeatsNothing (do let reg ← takeReg; fill reg; use reg; giveBackReg) :=
  repeatsNothing_takeReg.bind fun r => (hfill r).bind fun _ => (huse r).bind fun _ =>
    repeatsNothing_giveBackReg

/-- A test in a register of its own, and two ways on. -/
theorem repeatsNothing_choice {test : Nat → Building Unit} {body otherwise : Building Unit}
    (htest : ∀ r, RepeatsNothing (test r)) (hbody : RepeatsNothing body)
    (helse : RepeatsNothing otherwise) :
    RepeatsNothing (do
      let reg ← takeReg
      test reg
      let toElse ← jumpAhead .jumpIfFalse reg
      giveBackReg
      body
      let toEnd ← jumpAhead .jump 0
      aimJump toElse
      otherwise
      aimJump toEnd) :=
  repeatsNothing_takeReg.bind fun r => (htest r).bind fun _ =>
    (repeatsNothing_jumpAhead _ r).bind fun toElse => repeatsNothing_giveBackReg.bind fun _ =>
      hbody.bind fun _ => (repeatsNothing_jumpAhead _ 0).bind fun toEnd =>
        (repeatsNothing_aimJump toElse).bind fun _ => helse.bind fun _ =>
          repeatsNothing_aimJump toEnd

/-- A loop goes back to its test. -/
theorem repeatsNothing_loop {test body : Nat → Building Unit}
    (htest : ∀ r, RepeatsNothing (test r)) (hbody : ∀ r, RepeatsNothing (body r)) :
    RepeatsNothing (do
      let start ← here
      let reg ← takeReg
      test reg
      let toEnd ← jumpAhead .jumpIfFalse reg
      giveBackReg
      let scratch ← takeReg
      body scratch
      giveBackReg
      updateBody? fun f => f.jumpBack start
      aimJump toEnd) :=
  (RepeatsNothing.bindGet fun _ => repeatsNothing_pure _).bind fun start =>
    repeatsNothing_takeReg.bind fun r => (htest r).bind fun _ =>
      (repeatsNothing_jumpAhead _ r).bind fun toEnd => repeatsNothing_giveBackReg.bind fun _ =>
        repeatsNothing_takeReg.bind fun scratch => (hbody scratch).bind fun _ =>
          repeatsNothing_giveBackReg.bind fun _ => (repeatsNothing_jumpBack start).bind fun _ =>
            repeatsNothing_aimJump toEnd

/-- A return is compiled in a function only. -/
theorem repeatsNothing_return {fill : Nat → Building Unit} {pos : Position}
    (hfill : ∀ r, RepeatsNothing (fill r)) :
    RepeatsNothing (do
      if (← get).waiting.isNone then throw (.returnOutsideFunction pos)
      let reg ← takeReg
      fill reg
      emitABC .ret reg 0 0
      giveBackReg) := by
  refine .bindGet fun b => ?_
  split_ifs
  · exact repeatsNothing_throw_bind
  · exact repeatsNothing_temporary hfill fun r => repeatsNothing_emit _

theorem repeatsNothing_rest {stmt : Stmt} {rest : List Stmt} {t : Nat}
    (hlast : ∀ e, stmt = .expr e → rest ≠ []) (hstmt : RepeatsNothing (compileStmt stmt))
    (hrest : RepeatsNothing (compileTail rest t)) : RepeatsNothing (compileTail (stmt :: rest) t) := by
  rw [compileTail_cons hlast]
  exact hstmt.bind fun _ => hrest

/-- A function has a pool of its own, and is a constant of the main body. -/
theorem repeatsNothing_func {name : String} {params : List String} {body : Block} {pos : Position}
    (hbody : ∀ r, RepeatsNothing (compileBlock body r)) :
    RepeatsNothing (compileStmt (.func name params body pos)) := by
  have hcode : RepeatsNothing (functionCode params body) :=
    (repeatsNothing_beginScope.bind fun _ =>
      (repeatsNothing_declareParams params [] 0).bind fun _ => repeatsNothing_takeReg).bind
        fun result => (hbody result).bind fun _ => repeatsNothing_emit _
  have hfunction : RepeatsNothing (compileFunction name params body) :=
    (repeatsNothing_enterFunction name params.length).bind fun _ => hcode.bind fun _ =>
      repeatsNothing_leaveFunction
  have hstore : ∀ slot index, RepeatsNothing (storeFunction slot index) := fun slot index =>
    (repeatsNothing_constantIndex _).bind fun _ => repeatsNothing_takeReg.bind fun _ =>
      (repeatsNothing_emit _).bind fun _ => (repeatsNothing_emit _).bind fun _ =>
        repeatsNothing_giveBackReg
  rw [compileStmt_func]
  refine .bindGet fun b => ?_
  split_ifs
  · exact repeatsNothing_throw_bind
  · exact repeatsNothing_throw_bind
  · exact repeatsNothing_throw_bind
  · exact (repeatsNothing_newSlot name false).bind fun slot => hfunction.bind (hstore slot)

mutual

theorem repeatsNothing_expr : (e : Expr) → (t : Nat) → RepeatsNothing (compileInto e t)
  | .number digits _, t => by
    simp only [compileInto]
    exact (repeatsNothing_lift _).bind fun _ => repeatsNothing_loadConstant _ t
  | .text raw _, t => by
    simp only [compileInto]
    exact (repeatsNothing_stringIndex _).bind fun _ => repeatsNothing_loadConstant _ t
  | .bool true _, t => by
    simp only [compileInto]
    exact repeatsNothing_emit _
  | .bool false _, t => by
    simp only [compileInto]
    exact repeatsNothing_emit _
  | .nil _, t => by
    simp only [compileInto]
    exact repeatsNothing_emit _
  | .name ident pos, t => by
    simp only [compileInto]
    exact repeatsNothing_loadName ident pos t
  | .binary op lhs rhs _, t => by
    have hr := repeatsNothing_expr rhs
    simp only [compileInto]
    refine (repeatsNothing_expr lhs t).bind fun _ => ?_
    cases operatorCode? op with
    | some code => exact repeatsNothing_temporary hr fun _ => repeatsNothing_emit _
    | none =>
      exact (repeatsNothing_jumpAhead _ t).bind fun skip => (hr t).bind fun _ =>
        repeatsNothing_aimJump skip
  | .unary op operand _, t => by
    simp only [compileInto]
    exact (repeatsNothing_expr operand t).bind fun _ => repeatsNothing_emit _
  | .call callee args _, t => by
    have hcallee := repeatsNothing_expr callee
    have hargs := repeatsNothing_args args
    simp only [compileInto]
    split_ifs
    · exact repeatsNothing_throw_bind
    · exact repeatsNothing_takeReg.bind fun func => (hcallee func).bind fun _ =>
        hargs.bind fun _ => (repeatsNothing_emit _).bind fun _ =>
          (repeatsNothing_giveBackRegs _).bind fun _ => repeatsNothing_giveBackReg
  | .cond test body otherwise _, t => by
    simp only [compileInto]
    exact repeatsNothing_choice (repeatsNothing_expr test) (repeatsNothing_block body t)
      (repeatsNothing_else otherwise t)
  | .block body, t => by
    simp only [compileInto]
    exact repeatsNothing_block body t

theorem repeatsNothing_args : (args : List Expr) → RepeatsNothing (compileArgs args)
  | [] => by
    simp only [compileArgs]
    exact repeatsNothing_pure ()
  | arg :: rest => by
    have hrest := repeatsNothing_args rest
    simp only [compileArgs]
    exact repeatsNothing_takeReg.bind fun r => (repeatsNothing_expr arg r).bind fun _ => hrest

theorem repeatsNothing_else : (o : Else) → (t : Nat) → RepeatsNothing (compileElse o t)
  | .absent, t => by
    simp only [compileElse]
    exact repeatsNothing_emit _
  | .block body, t => by
    simp only [compileElse]
    exact repeatsNothing_block body t
  | .elseIf test body otherwise _, t => by
    simp only [compileElse]
    exact repeatsNothing_choice (repeatsNothing_expr test) (repeatsNothing_block body t)
      (repeatsNothing_else otherwise t)

theorem repeatsNothing_block : (body : Block) → (t : Nat) → RepeatsNothing (compileBlock body t)
  | .mk stmts _, t => by
    have hstmts := repeatsNothing_tail stmts t
    simp only [compileBlock]
    exact repeatsNothing_beginScope.bind fun _ => hstmts.bind fun _ => repeatsNothing_endScope

theorem repeatsNothing_tail : (stmts : List Stmt) → (t : Nat) →
    RepeatsNothing (compileTail stmts t)
  | [], t => by
    simp only [compileTail]
    exact repeatsNothing_emit _
  | [.expr e], t => by
    simp only [compileTail]
    exact repeatsNothing_expr e t
  | [.bind mutable name value p], t =>
    repeatsNothing_rest (by simp) (repeatsNothing_stmt (.bind mutable name value p))
      (repeatsNothing_tail [] t)
  | [.assign target value p], t =>
    repeatsNothing_rest (by simp) (repeatsNothing_stmt (.assign target value p))
      (repeatsNothing_tail [] t)
  | [.func name params body p], t =>
    repeatsNothing_rest (by simp) (repeatsNothing_stmt (.func name params body p))
      (repeatsNothing_tail [] t)
  | [.retNil p], t =>
    repeatsNothing_rest (by simp) (repeatsNothing_stmt (.retNil p)) (repeatsNothing_tail [] t)
  | [.ret value p], t =>
    repeatsNothing_rest (by simp) (repeatsNothing_stmt (.ret value p)) (repeatsNothing_tail [] t)
  | [.loop test body p], t =>
    repeatsNothing_rest (by simp) (repeatsNothing_stmt (.loop test body p))
      (repeatsNothing_tail [] t)
  | stmt :: next :: rest, t =>
    repeatsNothing_rest (by simp) (repeatsNothing_stmt stmt) (repeatsNothing_tail (next :: rest) t)

theorem repeatsNothing_stmt : (stmt : Stmt) → RepeatsNothing (compileStmt stmt)
  | .bind mutable name value _ => by
    have hvalue := repeatsNothing_expr value
    simp only [compileStmt]
    exact repeatsNothing_takeReg.bind fun r => (hvalue r).bind fun _ =>
      repeatsNothing_bindName name mutable r
  | .assign target value pos => by
    have hvalue := repeatsNothing_expr value
    cases target with
    | name ident _ =>
      simp only [compileStmt]
      refine (repeatsNothing_destination ident pos).bind fun dest => ?_
      cases dest with
      | register r => exact repeatsNothing_temporary hvalue fun _ => repeatsNothing_emit _
      | slot s => exact repeatsNothing_temporary hvalue fun _ => repeatsNothing_emit _
    | _ =>
      simp only [compileStmt]
      exact repeatsNothing_throw
  | .func name params body pos => repeatsNothing_func (repeatsNothing_block body)
  | .retNil pos => by
    simp only [compileStmt]
    exact repeatsNothing_return fun r => repeatsNothing_emit _
  | .ret value pos => by
    have hvalue := repeatsNothing_expr value
    simp only [compileStmt]
    exact repeatsNothing_return hvalue
  | .loop test body _ => by
    have htest := repeatsNothing_expr test
    have hbody := repeatsNothing_block body
    simp only [compileStmt]
    exact repeatsNothing_loop htest hbody
  | .expr e => by
    have he := repeatsNothing_expr e
    simp only [compileStmt]
    refine .bindGet fun b => ?_
    split_ifs
    · exact he resultReg
    · exact repeatsNothing_takeReg.bind fun r => (he r).bind fun _ => repeatsNothing_giveBackReg

end

/-! ## Fragments -/

theorem repeatsNothing_main (f : Fragment) : RepeatsNothing (compileMain f) := by
  have hstmts : RepeatsNothing (compileStmts f) := by
    induction f with
    | nil => exact repeatsNothing_pure ()
    | cons stmt rest ih => exact (repeatsNothing_stmt stmt).bind fun _ => ih
  exact repeatsNothing_takeReg.bind fun _ => (repeatsNothing_emit _).bind fun _ =>
    hstmts.bind fun _ => repeatsNothing_emit _

theorem distinct_of_compileFragment {names : Names} {f : Fragment} {c : Compiled}
    (h : compileFragment names f = .ok c) :
    c.program.strings.toList.Nodup ∧ ∀ p ∈ c.program.bodies, p.constants.toList.Nodup := by
  unfold compileFragment at h
  split at h
  · cases h
  · next b hb =>
    cases h
    have hdistinct := repeatsNothing_main f _ _ _ (distinct_new names) hb
    refine ⟨hdistinct.strings, fun p hp => ?_⟩
    rcases List.mem_append.1 hp with hp | hp
    · exact hdistinct.finished p (Array.mem_toList_iff.1 hp)
    · rw [List.mem_singleton.1 hp]
      exact hdistinct.body

/-- No table of a compiled fragment holds anything twice. In a function that constants are asked for one
after another, an index that is handed out fits sixteen bits and stays the place of its constant; the
pool has at most as many entries as there are such indices, and only when it is full is a constant
refused that it does not hold, which changes nothing. -/
theorem pools_distinct :
    (∀ names f c, compileFragment names f = .ok c →
      c.program.strings.toList.Nodup ∧ ∀ p ∈ c.program.bodies, p.constants.toList.Nodup) ∧
    ∀ name arity earlier k,
      (Body.asked name arity earlier).constants.toList.Nodup ∧
      (Body.asked name arity earlier).constants.size ≤ 65536 ∧
      (∀ i g, (Body.asked name arity earlier).constantIndex k = .ok (i, g) →
        (UInt16.ofNat i).toNat = i ∧ g.constants[i]? = some k ∧
          ∀ later, (Body.asked name arity (earlier ++ k :: later)).constants[i]? = some k) ∧
      ∀ e, ((Body.asked name arity earlier).constantIndex k = .error e ↔
          e = .tooManyConstants ∧ k ∉ (Body.asked name arity earlier).constants ∧
            (Body.asked name arity earlier).constants.size = 65536) ∧
        ((Body.asked name arity earlier).constantIndex k = .error e →
          Body.asked name arity (earlier ++ [k]) = Body.asked name arity earlier) := by
  refine ⟨fun names f c => distinct_of_compileFragment, fun name arity earlier k => ?_⟩
  have hpool : (Body.asked name arity earlier).Pooled := (Body.pooled_new name arity).askAll _
  have hsize : (Body.asked name arity earlier).constants.size ≤ 65536 := hpool.size_le
  have happend : ∀ later, Body.asked name arity (earlier ++ k :: later) =
      ((Body.asked name arity earlier).ask k).askAll later :=
    fun later => List.foldl_append
  refine ⟨hpool.distinct, hsize, fun i g h => ?_, fun e => ⟨?_, fun h => ?_⟩⟩
  · obtain ⟨hg, hk⟩ := hpool.constantIndex h
    have hask : (Body.asked name arity earlier).ask k = g := by rw [Body.ask, h]
    refine ⟨hg.toNat_index hk, hk, fun later => ?_⟩
    rw [happend, hask]
    exact Body.getElem?_askAll hk later
  · rw [Body.constantIndex_eq_error_iff, maxWide]
    constructor
    · rintro ⟨he, hk, hfull⟩
      exact ⟨he, hk, by omega⟩
    · rintro ⟨he, hk, hfull⟩
      exact ⟨he, hk, by omega⟩
  · rw [happend]
    show (Body.asked name arity earlier).ask k = _
    rw [Body.ask, h]

end ScriptMachine.Compile
