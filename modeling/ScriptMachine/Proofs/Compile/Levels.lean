import ScriptMachine.Proofs.Compile.Fragments
import Mathlib.Data.List.Nodup

/-!
# Registers and strings in two compilations

How many registers code needs does not depend on what was compiled before it. Two compilations of one
tree that start with the same locals and the same registers in use keep them the same, and need the
same registers beside those that one of them may have needed earlier. Nor does one that had strings
before add any that the other does not.
-/

namespace ScriptMachine.Compile

open Source Bytecode

/-- What a compilation had before: so many registers were needed, and these strings were in its
table. -/
structure Earlier where
  slots : Nat
  strings : Array String

/-- Two builders with the same locals and registers in use, at one depth of scopes. The second one had
`m` before. -/
structure Level (w : Bool) (d : Nat) (m : Earlier) (b b' : Builder) : Prop where
  context : b'.context = b.context
  depth : b.body.depth = d
  waiting : b.waiting.isSome = w
  waiting' : b'.waiting.isSome = w
  slots : b'.body.maxSlots = max m.slots b.body.maxSlots
  strings : ∀ s ∈ b'.strings, s ∈ m.strings ∨ s ∈ b.strings
  distinct : b'.strings.toList.Nodup

/-- Two actions that lead from one level to one level. -/
def Levels {α : Type} (w : Bool) (d d' : Nat) (R : α → α → Prop) (act act' : Building α) : Prop :=
  ∀ m b b' x x' c c', Level w d m b b' → act b = .ok (x, c) → act' b' = .ok (x', c') →
    R x x' ∧ Level w d' m c c'

/-- Nothing is said of the results. -/
def anyResults {α : Type} (_ _ : α) : Prop :=
  True

/-- An action that leaves the locals, the registers and the strings as they are. -/
def Still {α : Type} (act : Building α) : Prop :=
  ∀ b x c, act b = .ok (x, c) → c.context = b.context ∧ c.waiting = b.waiting ∧
    c.body.maxSlots = b.body.maxSlots ∧ c.strings = b.strings

section

variable {α β : Type} {w : Bool} {d d₁ d' : Nat} {m : Earlier} {b b' : Builder}

theorem Level.depth' (h : Level w d m b b') : b'.body.depth = d :=
  (congrArg Context.depth h.context).trans h.depth

theorem Level.atTopLevel (h : Level w d m b b') :
    b.atTopLevel = (!w && d == 0) ∧ b'.atTopLevel = (!w && d == 0) := by
  have hnone : ∀ {o : Option Body}, o.isNone = !o.isSome := fun {o} => by cases o <;> rfl
  rw [Builder.atTopLevel, Builder.atTopLevel, hnone, hnone, h.waiting, h.waiting', h.depth, h.depth']
  exact ⟨rfl, rfl⟩

theorem Level.isNone (h : Level w d m b b') : b.waiting.isNone = !w ∧ b'.waiting.isNone = !w := by
  have hnone : ∀ {o : Option Body}, o.isNone = !o.isSome := fun {o} => by cases o <;> rfl
  rw [hnone, hnone, h.waiting, h.waiting']
  exact ⟨rfl, rfl⟩

/-! ## Actions one after the other -/

theorem Levels.bind {R : α → α → Prop} {S : β → β → Prop} {act act' : Building α}
    {next next' : α → Building β} (h : Levels w d d₁ R act act')
    (hnext : ∀ x x', R x x' → Levels w d₁ d' S (next x) (next' x')) :
    Levels w d d' S (act >>= next) (act' >>= next') := by
  intro m b b' y y' c c' hb hy hy'
  obtain ⟨x, b₁, hx, hy⟩ := bind_eq_ok.1 hy
  obtain ⟨x', b₁', hx', hy'⟩ := bind_eq_ok.1 hy'
  obtain ⟨hR, hb₁⟩ := h _ _ _ _ _ _ _ hb hx hx'
  exact hnext x x' hR _ _ _ _ _ _ _ hb₁ hy hy'

/-- What follows may look at the builders. -/
theorem Levels.bindGet {S : β → β → Prop} {next next' : Builder → Building β}
    (h : ∀ m b b', Level w d m b b' → Levels w d d' S (next b) (next' b')) :
    Levels w d d' S ((get : Building Builder) >>= next) ((get : Building Builder) >>= next') :=
  fun _ _ _ _ _ _ _ hb hy hy' =>
    h _ _ _ hb _ _ _ _ _ _ _ hb (get_bind_eq_ok.1 hy) (get_bind_eq_ok.1 hy')

/-- An action that fails leads to any level. -/
theorem levels_throw {e : CompileError} {R : α → α → Prop} {act : Building α} :
    Levels w d d' R (throw e) act :=
  fun _ _ _ _ _ _ _ _ hy _ => (throw_eq_ok.1 hy).elim

/-- Nor does anything come after it. -/
theorem levels_throw_bind {e : CompileError} {S : β → β → Prop} {next : α → Building β}
    {act : Building β} : Levels w d d' S ((throw e : Building α) >>= next) act := by
  intro _ _ _ _ _ _ _ _ hy _
  obtain ⟨_, _, hthrow, -⟩ := bind_eq_ok.1 hy
  exact (throw_eq_ok.1 hthrow).elim

/-! ## Actions that change neither registers nor strings -/

theorem still_pure {x : α} : Still (pure x : Building α) := by
  intro b y c h
  obtain ⟨rfl, rfl⟩ := pure_eq_ok.1 h
  exact ⟨rfl, rfl, rfl, rfl⟩

theorem still_throw {e : CompileError} : Still (throw e : Building α) :=
  fun _ _ _ h => (throw_eq_ok.1 h).elim

theorem Still.bind {act : Building α} {next : α → Building β} (h : Still act)
    (hnext : ∀ x, Still (next x)) : Still (act >>= next) := by
  intro b y c hy
  obtain ⟨x, b₁, hx, hy⟩ := bind_eq_ok.1 hy
  obtain ⟨hc, hw, hs, ht⟩ := h _ _ _ hx
  obtain ⟨hc', hw', hs', ht'⟩ := hnext x _ _ _ hy
  exact ⟨hc'.trans hc, hw'.trans hw, hs'.trans hs, ht'.trans ht⟩

theorem still_lift (act : Except CompileError α) : Still (liftM act) := by
  intro b x c h
  cases act with
  | error e => cases h
  | ok y =>
    cases h
    exact ⟨rfl, rfl, rfl, rfl⟩

theorem Still.bindGet {next : Builder → Building β} (h : ∀ b, Still (next b)) :
    Still ((get : Building Builder) >>= next) :=
  fun _ _ _ hy => h _ _ _ _ (get_bind_eq_ok.1 hy)

theorem still_emit (word : Word) : Still (updateBody fun f => f.emit word) := by
  intro b x c h
  rw [updateBody_ok h]
  exact ⟨rfl, rfl, rfl, rfl⟩

theorem still_here : Still here :=
  .bindGet fun _ => still_pure

theorem still_jumpAhead (op : Opcode) (a : Nat) : Still (jumpAhead op a) :=
  still_here.bind fun _ => (still_emit _).bind fun _ => still_pure

theorem still_aimJump (pos : Nat) : Still (aimJump pos) := by
  intro b x c h
  obtain ⟨f, hf, rfl⟩ := updateBody?_eq_ok.1 h
  unfold Body.aimJump at hf
  split_ifs at hf
  cases hf
  exact ⟨rfl, rfl, rfl, rfl⟩

theorem still_jumpBack (start : Nat) : Still (updateBody? fun f => f.jumpBack start) := by
  intro b x c h
  obtain ⟨f, hf, rfl⟩ := updateBody?_eq_ok.1 h
  unfold Body.jumpBack at hf
  split_ifs at hf
  cases hf
  exact ⟨rfl, rfl, rfl, rfl⟩

theorem still_constantIndex (k : Constant) : Still (constantIndex k) := by
  intro b x c h
  obtain ⟨f, hf, rfl⟩ := takeFromBody_eq_ok.1 h
  unfold Body.constantIndex at hf
  cases hfind : b.body.constants.idxOf? k with
  | some j =>
    simp only [hfind, Except.ok.injEq, Prod.mk.injEq] at hf
    obtain ⟨rfl, rfl⟩ := hf
    exact ⟨rfl, rfl, rfl, rfl⟩
  | none =>
    simp only [hfind] at hf
    split_ifs at hf
    cases hf
    exact ⟨rfl, rfl, rfl, rfl⟩

theorem still_loadConstant (k : Constant) (t : Nat) : Still (loadConstant k t) :=
  (still_constantIndex k).bind fun _ => still_emit _

theorem still_wideOperand (n : Nat) : Still (wideOperand n) := by
  unfold wideOperand
  split_ifs
  · exact still_throw
  · exact still_pure

theorem still_newSlot (name : String) (mutable : Bool) : Still (newSlot name mutable) := by
  intro b x c h
  unfold newSlot at h
  simp only at h
  split_ifs at h
  cases h
  exact ⟨rfl, rfl, rfl, rfl⟩

theorem still_loadName (name : String) (pos : Position) (t : Nat) : Still (loadName name pos t) := by
  refine .bindGet fun b => ?_
  cases b.body.local? name with
  | some l =>
    dsimp only
    split_ifs
    · exact still_pure
    · exact still_emit _
  | none =>
    dsimp only
    cases b.names.global? name with
    | some g => exact (still_wideOperand _).bind fun _ => still_emit _
    | none =>
      dsimp only
      cases b.names.primitive? name with
      | some index => exact (still_wideOperand _).bind fun _ => still_emit _
      | none => exact still_throw

theorem still_destination (name : String) (pos : Position) : Still (destination name pos) := by
  refine .bindGet fun b => ?_
  cases b.body.local? name with
  | some l =>
    dsimp only
    split_ifs
    · exact still_pure
    · exact still_throw
  | none =>
    dsimp only
    cases b.names.global? name with
    | some g =>
      dsimp only
      split_ifs
      · exact (still_wideOperand _).bind fun _ => still_pure
      · exact still_throw
    | none =>
      dsimp only
      split_ifs
      · exact still_throw
      · exact still_throw

/-- Such actions lead from each level to itself. -/
theorem Still.levels {act act' : Building α} (h : Still act) (h' : Still act') :
    Levels w d d anyResults act act' := by
  intro m b b' x x' c c' hb hx hx'
  obtain ⟨hc, hw, hs, ht⟩ := h _ _ _ hx
  obtain ⟨hc', hw', hs', ht'⟩ := h' _ _ _ hx'
  refine ⟨trivial, hc'.trans (hb.context.trans hc.symm), ?_, ?_, ?_, ?_, ?_, ?_⟩
  · exact (congrArg Context.depth hc).trans hb.depth
  · rw [hw, hb.waiting]
  · rw [hw', hb.waiting']
  · rw [hs', hs, hb.slots]
  · rw [ht, ht']
    exact hb.strings
  · rw [ht']
    exact hb.distinct

theorem Still.self {act : Building α} (h : Still act) : Levels w d d anyResults act act :=
  h.levels h

/-! ## Strings -/

/-- The table of strings gets a string that it did not hold. -/
theorem strings_of_stringIndex {s : String} {i : Nat} {c : Builder}
    (h : stringIndex s b = .ok (i, c)) :
    ∃ strings, c = { b with strings } ∧ s ∈ strings ∧ (∀ t ∈ b.strings, t ∈ strings) ∧
      (∀ t ∈ strings, t ∈ b.strings ∨ t = s) ∧ (b.strings.toList.Nodup → strings.toList.Nodup) := by
  unfold stringIndex at h
  cases hfind : b.strings.idxOf? s with
  | some j =>
    simp only [hfind, Except.ok.injEq, Prod.mk.injEq] at h
    obtain ⟨-, rfl⟩ := h
    refine ⟨b.strings, rfl, ?_, fun _ h => h, fun _ => .inl, id⟩
    exact Array.mem_of_getElem? (getElem?_of_idxOf? hfind)
  | none =>
    simp only [hfind] at h
    cases h
    have hnot : s ∉ b.strings := Array.idxOf?_eq_none_iff.1 hfind
    exact ⟨b.strings.push s, rfl, Array.mem_push_self, fun t => Array.mem_push_of_mem s,
      fun t => Array.mem_push.1, fun hnodup => nodup_push hnodup hnot⟩

theorem levels_stringIndex (s : String) :
    Levels w d d anyResults (stringIndex s) (stringIndex s) := by
  intro m b b' i i' c c' hb h h'
  obtain ⟨strings, rfl, hmem, hle, -, -⟩ := strings_of_stringIndex h
  obtain ⟨strings', rfl, -, -, hof, hnodup⟩ := strings_of_stringIndex h'
  refine ⟨trivial, hb.context, hb.depth, hb.waiting, hb.waiting', hb.slots, fun t ht => ?_,
    hnodup hb.distinct⟩
  rcases hof t ht with ht | rfl
  · exact (hb.strings t ht).imp_right (hle t)
  · exact .inr hmem

/-! ## Registers and scopes -/

theorem levels_takeReg : Levels w d d Eq takeReg takeReg := by
  intro m b b' r r' c c' hb h h'
  obtain ⟨f, hf, rfl⟩ := takeFromBody_eq_ok.1 h
  obtain ⟨f', hf', rfl⟩ := takeFromBody_eq_ok.1 h'
  have htop : b'.body.regTop = b.body.regTop := congrArg Context.top hb.context
  have hlocals : b'.body.locals = b.body.locals := congrArg Context.locals hb.context
  unfold Body.takeReg at hf hf'
  rw [htop] at hf'
  split_ifs at hf hf'
  cases hf
  cases hf'
  refine ⟨rfl, ?_, hb.depth, hb.waiting, hb.waiting', ?_, hb.strings, hb.distinct⟩
  · show (⟨b'.body.locals, b'.body.depth, _⟩ : Context) = ⟨b.body.locals, b.body.depth, _⟩
    rw [hlocals, hb.depth, hb.depth']
  · show max b'.body.maxSlots _ = max m.slots (max b.body.maxSlots _)
    rw [hb.slots, Nat.max_assoc]

/-- A change of the context that depends on nothing else. -/
theorem levels_context (change : Body → Body)
    (hcontext : ∀ f g : Body, f.context = g.context → (change f).context = (change g).context)
    (hdepth : ∀ f : Body, f.depth = d → (change f).depth = d')
    (hslots : ∀ f : Body, (change f).maxSlots = f.maxSlots) :
    Levels w d d' anyResults (updateBody change) (updateBody change) := by
  intro m b b' x x' c c' hb h h'
  rw [updateBody_ok h, updateBody_ok h']
  refine ⟨trivial, hcontext _ _ hb.context, hdepth _ hb.depth, hb.waiting, hb.waiting', ?_, hb.strings,
    hb.distinct⟩
  show (change b'.body).maxSlots = max m.slots (change b.body).maxSlots
  rw [hslots, hslots, hb.slots]

theorem levels_giveBackRegs (n : Nat) :
    Levels w d d anyResults (giveBackRegs n) (giveBackRegs n) :=
  levels_context _ (fun _ _ h => congrArg (fun c : Context => { c with top := c.top - n }) h)
    (fun _ h => h) fun _ => rfl

theorem levels_giveBackReg : Levels w d d anyResults giveBackReg giveBackReg :=
  levels_giveBackRegs 1

theorem levels_declare (name : String) (reg : Nat) (mutable : Bool) :
    Levels w d d anyResults (updateBody fun f => f.declare name reg mutable)
      (updateBody fun f => f.declare name reg mutable) :=
  levels_context _ (fun _ _ h => congrArg
      (fun c : Context => { c with locals := ⟨name, c.depth, reg, mutable⟩ :: c.locals }) h)
    (fun _ h => h) fun _ => rfl

theorem levels_beginScope :
    Levels w d (d + 1) anyResults (updateBody Body.beginScope) (updateBody Body.beginScope) :=
  levels_context _ (fun _ _ h => congrArg Context.deepen h) (fun _ h => congrArg (· + 1) h) fun _ => rfl

theorem levels_endScope :
    Levels w (d + 1) d anyResults (updateBody Body.endScope) (updateBody Body.endScope) := by
  refine levels_context _ (fun f g h => ?_) (fun _ h => congrArg (· - 1) h) fun _ => rfl
  obtain ⟨hlocals, hdepth, htop⟩ := Context.mk.inj h
  simp only [Body.context, Body.endScope, hlocals, hdepth, htop]

theorem levels_declareParams (params earlier : List String) (i : Nat) :
    Levels w d d anyResults (declareParams i earlier params) (declareParams i earlier params) := by
  induction params generalizing i earlier with
  | nil => exact still_pure.self
  | cons param rest ih =>
    unfold declareParams
    split_ifs
    · exact levels_throw_bind
    · exact .bind (levels_declare _ _ _) fun _ _ _ => ih _ _

theorem levels_bindName (name : String) (mutable : Bool) (reg : Nat) :
    Levels w d d anyResults (bindName name mutable reg) (bindName name mutable reg) := by
  refine .bindGet fun m b b' hb => ?_
  rw [hb.atTopLevel.1, hb.atTopLevel.2]
  split_ifs
  · refine .bind (still_newSlot name mutable).self fun _ _ _ => ?_
    exact .bind ((still_emit _).levels (still_emit _)) fun _ _ _ => levels_giveBackReg
  · exact levels_declare _ _ _

/-- Two actions with a register of their own. -/
theorem Levels.withReg {S : β → β → Prop} {next next' : Nat → Building β}
    (h : ∀ r, Levels w d d' S (next r) (next' r)) :
    Levels w d d' S (takeReg >>= next) (takeReg >>= next') :=
  .bind levels_takeReg fun r _ hr => hr ▸ h r

/-- The same action twice, and then what follows from each of its results. -/
theorem Levels.seq {act : Building α} {S : β → β → Prop} {next next' : α → Building β}
    (h : Levels w d d₁ anyResults act act)
    (hnext : ∀ x x', Levels w d₁ d' S (next x) (next' x')) :
    Levels w d d' S (act >>= next) (act >>= next') :=
  .bind h fun x x' _ => hnext x x'

end

/-! ## Trees -/

/-- An action that leads from each level of this kind to itself. -/
abbrev Keeps (act : Building Unit) : Prop :=
  ∀ w d, Levels w d d anyResults act act

/-- An action that leads from each level of this kind to itself, inside a scope. -/
abbrev KeepsInside (act : Building Unit) : Prop :=
  ∀ w d, Levels w (d + 1) (d + 1) anyResults act act

/-- A statement that leads from each level to itself where it is no declaration of a function. -/
abbrev KeepsStmt (stmt : Stmt) : Prop :=
  ∀ w d, ((!w && d == 0) = true → ∀ name params body pos, stmt ≠ .func name params body pos) →
    Levels w d d anyResults (compileStmt stmt) (compileStmt stmt)

theorem Keeps.inside {act : Building Unit} (h : Keeps act) : KeepsInside act :=
  fun w d => h w (d + 1)

theorem keeps_last {stmt : Stmt} {rest : List Stmt} {t : Nat}
    (hlast : ∀ e, stmt = .expr e → rest ≠ []) (hstmt : KeepsStmt stmt)
    (hrest : KeepsInside (compileTail rest t)) : KeepsInside (compileTail (stmt :: rest) t) := by
  intro w d
  rw [compileTail_cons hlast]
  exact .seq (hstmt w (d + 1) (by simp)) fun _ _ => hrest w d

theorem keeps_emit (word : Word) : Keeps (updateBody fun f => f.emit word) :=
  fun _ _ => (still_emit word).self

/-- A test in a register of its own, and two ways on. -/
theorem keeps_choice {test : Nat → Building Unit} {body otherwise : Building Unit}
    (htest : ∀ r, Keeps (test r)) (hbody : Keeps body) (helse : Keeps otherwise) :
    Keeps (do
      let reg ← takeReg
      test reg
      let toElse ← jumpAhead .jumpIfFalse reg
      giveBackReg
      body
      let toEnd ← jumpAhead .jump 0
      aimJump toElse
      otherwise
      aimJump toEnd) := by
  intro w d
  refine .withReg fun r => .seq (htest r w d) fun _ _ => ?_
  refine .seq (still_jumpAhead _ r).self fun toElse toElse' => .seq levels_giveBackReg fun _ _ => ?_
  refine .seq (hbody w d) fun _ _ => .seq (still_jumpAhead _ 0).self fun toEnd toEnd' => ?_
  refine .bind ((still_aimJump toElse).levels (still_aimJump toElse')) fun _ _ _ => ?_
  exact .seq (helse w d) fun _ _ => (still_aimJump toEnd).levels (still_aimJump toEnd')

mutual

/-- An expression needs the same registers. -/
theorem levels_expr : (e : Expr) → (t : Nat) → Keeps (compileInto e t)
  | .number digits _, t => fun w d => by
    simp only [compileInto]
    exact .seq (still_lift _).self fun _ _ =>
      (still_loadConstant _ t).levels (still_loadConstant _ t)
  | .text raw _, t => fun w d => by
    simp only [compileInto]
    exact .seq (levels_stringIndex _) fun _ _ =>
      (still_loadConstant _ t).levels (still_loadConstant _ t)
  | .bool true _, t => by
    simp only [compileInto]
    exact keeps_emit _
  | .bool false _, t => by
    simp only [compileInto]
    exact keeps_emit _
  | .nil _, t => by
    simp only [compileInto]
    exact keeps_emit _
  | .name ident pos, t => fun w d => by
    simp only [compileInto]
    exact (still_loadName ident pos t).self
  | .binary op lhs rhs _, t => fun w d => by
    have hl := levels_expr lhs t
    have hr := levels_expr rhs
    simp only [compileInto]
    refine .seq (hl w d) fun _ _ => ?_
    cases operatorCode? op with
    | some code =>
      refine .withReg fun r => .seq (hr r w d) fun _ _ => ?_
      exact .seq (still_emit _).self fun _ _ => levels_giveBackReg
    | none =>
      refine .bind (still_jumpAhead _ t).self fun _ _ _ => .seq (hr t w d) fun _ _ => ?_
      exact (still_aimJump _).levels (still_aimJump _)
  | .unary op operand _, t => fun w d => by
    have he := levels_expr operand t
    simp only [compileInto]
    exact .seq (he w d) fun _ _ => (still_emit _).self
  | .call callee args _, t => fun w d => by
    have hf := levels_expr callee
    have hargs := levels_args args
    simp only [compileInto]
    split_ifs with hcount
    · exact levels_throw_bind
    · refine .withReg fun r => .seq (hf r w d) fun _ _ => .seq (hargs w d) fun _ _ => ?_
      refine .seq (still_emit _).self fun _ _ => ?_
      exact .seq (levels_giveBackRegs _) fun _ _ => levels_giveBackReg
  | .cond test body otherwise _, t => by
    have htest := levels_expr test
    have hbody := levels_block body t
    have helse := levels_else otherwise t
    simp only [compileInto]
    exact keeps_choice htest hbody helse
  | .block body, t => by
    have hbody := levels_block body t
    simp only [compileInto]
    exact hbody

theorem levels_args : (args : List Expr) → Keeps (compileArgs args)
  | [] => fun w d => by
    simp only [compileArgs]
    exact still_pure.self
  | arg :: rest => fun w d => by
    have harg := levels_expr arg
    have hrest := levels_args rest
    simp only [compileArgs]
    exact .withReg fun r => .seq (harg r w d) fun _ _ => hrest w d

theorem levels_else : (e : Else) → (t : Nat) → Keeps (compileElse e t)
  | .absent, t => by
    simp only [compileElse]
    exact keeps_emit _
  | .block body, t => by
    have hbody := levels_block body t
    simp only [compileElse]
    exact hbody
  | .elseIf test body otherwise _, t => by
    have htest := levels_expr test
    have hbody := levels_block body t
    have helse := levels_else otherwise t
    simp only [compileElse]
    exact keeps_choice htest hbody helse

/-- A block needs the same registers. -/
theorem levels_block : (body : Block) → (t : Nat) → Keeps (compileBlock body t)
  | .mk stmts _, t => fun w d => by
    have hstmts := levels_tail stmts t
    simp only [compileBlock]
    exact .seq levels_beginScope fun _ _ => .seq (hstmts w d) fun _ _ => levels_endScope

/-- The statements of a block need the same registers. -/
theorem levels_tail : (stmts : List Stmt) → (t : Nat) → KeepsInside (compileTail stmts t)
  | [], t => by
    simp only [compileTail]
    exact (keeps_emit _).inside
  | [.expr e], t => by
    have he := levels_expr e t
    simp only [compileTail]
    exact he.inside
  | [.bind mutable name value pos], t =>
    keeps_last (by simp) (levels_stmt (.bind mutable name value pos)) (levels_tail [] t)
  | [.assign target value pos], t =>
    keeps_last (by simp) (levels_stmt (.assign target value pos)) (levels_tail [] t)
  | [.func name params body pos], t =>
    keeps_last (by simp) (levels_stmt (.func name params body pos)) (levels_tail [] t)
  | [.retNil pos], t =>
    keeps_last (by simp) (levels_stmt (.retNil pos)) (levels_tail [] t)
  | [.ret value pos], t =>
    keeps_last (by simp) (levels_stmt (.ret value pos)) (levels_tail [] t)
  | [.loop test body pos], t =>
    keeps_last (by simp) (levels_stmt (.loop test body pos)) (levels_tail [] t)
  | stmt :: next :: rest, t =>
    keeps_last (by simp) (levels_stmt stmt) (levels_tail (next :: rest) t)

/-- A statement needs the same registers; at the top level it may not be a declaration. -/
theorem levels_stmt : (stmt : Stmt) → KeepsStmt stmt
  | .bind mutable name value pos => fun w d _ => by
    have hvalue := levels_expr value
    simp only [compileStmt]
    exact .withReg fun r => .seq (hvalue r w d) fun _ _ => levels_bindName name mutable r
  | .assign target value pos => fun w d _ => by
    have hvalue := levels_expr value
    cases target with
    | name ident p =>
      simp only [compileStmt]
      refine .seq (still_destination ident pos).self fun dest dest' => .withReg fun r => ?_
      refine .seq (hvalue r w d) fun _ _ => ?_
      cases dest <;> cases dest' <;>
        exact .bind ((still_emit _).levels (still_emit _)) fun _ _ _ => levels_giveBackReg
    | _ =>
      simp only [compileStmt]
      exact levels_throw
  | .func name params body pos => fun w d hplace => by
    simp only [compileStmt]
    refine .bindGet fun m b b' hb => ?_
    have hinside : (!w && d == 0) = false :=
      Bool.eq_false_iff.2 fun htop => hplace htop name params body pos rfl
    rw [hb.atTopLevel.1, hinside]
    exact levels_throw_bind
  | .retNil pos => fun w d _ => by
    simp only [compileStmt]
    refine .bindGet fun m b b' hb => ?_
    rw [hb.isNone.1, hb.isNone.2]
    split_ifs
    · exact levels_throw_bind
    · refine .withReg fun r => .seq (still_emit _).self fun _ _ => ?_
      exact .seq (still_emit _).self fun _ _ => levels_giveBackReg
  | .ret value pos => fun w d _ => by
    have hvalue := levels_expr value
    simp only [compileStmt]
    refine .bindGet fun m b b' hb => ?_
    rw [hb.isNone.1, hb.isNone.2]
    split_ifs
    · exact levels_throw_bind
    · refine .withReg fun r => .seq (hvalue r w d) fun _ _ => ?_
      exact .seq (still_emit _).self fun _ _ => levels_giveBackReg
  | .loop test body pos => fun w d _ => by
    have htest := levels_expr test
    have hbody := levels_block body
    simp only [compileStmt]
    refine .seq still_here.self fun start start' => .withReg fun r => .seq (htest r w d) fun _ _ => ?_
    refine .seq (still_jumpAhead _ r).self fun toEnd toEnd' => .seq levels_giveBackReg fun _ _ => ?_
    refine .withReg fun scratch => .seq (hbody scratch w d) fun _ _ => ?_
    refine .seq levels_giveBackReg fun _ _ => ?_
    refine .bind ((still_jumpBack start).levels (still_jumpBack start')) fun _ _ _ => ?_
    exact (still_aimJump toEnd).levels (still_aimJump toEnd')
  | .expr e => fun w d _ => by
    have he := levels_expr e
    simp only [compileStmt]
    refine .bindGet fun m b b' hb => ?_
    rw [hb.atTopLevel.1, hb.atTopLevel.2]
    split_ifs
    · exact he _ w d
    · exact .withReg fun r => .seq (he r w d) fun _ _ => levels_giveBackReg

end

/-! ## Functions -/

theorem levels_functionCode (w : Bool) (params : List String) (body : Block) :
    Levels w 0 1 anyResults (functionCode params body) (functionCode params body) := by
  have hstart : Levels w 0 1 Eq (startFunction params) (startFunction params) :=
    .seq levels_beginScope fun _ _ => .seq (levels_declareParams params [] 0) fun _ _ =>
      levels_takeReg
  refine .bind hstart fun result _ hresult => ?_
  subst hresult
  exact .seq (levels_block body result w 1) fun _ _ => (still_emit _).self

/-- From `b` to `c` and from `b'` to `c'`, functions that need the same registers were finished. -/
structure Matched (m : Earlier) (b b' c c' : Builder) : Prop where
  level : Level false 0 m c c'
  prototypes : ∃ ps ps', c.prototypes.toList = b.prototypes.toList ++ ps ∧
    c'.prototypes.toList = b'.prototypes.toList ++ ps' ∧
    List.Forall₂ (fun p p' => p'.slots = p.slots) ps ps'

namespace Matched

variable {m : Earlier} {b b' c c' e e' : Builder}

theorem of_level (h : Level false 0 m c c') (hp : c.prototypes = b.prototypes)
    (hp' : c'.prototypes = b'.prototypes) : Matched m b b' c c' :=
  ⟨h, [], [], by rw [hp, List.append_nil], by rw [hp', List.append_nil], .nil⟩

theorem trans (h : Matched m b b' c c') (h' : Matched m c c' e e') : Matched m b b' e e' := by
  obtain ⟨ps, ps', hps, hps', hall⟩ := h.prototypes
  obtain ⟨qs, qs', hqs, hqs', hall'⟩ := h'.prototypes
  exact ⟨h'.level, ps ++ qs, ps' ++ qs', by rw [hqs, hps, List.append_assoc],
    by rw [hqs', hps', List.append_assoc], List.rel_append hall hall'⟩

end Matched

/-- A function that is compiled twice needs the same registers each time. -/
theorem matched_function {m : Earlier} {name : String} {params : List String} {body : Block}
    {b b' c c' : Builder} {index index' : Nat} (hb : Level false 0 m b b')
    (hcount : params.length ≤ maxArguments)
    (h : compileFunction name params body b = .ok (index, c))
    (h' : compileFunction name params body b' = .ok (index', c')) : Matched m b b' c c' := by
  obtain ⟨u₁, b₁, h₁, h⟩ := bind_eq_ok.1 h
  obtain ⟨u₂, b₂, h₂, h₃⟩ := bind_eq_ok.1 h
  obtain ⟨u₁', b₁', h₁', h'⟩ := bind_eq_ok.1 h'
  obtain ⟨u₂', b₂', h₂', h₃'⟩ := bind_eq_ok.1 h'
  cases h₁
  cases h₁'
  cases h₃
  cases h₃'
  obtain ⟨hg, -⟩ := functionCode_ok (b := b) hcount h₂
  obtain ⟨hg', -⟩ := functionCode_ok (b := b') hcount h₂'
  have hentered : Level true 0 ⟨0, m.strings⟩ (b.entered name params.length)
      (b'.entered name params.length) :=
    ⟨rfl, rfl, rfl, rfl, (Nat.zero_max _).symm, hb.strings, hb.distinct⟩
  obtain ⟨-, hlevel⟩ := levels_functionCode true params body _ _ _ _ _ _ _ hentered h₂ h₂'
  have hmain : b₂.waiting = some b.body := hg.waiting
  have hmain' : b₂'.waiting = some b'.body := hg'.waiting
  refine ⟨⟨?_, ?_, rfl, rfl, ?_, hlevel.strings, hlevel.distinct⟩, [b₂.body.toPrototype], [b₂'.body.toPrototype], ?_, ?_,
    .cons ?_ .nil⟩
  · show (b₂'.waiting.getD b₂'.body).context = (b₂.waiting.getD b₂.body).context
    rw [hmain, hmain']
    exact hb.context
  · show (b₂.waiting.getD b₂.body).depth = 0
    rw [hmain]
    exact hb.depth
  · show (b₂'.waiting.getD b₂'.body).maxSlots = max m.slots (b₂.waiting.getD b₂.body).maxSlots
    rw [hmain, hmain']
    exact hb.slots
  · show (b₂.prototypes.push b₂.body.toPrototype).toList = _
    rw [Array.toList_push, hg.prototypes]
    rfl
  · show (b₂'.prototypes.push b₂'.body.toPrototype).toList = _
    rw [Array.toList_push, hg'.prototypes]
    rfl
  · show UInt16.ofNat (max b₂'.body.maxSlots 1) = UInt16.ofNat (max b₂.body.maxSlots 1)
    rw [hlevel.slots, Nat.zero_max]

theorem levels_storeFunction {w : Bool} {d : Nat} (slot slot' index index' : Nat) :
    Levels w d d anyResults (storeFunction slot index) (storeFunction slot' index') := by
  refine .bind ((still_constantIndex _).levels (still_constantIndex _)) fun k k' _ => ?_
  refine .withReg fun r => .bind ((still_emit _).levels (still_emit _)) fun _ _ _ => ?_
  exact .bind ((still_emit _).levels (still_emit _)) fun _ _ _ => levels_giveBackReg

theorem storeFunction_prototypes {slot index : Nat} {b c : Builder} {u : Unit}
    (h : storeFunction slot index b = .ok (u, c)) : c.prototypes = b.prototypes := by
  obtain ⟨k, b₁, h₁, h⟩ := bind_eq_ok.1 h
  obtain ⟨r, b₂, h₂, h⟩ := bind_eq_ok.1 h
  obtain ⟨u₃, b₃, h₃, h⟩ := bind_eq_ok.1 h
  obtain ⟨u₄, b₄, h₄, h₅⟩ := bind_eq_ok.1 h
  obtain ⟨f, -, rfl⟩ := takeFromBody_eq_ok.1 h₁
  obtain ⟨g, -, rfl⟩ := takeFromBody_eq_ok.1 h₂
  rw [updateBody_ok h₅, updateBody_ok h₄, updateBody_ok h₃]

/-- So does a declaration. -/
theorem matched_func {m : Earlier} {name : String} {params : List String} {body : Block}
    {pos : Position} {b b' c c' : Builder} {u u' : Unit} (hb : AtTop b) (hb' : AtTop b')
    (hlevel : Level false 0 m b b') (h : compileStmt (.func name params body pos) b = .ok (u, c))
    (h' : compileStmt (.func name params body pos) b' = .ok (u', c')) : Matched m b b' c c' := by
  rw [compileStmt_func, get_bind_eq_ok, if_neg (by simp [hb.atTopLevel])] at h
  rw [compileStmt_func, get_bind_eq_ok, if_neg (by simp [hb'.atTopLevel])] at h'
  split_ifs at h h' with hcount
  · obtain ⟨_, _, hthrow, -⟩ := bind_eq_ok.1 h
    exact (throw_eq_ok.1 hthrow).elim
  obtain ⟨slot, b₁, h₁, h⟩ := bind_eq_ok.1 h
  obtain ⟨slot', b₁', h₁', h'⟩ := bind_eq_ok.1 h'
  obtain ⟨index, b₂, h₂, h₃⟩ := bind_eq_ok.1 h
  obtain ⟨index', b₂', h₂', h₃'⟩ := bind_eq_ok.1 h'
  obtain ⟨-, hstart⟩ := (still_newSlot name false).self _ _ _ _ _ _ _ hlevel h₁ h₁'
  obtain ⟨-, -, rfl⟩ := newSlot_ok h₁
  obtain ⟨-, -, rfl⟩ := newSlot_ok h₁'
  have hfunction := matched_function hstart (Nat.le_of_not_lt hcount) h₂ h₂'
  obtain ⟨-, hend⟩ := levels_storeFunction _ _ _ _ _ _ _ _ _ _ _ hfunction.level h₃ h₃'
  refine ⟨hend, ?_⟩
  rw [storeFunction_prototypes h₃, storeFunction_prototypes h₃']
  exact hfunction.prototypes

/-! ## Fragments -/

section

variable {m : Earlier} {b b' c c' : Builder} {u u' : Unit}

theorem prototypes_of_laysTop {stmt : Stmt} (h : LaysTop b c stmt)
    (hnone : declared b.names [stmt] = []) : c.prototypes = b.prototypes := by
  have ha := h.advances
  rw [hnone] at ha
  obtain ⟨ps, hps, hall⟩ := ha.prototypes
  cases hall
  exact Array.toList_inj.1 (hps.trans (List.append_nil _))

/-- Statements at the top level that are compiled twice need the same registers each time, and so do
their functions. -/
theorem matched_stmt {stmt : Stmt} (hb : AtTop b) (hb' : AtTop b') (hlevel : Level false 0 m b b')
    (h : compileStmt stmt b = .ok (u, c)) (h' : compileStmt stmt b' = .ok (u', c')) :
    Matched m b b' c c' := by
  by_cases hfunc : ∃ name params body pos, stmt = .func name params body pos
  · obtain ⟨name, params, body, pos, rfl⟩ := hfunc
    exact matched_func hb hb' hlevel h h'
  · have hother : ∀ name params body pos, stmt ≠ .func name params body pos :=
      fun name params body pos he => hfunc ⟨name, params, body, pos, he⟩
    have hnone : ∀ names, declared names [stmt] = [] := by
      cases stmt with
      | func => exact absurd rfl (hother _ _ _ _)
      | _ => exact fun _ => rfl
    obtain ⟨-, hend⟩ := levels_stmt stmt false 0 (fun _ => hother) _ _ _ _ _ _ _ hlevel h h'
    exact .of_level hend (prototypes_of_laysTop (laysTop_stmt hb h) (hnone _))
      (prototypes_of_laysTop (laysTop_stmt hb' h') (hnone _))

theorem matched_stmts {stmts : List Stmt} (hb : AtTop b) (hb' : AtTop b')
    (hlevel : Level false 0 m b b') (h : compileStmts stmts b = .ok (u, c))
    (h' : compileStmts stmts b' = .ok (u', c')) : Matched m b b' c c' := by
  induction stmts generalizing b b' with
  | nil =>
    obtain ⟨-, rfl⟩ := pure_eq_ok.1 h
    obtain ⟨-, rfl⟩ := pure_eq_ok.1 h'
    exact .of_level hlevel rfl rfl
  | cons stmt rest ih =>
    obtain ⟨u₁, b₁, h₁, h₂⟩ := bind_eq_ok.1 h
    obtain ⟨u₁', b₁', h₁', h₂'⟩ := bind_eq_ok.1 h'
    have hfirst := matched_stmt hb hb' hlevel h₁ h₁'
    exact hfirst.trans (ih (hb.advances (laysTop_stmt hb h₁).advances)
      (hb'.advances (laysTop_stmt hb' h₁').advances) hfirst.level h₂ h₂')

theorem compileStmts_append (p q : List Stmt) :
    compileStmts (p ++ q) = compileStmts p >>= fun _ => compileStmts q := by
  induction p with
  | nil => rfl
  | cons stmt rest ih =>
    rw [List.cons_append, compileStmts, ih, compileStmts, bind_assoc]

end

/-- A compilation whose result is nil so far. -/
def Builder.started (names : Names) : Builder :=
  { Builder.new names with body := ⟨"main", 0, [], 0, #[.abx .loadNil resultReg 0], #[], 1, 1⟩ }

theorem atTop_started (names : Names) : AtTop (.started names) where
  sound := ⟨Nat.zero_le _, fun k hk => (Array.not_mem_empty k hk).elim, Nat.le_refl _,
    show 1 ≤ 255 by decide⟩
  context := rfl
  waiting := rfl

/-- A compiled fragment has the functions and strings that its statements lead to, and the registers
that they need. -/
theorem stmts_of_compileFragment {names : Names} {f : Fragment} {c : Compiled}
    (h : compileFragment names f = .ok c) :
    ∃ b u, compileStmts f (.started names) = .ok (u, b) ∧ c.program.prototypes = b.prototypes ∧
      c.program.strings = b.strings ∧ c.program.main.slots.toNat = max b.body.maxSlots 1 := by
  unfold compileFragment at h
  cases hmain : compileMain f (.new names) with
  | error e =>
    rw [hmain] at h
    cases h
  | ok r =>
    obtain ⟨u, b⟩ := r
    rw [hmain] at h
    cases h
    have hrest : (compileStmts f >>= fun _ => emitABC .ret resultReg 0 0) (.started names) =
        .ok (u, b) := hmain
    obtain ⟨u₁, b₁, h₁, h₂⟩ := bind_eq_ok.1 hrest
    have hb₁ := (atTop_started names).advances (lays_stmts f (atTop_started names) h₁).1
    rw [updateBody_ok h₂]
    refine ⟨b₁, u₁, h₁, rfl, rfl, ?_⟩
    have hle : b₁.body.maxSlots ≤ 255 := Body.Sound.slots_le hb₁.sound
    exact slots_toPrototype (f := b₁.body.emit _) hle

/-- The code of two fragments needs no more registers than that of the two as one, and their functions
need the same. The two as one have no more strings. -/
structure Split (c c' joint : Compiled) : Prop where
  functions : List.Forall₂ (fun p p' => p'.slots = p.slots)
    (c.program.prototypes.toList ++ c'.program.prototypes.toList) joint.program.prototypes.toList
  first : c.program.main.slots.toNat ≤ joint.program.main.slots.toNat
  second : c'.program.main.slots.toNat ≤ joint.program.main.slots.toNat
  strings : joint.program.strings.size ≤ c.program.strings.size + c'.program.strings.size

/-- Each compilation is on a level with itself. -/
theorem level_started (names : Names) : Level false 0 ⟨0, #[]⟩ (.started names) (.started names) where
  context := rfl
  depth := rfl
  waiting := rfl
  waiting' := rfl
  slots := (Nat.zero_max _).symm
  strings _ h := .inr h
  distinct := .nil

/-- Strings that are told apart are no more than those they are among. -/
theorem size_le_of_mem {xs ys zs : Array String} (hdistinct : xs.toList.Nodup)
    (h : ∀ s ∈ xs, s ∈ ys ∨ s ∈ zs) : xs.size ≤ ys.size + zs.size := by
  have hsub : xs.toList ⊆ ys.toList ++ zs.toList := by
    intro s hs
    simpa using h s (Array.mem_toList_iff.1 hs)
  simpa using hdistinct.length_le_of_subset hsub

theorem split_of_compileFragment {names names' : Names} {p q : Fragment} {c c' joint : Compiled}
    (hp : compileFragment names p = .ok c) (hq : compileFragment names' q = .ok c')
    (h : compileFragment names (p ++ q) = .ok joint) : Split c c' joint := by
  obtain ⟨b, u, hstmts, hprototypes, hstrings, hslots⟩ := stmts_of_compileFragment hp
  obtain ⟨b', u', hstmts', hprototypes', hstrings', hslots'⟩ := stmts_of_compileFragment hq
  obtain ⟨e, v, hjoint, hprototypesJ, hstringsJ, hslotsJ⟩ := stmts_of_compileFragment h
  rw [compileStmts_append] at hjoint
  obtain ⟨u₁, b₁, h₁, h₂⟩ := bind_eq_ok.1 hjoint
  obtain ⟨rfl, rfl⟩ := Prod.mk.inj (Except.ok.inj (hstmts.symm.trans h₁))
  obtain ⟨ha, -⟩ := lays_stmts p (atTop_started names) hstmts
  have hb := (atTop_started names).advances ha
  obtain ⟨ha₂, -⟩ := lays_stmts q hb h₂
  have hroom : 1 ≤ b.body.maxSlots := ha.expands.slots
  have hsome : b.waiting.isSome = false := by rw [hb.waiting]; rfl
  have hfirst := matched_stmts (atTop_started names) (atTop_started names) (level_started names)
    hstmts hstmts
  have hlevel : Level false 0 ⟨b.body.maxSlots, b.strings⟩ (.started names') b :=
    ⟨hb.context, rfl, rfl, hsome, (Nat.max_eq_left hroom).symm, fun _ hs => .inl hs,
      hfirst.level.distinct⟩
  have hm := matched_stmts (atTop_started names') hb hlevel hstmts' h₂
  obtain ⟨qs, qs', hqs, hqs', hall⟩ := hm.prototypes
  have hlater : b.body.maxSlots ≤ e.body.maxSlots := ha₂.expands.slots
  refine ⟨?_, ?_, ?_, ?_⟩
  · rw [hprototypes, hprototypes', hprototypesJ, hqs', hqs]
    refine List.rel_append ?_ hall
    exact List.forall₂_same.2 fun _ _ => rfl
  · rw [hslots, hslotsJ]
    omega
  · rw [hslots', hslotsJ, hm.level.slots]
    dsimp only
    omega
  · rw [hstrings, hstrings', hstringsJ]
    exact size_le_of_mem hm.level.distinct hm.level.strings

end ScriptMachine.Compile
