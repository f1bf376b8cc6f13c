import ScriptMachine.Proofs.Scoping.Naming
import ScriptMachine.Proofs.Scoping.Order

/-!
# The compiler judges every site

Whatever it compiles, the compiler checks the sites of the tree in their order, with the surroundings
that each stands among.
-/

namespace ScriptMachine.Scoping

open Source Compile

variable {v : View} {s : Surroundings}

/-! ## Blocks and functions -/

theorem View.Shows.deepen (h : v.Shows s) : v.deepen.Shows s.inBlock where
  locals := h.locals
  globals := h.globals
  primitives := h.primitives
  inFunction := h.inFunction
  topLevel := by simp [View.atTopLevel, View.deepen, Surroundings.inBlock]
  nested l hl := Nat.le_succ_of_le (h.nested l hl)

/-- A block leaves nothing behind of what its statements have declared. -/
theorem checks_block {sites : List Site} {code : Building Unit} (h : v.Shows s)
    (hcode : v.deepen.Shows s.inBlock → Checks v.deepen code sites fun _ w => v.deepen.Follows w) :
    Checks v (do updateBody Body.beginScope; code; updateBody Body.endScope) sites
      fun _ w => w = v := by
  have hinside : Checks v.deepen (code >>= fun _ => updateBody Body.endScope) (sites ++ [])
      fun _ w => w = v :=
    (hcode h.deepen).bind fun _ w hw =>
      (checks_endScope w).mono fun _ w' hw' => hw'.trans (hw.surface h.nested)
  rw [List.append_nil] at hinside
  exact (checks_beginScope v).bind fun _ w hw => hw ▸ hinside

/-- Parameters become locals as long as their names are new. -/
theorem checks_declareParams {name : String} {p : Position} (htop : s.topLevel = true)
    (params : List String) (i : Nat) {earlier : List String} (hearlier : earlier.Nodup) (v : View) :
    Checks v (declareParams i earlier params) [⟨s, .func name (earlier.reverse ++ params), p⟩]
      fun _ w => ∃ new, w = { v with locals := new ++ v.locals } ∧
        new.map (fun l => (l.name, l.mutable)) = params.reverse.map (·, false) ∧
        ∀ l ∈ new, l.depth = v.depth := by
  induction params generalizing i earlier v with
  | nil =>
    refine .allowed ⟨htop, ?_⟩ (.pure ⟨[], rfl, rfl, fun l hl => absurd hl List.not_mem_nil⟩)
    rw [List.append_nil]
    exact List.nodup_reverse.2 hearlier
  | cons param rest ih =>
    rw [declareParams]
    by_cases hparam : param ∈ earlier
    · rw [if_pos (List.contains_iff_mem.2 hparam)]
      exact .refused_bind
        (.repeated htop (List.nodup_reverse.2 hearlier) (List.mem_reverse.2 hparam))
    · rw [if_neg fun h => hparam (List.contains_iff_mem.1 h)]
      have hlocal : Checks v (updateBody fun f => f.declare param i false) []
          fun _ w => w = v.declare ⟨param, v.depth, i, false⟩ :=
        checks_updateBody fun b hb => hb ▸ rfl
      have hrest := ih (i + 1) (List.nodup_cons.2 ⟨hparam, hearlier⟩) (v.declare ⟨param, v.depth, i, false⟩)
      rw [List.reverse_cons, List.append_assoc] at hrest
      refine (neutral_pure ()).bind fun _ => hlocal.bind fun _ w hw => hw ▸ hrest.mono ?_
      rintro _ w ⟨new, rfl, hnew, hdepth⟩
      refine ⟨new ++ [⟨param, v.depth, i, false⟩], ?_, ?_, ?_⟩
      · simp [View.declare]
      · simp [hnew]
      · intro l hl
        rcases List.mem_append.1 hl with hl | hl
        · exact hdepth l hl
        · rw [List.mem_singleton.1 hl]

theorem checks_enterFunction (v : View) (name : String) (arity : Nat) :
    Checks v (enterFunction name arity) [] fun _ w => w = v.enter := by
  intro _ b hb
  refine ⟨fun x b' hok => ⟨fun _ hs => absurd hs List.not_mem_nil, ?_⟩, fun e he => (by cases he)⟩
  cases hok
  rw [← hb]
  rfl

theorem checks_leaveFunction (v : View) :
    Checks v leaveFunction [] fun _ w =>
      ∀ outer, v.outer = some outer → w = ⟨v.names, outer.1, outer.2, none⟩ := by
  intro _ b hb
  refine ⟨fun x b' hok => ⟨fun _ hs => absurd hs List.not_mem_nil, ?_⟩, fun e he => (by cases he)⟩
  cases hok
  rw [← hb]
  intro outer houter
  obtain ⟨f, hf, rfl⟩ := Option.map_eq_some_iff.1 houter
  simp [view, hf]

/-- A function is compiled among its own name and its parameters. -/
theorem checks_function {name : String} {params : List String} {body : Block} (p : Position)
    (hv : v.atTopLevel = true) (h : v.Shows (s.declare name false)) (htop : s.topLevel = true)
    (hbody : ∀ w t, w.Shows (s.inBody name params) →
      Checks w (compileBlock body t) (blockSites (s.inBody name params) body) fun _ w' => w' = w) :
    Checks v (compileFunction name params body)
      (⟨s, .func name params, p⟩ :: blockSites (s.inBody name params) body)
      fun _ w => w = v := by
  have houter : v.outer = none := by
    simp only [View.atTopLevel, Bool.and_eq_true, Option.isNone_iff_eq_none] at hv
    exact hv.1
  have hdeclare : s.declare name false = { s with staged := (name, false) :: s.staged } :=
    if_pos htop
  rw [hdeclare] at h
  have hcode : Checks v.enter (functionCode params body)
      ([⟨s, .func name params, p⟩] ++ blockSites (s.inBody name params) body)
      fun _ w => w.names = v.names ∧ w.outer = some (v.locals, v.depth) := by
    unfold functionCode startFunction
    simp only [bind_assoc]
    refine (checks_beginScope v.enter).bind fun _ w hw => ?_
    rw [hw]
    refine (checks_declareParams htop params 0 List.nodup_nil v.enter.deepen).bind ?_
    rintro _ w ⟨new, rfl, hnew, hdepth⟩
    refine neutral_takeReg.bind fun result => ?_
    have hbody := hbody { v.enter.deepen with locals := new ++ v.enter.deepen.locals } result
      ⟨(congrArg _ (List.append_nil new)).trans hnew, h.globals, h.primitives, rfl, rfl,
        by simpa [View.enter, View.deepen] using fun l hl => Nat.le_of_eq (hdepth l hl)⟩
    refine (hbody.after fun _ => neutral_emitABC _ _ _ _).mono ?_
    rintro _ w rfl
    exact ⟨rfl, rfl⟩
  have hleave : Checks v.enter (functionCode params body >>= fun _ => leaveFunction)
      (([⟨s, .func name params, p⟩] ++ blockSites (s.inBody name params) body) ++ [])
      fun _ w => w = v := by
    refine hcode.bind fun _ w hw => (checks_leaveFunction w).mono fun _ w' hw' => ?_
    rw [hw' _ hw.2, hw.1, ← houter]
  rw [List.append_nil] at hleave
  exact (checks_enterFunction v name params.length).bind fun _ w hw => hw ▸ hleave

/-! ## Trees -/

theorem checks_number (v : View) (s : Surroundings) (digits : String) (p : Position) (t : Nat) :
    Checks v (compileInto (.number digits p) t) [⟨s, .literal digits, p⟩] fun _ w => w = v := by
  simp only [compileInto]
  refine Checks.after (R := fun w => w = v) (fun hdigits => ?_) fun n => neutral_loadConstant _ _
  have hvalue := literalValue_digits (hdigits _ List.mem_cons_self digits rfl)
  by_cases hmax : Text.ofDigits digits.toList ≤ maxLiteral
  · have hpass : Checks v (pure (Text.ofDigits digits.toList : Int)) [⟨s, .literal digits, p⟩]
        fun _ w => w = v := .allowed hmax (.pure rfl)
    rw [hvalue, if_pos hmax]
    exact hpass hdigits
  · have hstop : Checks v (throw (.integerOutOfRange digits)) [⟨s, .literal digits, p⟩]
        fun (_ : Int) w => w = v := .refused (.tooLarge (Nat.lt_of_not_le hmax))
    rw [hvalue, if_neg hmax]
    exact hstop hdigits

/-- A conditional checks its test, its block and its alternative. -/
theorem checks_choice {test body otherwise : Nat → Building Unit} {ts bs os : List Site} (t : Nat)
    (ht : ∀ r, Checks v (test r) ts fun _ w => w = v)
    (hb : ∀ r, Checks v (body r) bs fun _ w => w = v)
    (ho : ∀ r, Checks v (otherwise r) os fun _ w => w = v) :
    Checks v
      (do
        let reg ← takeReg
        test reg
        let toElse ← jumpAhead .jumpIfFalse reg
        giveBackReg
        body t
        let toEnd ← jumpAhead .jump 0
        aimJump toElse
        otherwise t
        aimJump toEnd)
      (ts ++ (bs ++ os)) fun _ w => w = v :=
  neutral_takeReg.bind fun reg => (ht reg).before fun _ =>
    (neutral_jumpAhead _ _).bind fun toElse => neutral_giveBackReg.bind fun _ =>
      (hb t).before fun _ => (neutral_jumpAhead _ _).bind fun toEnd =>
        (neutral_aimJump toElse).bind fun _ => (ho t).after fun _ => neutral_aimJump toEnd

/-- A value that is computed into a register of its own, and what is done with it. -/
theorem checks_temporary {fill : Nat → Building Unit} {use : Nat → Building Unit}
    {sites : List Site} (hfill : ∀ r, Checks v (fill r) sites fun _ w => w = v)
    (huse : ∀ r, Neutral (use r)) :
    Checks v (do let reg ← takeReg; fill reg; use reg; giveBackReg) sites fun _ w => w = v :=
  neutral_takeReg.bind fun reg => (hfill reg).after fun _ => (huse reg).seq fun _ =>
    neutral_giveBackReg

/-- A return is refused outside of functions, before its value is looked at. -/
theorem checks_return {fill : Nat → Building Unit} {sites : List Site} (h : v.Shows s)
    (p : Position) (hfill : ∀ r, Checks v (fill r) sites fun _ w => w = v) :
    Checks v
      (do
        if (← get).waiting.isNone then throw (.returnOutsideFunction p)
        let reg ← takeReg
        fill reg
        emitABC .ret reg 0 0
        giveBackReg)
      (⟨s, .ret, p⟩ :: sites) fun _ w => w = v := by
  refine .get fun b hb => ?_
  have houter : b.waiting.isNone = !s.inFunction := by
    rw [← h.inFunction, ← hb]
    simp [view]
  rw [houter]
  cases hs : s.inFunction with
  | false =>
    rw [if_pos Bool.not_false]
    exact .refused_bind (.outside hs)
  | true =>
    rw [if_neg (by simp)]
    exact .allowed hs (checks_temporary hfill fun r => neutral_emitABC _ _ _ _)

/-- A loop checks its test and its body. -/
theorem checks_loop {test body : Nat → Building Unit} {ts bs : List Site}
    (ht : ∀ r, Checks v (test r) ts fun _ w => w = v)
    (hb : ∀ r, Checks v (body r) bs fun _ w => w = v) :
    Checks v
      (do
        let start ← here
        let reg ← takeReg
        test reg
        let toEnd ← jumpAhead .jumpIfFalse reg
        giveBackReg
        let scratch ← takeReg
        body scratch
        giveBackReg
        updateBody? fun f => f.jumpBack start
        aimJump toEnd)
      (ts ++ bs) fun _ w => w = v :=
  neutral_here.bind fun start => neutral_takeReg.bind fun reg => (ht reg).before fun _ =>
    (neutral_jumpAhead _ _).bind fun toEnd => neutral_giveBackReg.bind fun _ =>
      neutral_takeReg.bind fun scratch => (hb scratch).after fun _ =>
        neutral_giveBackReg.seq fun _ => (neutral_jumpBack start).seq fun _ => neutral_aimJump toEnd

/-- What a statement leaves when it defines no name. -/
theorem unmoved (h : v.Shows s) {w : View} (hw : w = v) : v.Follows w ∧ w.Shows s :=
  ⟨hw ▸ .refl v, hw ▸ h⟩

/-- A statement of a block checks its sites before the statements after it. -/
theorem checks_rest {stmt : Stmt} {rest : List Stmt} {t : Nat}
    (hlast : ∀ e, stmt = .expr e → rest ≠ [])
    (hstmt : Checks v (compileStmt stmt) (oneSites s stmt)
      fun _ w => v.Follows w ∧ w.Shows (s.after stmt))
    (hrest : ∀ w, w.Shows (s.after stmt) →
      Checks w (compileTail rest t) (stmtSites (s.after stmt) rest) fun _ w' => w.Follows w') :
    Checks v (compileTail (stmt :: rest) t) (stmtSites s (stmt :: rest))
      fun _ w => v.Follows w := by
  rw [compileTail_cons hlast, stmtSites]
  exact hstmt.bind fun _ w hw => (hrest w hw.2).mono fun _ w' hw' => hw.1.trans hw'

/-- A binding checks its value, and then defines its name. -/
theorem checks_bind {mutable : Bool} {name : String} {value : Expr} {p : Position}
    {sites : List Site} (h : v.Shows s)
    (hvalue : ∀ r, Checks v (compileInto value r) sites fun _ w => w = v) :
    Checks v (compileStmt (.bind mutable name value p)) sites
      fun _ w => v.Follows w ∧ w.Shows (s.declare name mutable) := by
  simp only [compileStmt]
  refine neutral_takeReg.bind fun reg => ?_
  have hboth := (hvalue reg).before fun _ => checks_bindName h name mutable reg
  rwa [List.append_nil] at hboth

/-- An assignment checks its target, and then its value. -/
theorem checks_assign {ident : String} {p q : Position} {value : Expr} {sites : List Site}
    (h : v.Shows s) (hvalue : ∀ r, Checks v (compileInto value r) sites fun _ w => w = v) :
    Checks v (compileStmt (.assign (.name ident q) value p))
      (⟨s, .assign (some ident), p⟩ :: sites) fun _ w => w = v := by
  simp only [compileStmt]
  refine (checks_destination h ident p).before fun dest => ?_
  cases dest with
  | register r => exact checks_temporary hvalue fun reg => neutral_emitABC _ _ _ _
  | slot n => exact checks_temporary hvalue fun reg => neutral_emitABx _ _ _

/-- A declaration of a function is refused below the top level, before anything in it is looked
at. -/
theorem checks_func {name : String} {params : List String} {body : Block} {p : Position}
    (h : v.Shows s)
    (hbody : ∀ w t, w.Shows (s.inBody name params) →
      Checks w (compileBlock body t) (blockSites (s.inBody name params) body) fun _ w' => w' = w) :
    Checks v (compileStmt (.func name params body p))
      (⟨s, .func name params, p⟩ :: blockSites (s.inBody name params) body)
      fun _ w => v.Follows w ∧ w.Shows (s.declare name false) := by
  rw [compileStmt_func]
  refine .get fun b hb => ?_
  rw [atTopLevel_of_view hb]
  cases hlevel : v.atTopLevel with
  | false =>
    rw [if_pos Bool.not_false]
    exact .refused_bind (.nested (h.topLevel.symm.trans hlevel))
  | true =>
    rw [if_neg (by simp)]
    split_ifs
    · exact .limited_bind (show IsLimit .tooManyArguments from trivial)
    have htop : (v.define name false).atTopLevel = true := hlevel
    have hdefined := h.define hlevel name false
    have hfunction := checks_function p htop hdefined (h.topLevel.symm.trans hlevel) hbody
    refine (checks_newSlot v name false).bind fun slot w hw => hw ▸ ?_
    refine (hfunction.after fun index => neutral_storeFunction slot index).mono fun _ w hw => ?_
    exact ⟨hw ▸ follows_define hlevel name false, hw ▸ hdefined⟩

mutual

theorem checks_expr : (e : Expr) → (v : View) → (s : Surroundings) → (t : Nat) → v.Shows s →
    Checks v (compileInto e t) (exprSites s e) fun _ w => w = v
  | .number digits p, v, s, t, _ => checks_number v s digits p t
  | .text raw p, v, s, t, _ => by
    simp only [compileInto, exprSites]
    exact (neutral_stringIndex _).bind fun _ => neutral_loadConstant _ _ v
  | .bool true p, v, s, t, _ => by
    simp only [compileInto, exprSites]
    exact neutral_emitABx _ _ _ v
  | .bool false p, v, s, t, _ => by
    simp only [compileInto, exprSites]
    exact neutral_emitABx _ _ _ v
  | .nil p, v, s, t, _ => by
    simp only [compileInto, exprSites]
    exact neutral_emitABx _ _ _ v
  | .name ident p, v, s, t, h => by
    simp only [compileInto, exprSites]
    exact checks_loadName h ident p t
  | .binary op lhs rhs _, v, s, t, h => by
    have hl := checks_expr lhs v s t h
    have hr := fun t => checks_expr rhs v s t h
    simp only [compileInto, exprSites]
    refine hl.before fun _ => ?_
    cases operatorCode? op with
    | some code => exact checks_temporary hr fun r => neutral_emitABC _ _ _ _
    | none => exact (neutral_jumpAhead _ _).bind fun skip => (hr t).after fun _ => neutral_aimJump skip
  | .unary op operand _, v, s, t, h => by
    simp only [compileInto, exprSites]
    exact (checks_expr operand v s t h).after fun _ => neutral_emitABC _ _ _ _
  | .call callee args _, v, s, t, h => by
    have hcallee := fun t => checks_expr callee v s t h
    have hargs := checks_args args v s h
    simp only [compileInto, exprSites]
    split_ifs
    · exact Checks.limited_bind (show IsLimit .tooManyArguments from trivial)
    · refine neutral_takeReg.bind fun func => ?_
      refine (hcallee func).before fun _ => hargs.after fun _ => ?_
      exact (neutral_emitABC _ _ _ _).seq fun _ => (neutral_giveBackRegs _).seq fun _ =>
        neutral_giveBackReg
  | .cond test body otherwise _, v, s, t, h => by
    simp only [compileInto, exprSites]
    exact checks_choice t (fun r => checks_expr test v s r h) (fun r => checks_body body v s r h)
      fun r => checks_else otherwise v s r h
  | .block body, v, s, t, h => by
    simp only [compileInto, exprSites]
    exact checks_body body v s t h

theorem checks_args : (args : List Expr) → (v : View) → (s : Surroundings) → v.Shows s →
    Checks v (compileArgs args) (argSites s args) fun _ w => w = v
  | [], v, s, _ => by
    simp only [compileArgs, argSites]
    exact .pure rfl
  | arg :: rest, v, s, h => by
    simp only [compileArgs, argSites]
    exact neutral_takeReg.bind fun reg => (checks_expr arg v s reg h).before fun _ =>
      checks_args rest v s h

theorem checks_else : (o : Else) → (v : View) → (s : Surroundings) → (t : Nat) → v.Shows s →
    Checks v (compileElse o t) (elseSites s o) fun _ w => w = v
  | .absent, v, s, t, _ => by
    simp only [compileElse, elseSites]
    exact neutral_emitABx _ _ _ v
  | .block body, v, s, t, h => by
    simp only [compileElse, elseSites]
    exact checks_body body v s t h
  | .elseIf test body otherwise _, v, s, t, h => by
    simp only [compileElse, elseSites]
    exact checks_choice t (fun r => checks_expr test v s r h) (fun r => checks_body body v s r h)
      fun r => checks_else otherwise v s r h

theorem checks_body : (body : Block) → (v : View) → (s : Surroundings) → (t : Nat) → v.Shows s →
    Checks v (compileBlock body t) (blockSites s body) fun _ w => w = v
  | .mk stmts _, v, s, t, h => by
    simp only [compileBlock, blockSites]
    exact checks_block h fun h' => checks_tail stmts v.deepen s.inBlock t h'

theorem checks_tail : (stmts : List Stmt) → (v : View) → (s : Surroundings) → (t : Nat) →
    v.Shows s → Checks v (compileTail stmts t) (stmtSites s stmts) fun _ w => v.Follows w
  | [], v, s, t, h => by
    simp only [compileTail, stmtSites]
    exact (neutral_emitABx _ _ _ v).mono fun _ w hw => (unmoved h hw).1
  | [.expr e], v, s, t, h => by
    simp only [compileTail, stmtSites, oneSites, List.append_nil]
    exact (checks_expr e v s t h).mono fun _ w hw => (unmoved h hw).1
  | [.bind mutable name value p], v, s, t, h =>
    checks_rest (by simp) (checks_stmt (.bind mutable name value p) v s h)
      fun w hw => checks_tail [] w _ t hw
  | [.assign target value p], v, s, t, h =>
    checks_rest (by simp) (checks_stmt (.assign target value p) v s h)
      fun w hw => checks_tail [] w _ t hw
  | [.func name params body p], v, s, t, h =>
    checks_rest (by simp) (checks_stmt (.func name params body p) v s h)
      fun w hw => checks_tail [] w _ t hw
  | [.retNil p], v, s, t, h =>
    checks_rest (by simp) (checks_stmt (.retNil p) v s h) fun w hw => checks_tail [] w _ t hw
  | [.ret value p], v, s, t, h =>
    checks_rest (by simp) (checks_stmt (.ret value p) v s h) fun w hw => checks_tail [] w _ t hw
  | [.loop test body p], v, s, t, h =>
    checks_rest (by simp) (checks_stmt (.loop test body p) v s h)
      fun w hw => checks_tail [] w _ t hw
  | stmt :: next :: rest, v, s, t, h =>
    checks_rest (by simp) (checks_stmt stmt v s h)
      fun w hw => checks_tail (next :: rest) w _ t hw

theorem checks_stmt : (stmt : Stmt) → (v : View) → (s : Surroundings) → v.Shows s →
    Checks v (compileStmt stmt) (oneSites s stmt) fun _ w => v.Follows w ∧ w.Shows (s.after stmt)
  | .bind mutable name value _, v, s, h => checks_bind h fun r => checks_expr value v s r h
  | .assign target value p, v, s, h => by
    have hvalue := fun r => checks_expr value v s r h
    cases target with
    | name ident q => exact (checks_assign h hvalue).mono fun _ w => unmoved h
    | _ =>
      simp only [compileStmt, oneSites, targetName?]
      exact .refused .noTarget
  | .func name params body p, v, s, h => checks_func h fun w t => checks_body body w _ t
  | .retNil p, v, s, h => by
    simp only [compileStmt, oneSites]
    exact (checks_return h p fun r => neutral_emitABx _ _ _ v).mono fun _ w => unmoved h
  | .ret value p, v, s, h => by
    simp only [compileStmt, oneSites]
    exact (checks_return h p fun r => checks_expr value v s r h).mono fun _ w => unmoved h
  | .loop test body _, v, s, h => by
    have htest := fun r => checks_expr test v s r h
    have hbody := fun r => checks_body body v s r h
    simp only [compileStmt, oneSites]
    exact (checks_loop htest hbody).mono fun _ w => unmoved h
  | .expr e, v, s, h => by
    have he := fun r => checks_expr e v s r h
    simp only [compileStmt, oneSites]
    refine .get fun b _ => ?_
    split_ifs
    · exact (he resultReg).mono fun _ w => unmoved h
    · refine Checks.mono ?_ fun _ w => unmoved h
      exact neutral_takeReg.bind fun reg => (he reg).after fun _ => neutral_giveBackReg

end

/-! ## Fragments -/

theorem checks_stmts (stmts : List Stmt) (h : v.Shows s) :
    Checks v (compileStmts stmts) (stmtSites s stmts) fun _ w => v.Follows w := by
  induction stmts generalizing v s with
  | nil =>
    simp only [compileStmts, stmtSites]
    exact .pure (.refl v)
  | cons stmt rest ih =>
    simp only [compileStmts, stmtSites]
    exact (checks_stmt stmt v s h).bind fun _ w hw =>
      (ih hw.2).mono fun _ w' hw' => hw.1.trans hw'

/-- The start of a compilation shows the start of the fragment. -/
theorem shows_start (names : Names) : (view (.new names)).Shows (.start names) where
  locals := rfl
  globals _ := rfl
  primitives := rfl
  inFunction := rfl
  topLevel := rfl
  nested _ hl := absurd hl List.not_mem_nil

/-- The compiler accepts a fragment whose sites are all allowed, and refuses any other with the
error of the first one that is not, unless it comes upon a limit of the instruction format. -/
theorem compileFragment_checks (names : Names) {f : Fragment}
    (hdigits : Numeral (stmtSites (.start names) f)) :
    (∀ c, compileFragment names f = .ok c → ∀ s ∈ stmtSites (.start names) f, s.Allowed) ∧
      ∀ e, compileFragment names f = .error e →
        IsLimit e ∨ FirstOffence (stmtSites (.start names) f) e := by
  have hmain : Checks (view (.new names)) (compileMain f) (stmtSites (.start names) f)
      fun _ w => (view (.new names)).Follows w := by
    refine neutral_takeReg.bind fun result => (neutral_emitABx _ _ _).bind fun _ => ?_
    exact (checks_stmts f (shows_start names)).after fun _ => neutral_emitABC _ _ _ _
  obtain ⟨hok, herror⟩ := hmain hdigits (.new names) rfl
  unfold compileFragment
  cases h : compileMain f (.new names) with
  | error e =>
    refine ⟨fun c hc => (by cases hc), fun e' he => ?_⟩
    cases he
    exact herror e h
  | ok r =>
    obtain ⟨u, b⟩ := r
    exact ⟨fun c _ => (hok u b h).1, fun e' he => (by cases he)⟩

/-- The sites of a fragment. -/
def fragmentSites (names : Names) (f : Fragment) : List Site :=
  stmtSites (.start names) f

/-- Of the sites of a text, the one with the first place is the first one. -/
theorem firstOffence_iff {sites : List Site} {e : CompileError}
    (h : InOrder (sites.map Site.lexeme)) : FirstOffence sites e ↔
      ∃ s ∈ sites, s.Offends e ∧ ∀ t ∈ sites, ¬ t.Allowed → t = s ∨ Before s.pos t.pos := by
  have horder := List.pairwise_map.1 h.order
  constructor
  · rintro ⟨before, s, after, rfl, hbefore, hs⟩
    refine ⟨s, by simp, hs, fun t ht hrefused => ?_⟩
    rcases List.mem_append.1 ht with ht | ht
    · exact absurd (hbefore t ht) hrefused
    · rcases List.mem_cons.1 ht with rfl | ht
      · exact .inl rfl
      · exact .inr ((List.pairwise_cons.1 (List.pairwise_append.1 horder).2.1).1 t ht)
  · rintro ⟨s, hs, he, hfirst⟩
    obtain ⟨before, after, rfl⟩ := List.append_of_mem hs
    refine ⟨before, s, after, rfl, fun t ht => ?_, he⟩
    have hts : Before t.pos s.pos :=
      (List.pairwise_append.1 horder).2.2 t ht s List.mem_cons_self
    by_contra hrefused
    rcases hfirst t (List.mem_append_left _ ht) hrefused with rfl | hst
    · exact hts.asymm hts
    · exact hts.asymm hst

/-- Unless it comes upon a limit of the instruction format, the compiler accepts a fragment just if
all its sites are allowed, and refuses it with an error just if that is the error of the site which
stands first in the text among those that are not. -/
theorem accepts_wellScoped {source : String} {f : Fragment} (hf : Fragment.parse source = .ok f)
    (names : Names) (hlimit : ∀ e, IsLimit e → compileFragment names f ≠ .error e) :
    ((∃ c, compileFragment names f = .ok c) ↔ ∀ s ∈ fragmentSites names f, s.Allowed) ∧
      ∀ e, compileFragment names f = .error e ↔
        ∃ s ∈ fragmentSites names f, s.Offends e ∧
          ∀ t ∈ fragmentSites names f, ¬ t.Allowed → t = s ∨ Before s.pos t.pos := by
  have horder : InOrder ((fragmentSites names f).map Site.lexeme) := sites_of_parse hf _
  have hdigits : Numeral (fragmentSites names f) := fun s hs digits huse =>
    horder.sound _ (List.mem_map_of_mem hs) digits (by rw [Site.lexeme, huse]; rfl)
  obtain ⟨hok, herror⟩ := compileFragment_checks names hdigits
  have hfirst : ∀ e, compileFragment names f = .error e → FirstOffence (fragmentSites names f) e :=
    fun e he => (herror e he).resolve_left fun h => hlimit e h he
  refine ⟨⟨fun ⟨c, hc⟩ => hok c hc, fun hall => ?_⟩, fun e => ?_⟩
  · cases h : compileFragment names f with
    | ok c => exact ⟨c, rfl⟩
    | error e => exact absurd hall (hfirst e h).not_allowed
  · rw [← firstOffence_iff horder]
    refine ⟨hfirst e, fun he => ?_⟩
    cases h : compileFragment names f with
    | ok c => exact absurd (hok c h) he.not_allowed
    | error e' => rw [he.unique (hfirst e' h)]

/-- A function that assigns to its parameter, after a block that may return and before a name that
nothing defines. -/
def parameterText : String :=
  "fn f(n) { if n { let m = n; return f(m) } n = 1; g }"

theorem parameterText_refused : ∃ f, Fragment.parse parameterText = .ok f ∧
    (∀ e, IsLimit e → compileFragment .empty f ≠ .error e) ∧
    compileFragment .empty f = .error (.immutable "n" ⟨1, 43⟩) ∧
    ∃ s ∈ fragmentSites .empty f, s.Offends (.immutable "n" ⟨1, 43⟩) ∧
      ∀ t ∈ fragmentSites .empty f, ¬ t.Allowed → t = s ∨ Before s.pos t.pos := by
  have hrefused : (Fragment.parse parameterText).toOption.map (compileFragment .empty) =
      some (.error (.immutable "n" ⟨1, 43⟩)) := by
    decide +kernel
  cases hf : Fragment.parse parameterText with
  | error => rw [hf] at hrefused; cases hrefused
  | ok f =>
    rw [hf] at hrefused
    have hcompiled := Option.some.inj hrefused
    have hlimit : ∀ e, IsLimit e → compileFragment .empty f ≠ .error e := by
      intro e he h
      rw [hcompiled] at h
      cases h
      exact he
    exact ⟨f, rfl, hlimit, hcompiled,
      ((accepts_wellScoped hf .empty hlimit).2 _).1 hcompiled⟩

end ScriptMachine.Scoping
