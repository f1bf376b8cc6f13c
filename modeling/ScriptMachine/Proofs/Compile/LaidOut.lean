import ScriptMachine.Proofs.Compile.Combination

/-!
# Compilation lays out code

Whatever the compiler accepts, it lays out: the code that it has appended for a tree is the code of
that tree.
-/

namespace ScriptMachine.Compile

open Source Bytecode Evaluation

/-! ## Leaves -/

theorem compiles_number (digits : String) (pos : Position) (t : Nat) :
    Compiles (compileInto (.number digits pos) t) fun C names sc i j =>
      ExprAt C names (.number digits pos) sc t i j := by
  intro b b' u h hb _
  simp only [compileInto] at h
  cases hn : literalValue digits with
  | error e =>
    rw [hn] at h
    cases h
  | ok n =>
    rw [hn] at h
    have hfits := fits_of_literalValue hn
    have hvalue : (Int64.ofInt n).toInt = n := toInt_ofInt hfits
    have hload : loadConstant (.int (Int64.ofInt n)) t b = .ok (u, b') := h
    have l := lays_constant (d := .int n) hload hb
      (by show Value.fits (Int64.ofInt n).toInt = true; rw [hvalue]; exact hfits)
      (fun C i _ hC hi => by rw [← hvalue]; exact hC.int i _ hi)
    refine ⟨l.grows, l.context, fun C hC => ?_⟩
    obtain ⟨i, hi, hw, hnext⟩ := l.laid C hC
    rw [hnext]
    exact .number hn hi hw

theorem compiles_text (raw : String) (pos : Position) (t : Nat) :
    Compiles (compileInto (.text raw pos) t) fun C names sc i j =>
      ExprAt C names (.text raw pos) sc t i j := by
  intro b b' u h hb _
  simp only [compileInto] at h
  obtain ⟨index, b₁, hindex, h⟩ := bind_eq_ok.1 h
  obtain ⟨hg₁, hc₁, hn₁, hs⟩ := stringIndex_ok (n := b.next) hindex
  have hlt : index < b₁.strings.size := (Array.getElem?_eq_some_iff.1 hs).1
  have hok : Link.constantOk b₁.strings.size b₁.prototypes.size (.str (UInt32.ofNat index)) := by
    show decide ((UInt32.ofNat index).toNat < b₁.strings.size) = true
    rw [decide_eq_true_iff, UInt32.toNat_ofNat']
    exact Nat.lt_of_le_of_lt (Nat.mod_le _ _) hlt
  have l := lays_constant (d := .text (unescape raw)) h (hg₁.sound hb) hok fun C i hg hC hi => by
    refine hC.text i _ _ hi ?_
    have hsize := Nat.lt_of_lt_of_le hlt (Nat.le_trans hg.strings_size hC.strings)
    rw [UInt32.toNat_ofNat', Nat.mod_eq_of_lt hsize]
    exact hg.strings _ _ hs
  refine ⟨?_, l.context.trans hc₁, fun C hC => ?_⟩
  · exact hg₁.trans (hn₁ ▸ l.grows)
  · obtain ⟨i, hi, hw, hnext⟩ := l.laid C (hn₁ ▸ hC)
    rw [hnext, hn₁]
    exact .text hi (hn₁ ▸ hw)

/-- What an assignment writes to. -/
theorem destination_ok {ident : String} {pos : Position} {d : Destination} {b b' : Builder}
    (h : destination ident pos b = .ok (d, b')) :
    b = b' ∧
      match d with
      | .register r => b.scope.reg? ident = some r
      | .slot slot => b.scope.reg? ident = none ∧ slot ≤ maxWide ∧
          ∃ g, b.names.global? ident = some g ∧ g.mutable = true ∧ g.slot = slot := by
  unfold destination at h
  rw [get_bind_eq_ok] at h
  rw [reg?_scope]
  cases hlocal : b.body.local? ident with
  | some l =>
    simp only [hlocal] at h
    split_ifs at h with hmut
    · obtain ⟨rfl, rfl⟩ := pure_eq_ok.1 h
      exact ⟨rfl, rfl⟩
    · exact (throw_eq_ok.1 h).elim
  | none =>
    simp only [hlocal] at h
    cases hglobal : b.names.global? ident with
    | some g =>
      simp only [hglobal] at h
      split_ifs at h with hmut
      · obtain ⟨slot, b₁, hwide, h⟩ := bind_eq_ok.1 h
        obtain ⟨rfl, rfl, hslot⟩ := wideOperand_ok hwide
        obtain ⟨rfl, rfl⟩ := pure_eq_ok.1 h
        exact ⟨rfl, rfl, hslot, g, rfl, hmut, rfl⟩
      · exact (throw_eq_ok.1 h).elim
    | none =>
      simp only [hglobal] at h
      split_ifs at h
      · exact (throw_eq_ok.1 h).elim
      · exact (throw_eq_ok.1 h).elim

/-- An assignment: its target is looked up before its value is compiled. -/
theorem compiles_assign {ident : String} {p pos : Position} {value : Expr}
    (hvalue : ∀ r, Compiles (compileInto value r) fun C names sc i j =>
      ExprAt C names value sc r i j) :
    CompilesStmt (compileStmt (.assign (.name ident p) value pos)) True
      fun C names sc sc' i j => StmtAt C names (.assign (.name ident p) value pos) sc sc' i j := by
  intro b b' u h hb hc _
  simp only [compileStmt] at h
  obtain ⟨d, b₁, hdest, h⟩ := bind_eq_ok.1 h
  obtain ⟨rfl, hd⟩ := destination_ok hdest
  refine ⟨[], by simp, fun _ => rfl, ?_⟩
  cases d with
  | register r =>
    have l := compiles_temporary hvalue (fun reg => .abc .move r reg 0) b b' u h hb hc
    refine ⟨l.grows, l.context, fun C hC => ?_⟩
    obtain ⟨k, hroom, he, hw, hnext⟩ := l.laid C hC
    rw [l.scope, hnext]
    exact .move hd hroom he hw
  | slot slot =>
    obtain ⟨hreg, hslot, g, hg, hmutable, rfl⟩ := hd
    have l := compiles_temporary hvalue (fun reg => .abx .setGlobal reg g.slot) b b' u h hb hc
    refine ⟨l.grows, l.context, fun C hC => ?_⟩
    obtain ⟨k, hroom, he, hw, hnext⟩ := l.laid C hC
    rw [l.scope, hnext]
    exact .setGlobal hreg hg hmutable hslot hroom he hw

/-- A return, which only a function may contain. -/
theorem compiles_ret {fill : Nat → Building Unit} {P : Nat → Layout}
    (hfill : ∀ r, Compiles (fill r) (P r)) {e : CompileError} :
    CompilesStmt
      (do
        if (← get).waiting.isNone then throw e
        let reg ← takeReg
        fill reg
        emitABC .ret reg 0 0
        giveBackReg) True
      fun C names sc sc' i j => sc' = sc ∧ ∃ k, C.returns = true ∧ C.Room sc.top ∧
        P sc.top C names sc.take i k ∧ C.At k (.abc .ret sc.top 0 0) ∧ j = k + 1 := by
  intro b b' u h hb hc _
  rw [get_bind_eq_ok] at h
  split_ifs at h with hwaiting
  · obtain ⟨_, _, hthrow, -⟩ := bind_eq_ok.1 h
    exact (throw_eq_ok.1 hthrow).elim
  · have l := compiles_temporary hfill (fun reg => .abc .ret reg 0 0) b b' u h hb hc
    refine ⟨[], by simp, fun _ => rfl, l.grows, l.context, fun C hC => ⟨l.scope, ?_⟩⟩
    obtain ⟨k, hroom, he, hw, hnext⟩ := l.laid C hC
    refine ⟨k, ?_, hroom, he, hw, hnext⟩
    rw [hC.returns, l.grows.waiting]
    cases hb : b.waiting with
    | none => simp [hb] at hwaiting
    | some f => rfl

/-- A binding in a block: the value stays in its register, which the local gets. -/
theorem compiles_bind {mutable : Bool} {name : String} {value : Expr} {pos : Position}
    (hvalue : ∀ r, Compiles (compileInto value r) fun C names sc i j =>
      ExprAt C names value sc r i j) :
    CompilesStmt (compileStmt (.bind mutable name value pos)) False
      fun C names sc sc' i j => StmtAt C names (.bind mutable name value pos) sc sc' i j := by
  intro b b' u h hb hc hlevel
  simp only [compileStmt] at h
  obtain ⟨r, b₁, h₁, h⟩ := bind_eq_ok.1 h
  obtain ⟨u₂, b₂, h₂, h₃⟩ := bind_eq_ok.1 h
  obtain ⟨hr, l⟩ := lays_above hvalue h₁ h₂ hb hc
  unfold bindName at h₃
  rw [get_bind_eq_ok] at h₃
  have hdepth : b₂.context.depth = b.context.depth := by
    rw [l.context]
    rfl
  have hinner : b₂.atTopLevel = false := by
    rw [l.grows.atTopLevel hdepth]
    cases h : b.atTopLevel with
    | false => rfl
    | true => exact (hlevel h).elim
  rw [hinner] at h₃
  obtain ⟨hg₃, hn₃, hc₃⟩ := declare_ok (n := b₂.next) h₃ (l.grows.sound hb).top_le
  have hcontext : b'.context = b.context.extend [⟨name, b.context.depth, b.scope.top, mutable⟩] := by
    rw [hc₃, l.context, hr]
    rfl
  refine ⟨[⟨name, b.context.depth, b.scope.top, mutable⟩], by simp, False.elim,
    l.grows.trans (hg₃.weaken l.grows.next), hcontext, fun C hC => ?_⟩
  obtain ⟨hroom, he⟩ := l.laid C (hC.before hg₃)
  have hscope : b'.scope = b.scope.declare name := by
    show b'.context.scope = _
    rw [hcontext]
    rfl
  rw [hscope, hn₃]
  exact .bind hroom he

/-! ## Trees -/

theorem compileTail_cons {stmt : Stmt} {rest : List Stmt} {t : Nat}
    (hlast : ∀ e, stmt = .expr e → rest ≠ []) :
    compileTail (stmt :: rest) t = compileStmt stmt >>= fun _ => compileTail rest t := by
  cases rest with
  | nil =>
    cases stmt with
    | expr e => exact (hlast e rfl rfl).elim
    | _ => simp only [compileTail]
  | cons next rest => simp only [compileTail]

theorem compilesTail_of_last {stmt : Stmt} {rest : List Stmt} {t : Nat} {p : Prop}
    (hlast : ∀ e, stmt = .expr e → rest ≠ [])
    (hstmt : CompilesStmt (compileStmt stmt) p fun C names sc sc' i j =>
      StmtAt C names stmt sc sc' i j)
    (hrest : CompilesTail (compileTail rest t) fun C names sc i j => TailAt C names rest sc t i j) :
    CompilesTail (compileTail (stmt :: rest) t) fun C names sc i j =>
      TailAt C names (stmt :: rest) sc t i j := by
  rw [compileTail_cons hlast]
  intro b b' u h hb hc hlevel
  obtain ⟨new, hnew, l⟩ := compilesTail_cons hstmt hrest b b' u h hb hc hlevel
  refine ⟨new, hnew, l.grows, l.context, fun C hC => ?_⟩
  obtain ⟨sc', k, hfirst, htail⟩ := l.laid C hC
  exact .cons hlast hfirst htail

mutual

/-- An expression is laid out with its target. -/
theorem compiles_expr : (e : Expr) → (t : Nat) →
    Compiles (compileInto e t) fun C names sc i j => ExprAt C names e sc t i j
  | .number digits pos, t => compiles_number digits pos t
  | .text raw pos, t => compiles_text raw pos t
  | .bool true _, t => by
    simp only [compileInto]
    exact compiles_emit fun C names sc i hw => .bool hw
  | .bool false _, t => by
    simp only [compileInto]
    exact compiles_emit fun C names sc i hw => .bool hw
  | .nil _, t => by
    simp only [compileInto]
    exact compiles_emit fun C names sc i hw => .nil hw
  | .name ident pos, t => by
    simp only [compileInto]
    exact compiles_name ident pos t
  | .binary op lhs rhs _, t => by
    have hl := compiles_expr lhs t
    have hr := compiles_expr rhs
    simp only [compileInto]
    cases hcode : operatorCode? op with
    | some code =>
      refine (compiles_seq hl (compiles_temporary hr fun r => .abc code t t r)).imp ?_
      rintro C names sc i j ⟨k, hlhs, m, hroom, hrhs, hw, rfl⟩
      exact .binary hcode hlhs hroom hrhs hw
    | none =>
      refine (compiles_seq hl (compiles_skipped (hr t) (skipCode op) t)).imp ?_
      rintro C names sc i j ⟨k, hlhs, hw, hrhs, hj⟩
      exact .logical hcode hlhs hw hrhs hj
  | .unary op operand _, t => by
    have he := compiles_expr operand t
    simp only [compileInto]
    refine (compiles_seq he (compiles_emit fun C names sc i hw => ⟨hw, rfl⟩)).imp
      (P := fun C names sc i j => ∃ k, ExprAt C names operand sc t i k ∧
        C.At k (.abc (unaryCode op) t t 0) ∧ j = k + 1) ?_
    rintro C names sc i j ⟨k, hoperand, hw, rfl⟩
    exact .unary hoperand hw
  | .call callee args _, t => by
    have hf := compiles_expr callee
    have hargs := compiles_args args
    simp only [compileInto]
    split_ifs with hcount
    · intro b b' u h _ _
      obtain ⟨_, _, hthrow, -⟩ := bind_eq_ok.1 h
      exact (throw_eq_ok.1 hthrow).elim
    · refine (compiles_call hf hargs).imp ?_
      rintro C names sc i j ⟨k, m, hroom, hcallee, hlaid, hw, rfl⟩
      exact .call (Nat.le_of_not_lt hcount) hroom hcallee hlaid hw
  | .cond test body otherwise _, t => by
    have htest := compiles_expr test
    have hbody := compiles_body body t
    have helse := compiles_else otherwise t
    simp only [compileInto]
    refine (compiles_choice htest hbody helse).imp ?_
    rintro C names sc i j ⟨k, m, hroom, htest, hskip, hm, hbody, hend, hj, helse⟩
    exact .cond hroom htest hskip hm hbody hend hj helse
  | .block body, t => by
    have hbody := compiles_body body t
    simp only [compileInto]
    exact hbody.imp fun C names sc i j h => .block h

/-- Arguments are laid out one above the other. -/
theorem compiles_args : (args : List Expr) →
    CompilesArgs (compileArgs args) args.length fun C names sc i j => ArgsAt C names args sc i j
  | [] => by
    intro b b' u h _ _
    simp only [compileArgs] at h
    obtain ⟨-, rfl⟩ := pure_eq_ok.1 h
    exact ⟨.refl _ _, rfl, fun C _ => .nil⟩
  | arg :: rest => by
    have harg := compiles_expr arg
    have hrest := compiles_args rest
    intro b b' u h hb hc
    simp only [compileArgs] at h
    obtain ⟨r, b₁, h₁, h⟩ := bind_eq_ok.1 h
    obtain ⟨u₂, b₂, h₂, h₃⟩ := bind_eq_ok.1 h
    obtain ⟨-, l₂⟩ := lays_above harg h₁ h₂ hb hc
    have l₃ := hrest b₂ b' u h₃ (l₂.grows.sound hb) (l₂.nested hc.take)
    refine ⟨l₂.grows.trans (l₃.grows.weaken l₂.grows.next), ?_, fun C hC => ?_⟩
    · rw [l₃.context, l₂.context, List.length_cons]
      show (⟨_, _, b.context.top + 1 + rest.length⟩ : Context) = ⟨_, _, _ + (rest.length + 1)⟩
      rw [Nat.add_right_comm, Nat.add_assoc]
      rfl
    · obtain ⟨hroom, hlaid⟩ := l₂.laid C (hC.before l₃.grows)
      have htail := l₃.laid C (hC.later l₂.grows.next)
      have hscope : b₂.scope = b.scope.take := l₂.scope
      rw [l₂.grows.names, hscope] at htail
      exact .cons hroom hlaid htail

/-- An alternative is laid out with its target. -/
theorem compiles_else : (e : Else) → (t : Nat) →
    Compiles (compileElse e t) fun C names sc i j => ElseAt C names e sc t i j
  | .absent, t => by
    simp only [compileElse]
    exact compiles_emit fun C names sc i hw => .absent hw
  | .block body, t => by
    have hbody := compiles_body body t
    simp only [compileElse]
    exact hbody.imp fun C names sc i j h => .block h
  | .elseIf test body otherwise _, t => by
    have htest := compiles_expr test
    have hbody := compiles_body body t
    have helse := compiles_else otherwise t
    simp only [compileElse]
    refine (compiles_choice htest hbody helse).imp ?_
    rintro C names sc i j ⟨k, m, hroom, htest, hskip, hm, hbody, hend, hj, helse⟩
    exact .elseIf hroom htest hskip hm hbody hend hj helse

/-- A block is laid out with its target. -/
theorem compiles_body : (body : Block) → (t : Nat) →
    Compiles (compileBlock body t) fun C names sc i j => BlockAt C names body sc t i j
  | .mk stmts _, t => by
    have hstmts := compiles_tail stmts t
    simp only [compileBlock]
    exact (compiles_block hstmts).imp fun C names sc i j h => .mk h

/-- The statements of a block are laid out in order. -/
theorem compiles_tail : (stmts : List Stmt) → (t : Nat) →
    CompilesTail (compileTail stmts t) fun C names sc i j => TailAt C names stmts sc t i j
  | [], t => by
    simp only [compileTail]
    exact (compiles_emit fun C names sc i hw => .nil hw).tail
  | [.expr e], t => by
    have he := compiles_expr e t
    simp only [compileTail]
    exact (he.imp fun C names sc i j h => .value h).tail
  | [.bind mutable name value pos], t =>
    compilesTail_of_last (by simp) (compiles_stmt (.bind mutable name value pos))
      (compiles_tail [] t)
  | [.assign target value pos], t =>
    compilesTail_of_last (by simp) (compiles_stmt (.assign target value pos)) (compiles_tail [] t)
  | [.func name params body pos], t =>
    compilesTail_of_last (by simp) (compiles_stmt (.func name params body pos))
      (compiles_tail [] t)
  | [.retNil pos], t =>
    compilesTail_of_last (by simp) (compiles_stmt (.retNil pos)) (compiles_tail [] t)
  | [.ret value pos], t =>
    compilesTail_of_last (by simp) (compiles_stmt (.ret value pos)) (compiles_tail [] t)
  | [.loop test body pos], t =>
    compilesTail_of_last (by simp) (compiles_stmt (.loop test body pos)) (compiles_tail [] t)
  | stmt :: next :: rest, t =>
    compilesTail_of_last (by simp) (compiles_stmt stmt) (compiles_tail (next :: rest) t)

/-- A statement that is not at the top level, or means the same there, is laid out. -/
theorem compiles_stmt : (stmt : Stmt) →
    CompilesStmt (compileStmt stmt) (Plain stmt) fun C names sc sc' i j =>
      StmtAt C names stmt sc sc' i j
  | .bind mutable name value pos => compiles_bind (compiles_expr value)
  | .assign target value pos => by
    have hvalue := compiles_expr value
    cases target with
    | name ident p => exact compiles_assign hvalue
    | _ =>
      intro b b' u h _ _
      simp only [compileStmt] at h
      exact (throw_eq_ok.1 h).elim
  | .func name params body pos => by
    intro b b' u h _ _ hlevel
    simp only [compileStmt] at h
    rw [get_bind_eq_ok] at h
    cases ht : b.atTopLevel with
    | true => exact (hlevel ht).elim
    | false =>
      rw [ht] at h
      obtain ⟨_, _, hthrow, -⟩ := bind_eq_ok.1 h
      exact (throw_eq_ok.1 hthrow).elim
  | .retNil pos => by
    simp only [compileStmt]
    intro b b' u h hb hc hlevel
    have hnil : ∀ r, Compiles (emitABx .loadNil r 0) fun C names sc i j =>
        C.At i (.abx .loadNil r 0) ∧ j = i + 1 :=
      fun r => compiles_emit fun C names sc i hw => ⟨hw, rfl⟩
    obtain ⟨new, hnew, hplain, l⟩ := compiles_ret hnil b b' u h hb hc fun _ => trivial
    refine ⟨new, hnew, hplain, l.grows, l.context, fun C hC => ?_⟩
    obtain ⟨hsc, k, hreturns, hroom, ⟨hw, rfl⟩, hret, hnext⟩ := l.laid C hC
    rw [hsc, hnext]
    exact .retNil hreturns hroom hw hret
  | .ret value pos => by
    have hvalue := compiles_expr value
    simp only [compileStmt]
    intro b b' u h hb hc hlevel
    obtain ⟨new, hnew, hplain, l⟩ := compiles_ret hvalue b b' u h hb hc fun _ => trivial
    refine ⟨new, hnew, hplain, l.grows, l.context, fun C hC => ?_⟩
    obtain ⟨hsc, k, hreturns, hroom, he, hret, hnext⟩ := l.laid C hC
    rw [hsc, hnext]
    exact .ret hreturns hroom he hret
  | .loop test body pos => by
    have htest := compiles_expr test
    have hbody := compiles_body body
    simp only [compileStmt]
    intro b b' u h hb hc hlevel
    have l := compiles_loop htest hbody b b' u h hb hc
    refine ⟨[], by simp, fun _ => rfl, l.grows, l.context, fun C hC => ?_⟩
    obtain ⟨k, m, hi, hroom, ht, hskip, hm, hb, hback, hnext⟩ := l.laid C hC
    rw [l.scope, hnext]
    exact .loop hi hroom ht hskip hm hb hback
  | .expr e => by
    have he := compiles_expr e
    intro b b' u h hb hc hlevel
    simp only [compileStmt] at h
    rw [get_bind_eq_ok] at h
    cases ht : b.atTopLevel with
    | true => exact (hlevel ht).elim
    | false =>
      rw [ht] at h
      have l := compiles_discarded he b b' u h hb hc
      refine ⟨[], by simp, fun _ => rfl, l.grows, l.context, fun C hC => ?_⟩
      obtain ⟨hroom, hlaid⟩ := l.laid C hC
      rw [l.scope]
      exact .expr hroom hlaid

end

end ScriptMachine.Compile
