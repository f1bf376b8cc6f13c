import ScriptMachine.Proofs.Simulation.Statements

/-!
# Trees

The code that is laid out for a tree computes the evaluation of the tree. The proof follows the
tree, with one case for each way in which its code can be laid out.
-/

namespace ScriptMachine.Simulation

open Source Bytecode Compile Evaluation

/-- What the code of a tree needs: calls that agree with the evaluation, and names whose slots are
bound. -/
structure Setting (σ : Slots) (n k : Nat) (A : Activation) (C : Coding) (names : Names) : Prop where
  distinct : σ.Distinct
  calls : CallsAgree σ n k
  called : A.Called C
  order : names.InOrder
  bound : names.nextSlot ≤ n

variable {σ : Slots} {n k : Nat} {A : Activation} {C : Coding} {names : Names}

theorem binary_of_operatorCode? {op : BinaryOp} {code : Opcode} (h : operatorCode? op = some code) :
    Machine.Binary code := by
  cases op <;> cases h <;> trivial

/-- Unless a block ends in an expression, its value is not that of its last statement. -/
theorem evalTail_cons {call : Datum → List Datum → Eval Datum} {stmt : Stmt} {rest : List Stmt}
    (hlast : ∀ e, stmt = .expr e → rest ≠ []) :
    evalTail call k names (stmt :: rest) = (do
      evalStmt call k names stmt
      evalTail call k names rest) := by
  cases stmt with
  | expr e =>
    cases rest with
    | nil => exact absurd rfl (hlast e rfl)
    | cons _ _ => simp only [evalTail]
  | _ => simp only [evalTail]

theorem extends_of_stmtAt {stmt : Stmt} {sc sc' : Scope} {i j : Nat}
    (h : StmtAt C names stmt sc sc' i j) : Extends sc sc' := by
  cases h with
  | bind _ _ => exact .declare sc _
  | _ => exact .refl sc

mutual

/-- The code of an expression computes its evaluation. -/
theorem computes_expr (S : Setting σ n k A C names) : (e : Expr) → {sc : Scope} → {t i j : Nat} →
    sc.InOrder C → sc.Spare t → ExprAt C names e sc t i j →
    Computes σ n k A C sc t i j (evalExpr (apply k) k names e)
  | .number digits _, sc, t, i, j, hsc, ht, h => by
    cases h with
    | number hn hk hw =>
      simp only [evalExpr, hn]
      exact computes_constant hsc ht hk hw
  | .text raw _, sc, t, i, j, hsc, ht, h => by
    cases h with
    | text hk hw =>
      simp only [evalExpr]
      exact computes_constant hsc ht hk hw
  | .bool b _, sc, t, i, j, hsc, ht, h => by
    cases h with
    | bool hw =>
      simp only [evalExpr]
      exact computes_bool hsc ht b hw
  | .nil _, sc, t, i, j, hsc, ht, h => by
    cases h with
    | nil hw =>
      simp only [evalExpr]
      exact computes_nil hsc ht hw
  | .name ident _, sc, t, i, j, hsc, ht, h => by
    simp only [evalExpr]
    cases h with
    | here hreg => exact absurd rfl (ht.2 _ (Scope.mem_of_reg? hreg))
    | move hreg hw => exact computes_local hsc ht hreg hw
    | global hreg hg hslot hw => exact computes_global hsc ht S.order S.bound hreg hg hslot hw
    | primitive hreg hg hindex hwide hw =>
      exact computes_primitive hsc ht S.order hreg hg hindex hwide hw
  | .binary op lhs rhs _, sc, t, i, j, hsc, ht, h => by
    cases h with
    | binary hcode hl hroom hr hw =>
      have hlhs := computes_expr S lhs hsc ht hl
      have hrhs := computes_expr S rhs (hsc.take hroom) hsc.spare_take hr
      simp only [evalExpr, hcode]
      exact computes_binary hsc ht S.distinct (binary_of_operatorCode? hcode) hlhs hroom hrhs hw
    | logical hcode hl hw hr hj =>
      have hlhs := computes_expr S lhs hsc ht hl
      have hrhs := computes_expr S rhs hsc ht hr
      simp only [evalExpr, hcode]
      exact computes_logical hsc ht hlhs hw hrhs hj
  | .unary op operand _, sc, t, i, j, hsc, ht, h => by
    cases h with
    | unary he hw =>
      have hoperand := computes_expr S operand hsc ht he
      simp only [evalExpr]
      exact computes_unary hsc ht hoperand hw
  | .call callee args _, sc, t, i, j, hsc, ht, h => by
    cases h with
    | call hcount hroom hf hargs hw =>
      have hcallee := computes_expr S callee (hsc.take hroom) hsc.spare_take hf
      have hgather := gathers_args S args (hsc.take hroom) hargs
      have hslots := room_of_argsAt hargs hroom.2
      simp only [evalExpr]
      exact computes_call S.calls hsc ht hcount hroom hslots hcallee hgather hw
  | .cond test body otherwise _, sc, t, i, j, hsc, ht, h => by
    cases h with
    | cond hroom htest hskip hm hbody hend hj helse =>
      have htest' := computes_expr S test (hsc.take hroom) hsc.spare_take htest
      have hbody' := computes_body S body hsc ht hbody
      have helse' := computes_else S otherwise hsc ht helse
      simp only [evalExpr]
      exact computes_cond hroom htest' hskip hm hbody' hend hj helse'
  | .block body, sc, t, i, j, hsc, ht, h => by
    cases h with
    | block hbody =>
      simp only [evalExpr]
      exact computes_body S body hsc ht hbody

/-- The code of arguments computes them from left to right. -/
theorem gathers_args (S : Setting σ n k A C names) : (args : List Expr) → {sc : Scope} →
    {i j : Nat} → sc.InOrder C → ArgsAt C names args sc i j →
    Gathers σ n k A C sc i j args.length (evalArgs (apply k) k names args)
  | [], sc, i, j, hsc, h => by
    cases h with
    | nil =>
      simp only [evalArgs]
      exact gathers_nil
  | arg :: rest, sc, i, j, hsc, h => by
    cases h with
    | cons hroom harg hrest =>
      have harg' := computes_expr S arg (hsc.take hroom) hsc.spare_take harg
      have hrest' := gathers_args S rest (hsc.take hroom) hrest
      simp only [evalArgs]
      exact gathers_cons hsc harg' hrest'

/-- The code of an alternative computes it. -/
theorem computes_else (S : Setting σ n k A C names) : (e : Else) → {sc : Scope} → {t i j : Nat} →
    sc.InOrder C → sc.Spare t → ElseAt C names e sc t i j →
    Computes σ n k A C sc t i j (evalElse (apply k) k names e)
  | .absent, sc, t, i, j, hsc, ht, h => by
    cases h with
    | absent hw =>
      simp only [evalElse]
      exact computes_nil hsc ht hw
  | .block body, sc, t, i, j, hsc, ht, h => by
    cases h with
    | block hbody =>
      simp only [evalElse]
      exact computes_body S body hsc ht hbody
  | .elseIf test body otherwise _, sc, t, i, j, hsc, ht, h => by
    cases h with
    | elseIf hroom htest hskip hm hbody hend hj helse =>
      have htest' := computes_expr S test (hsc.take hroom) hsc.spare_take htest
      have hbody' := computes_body S body hsc ht hbody
      have helse' := computes_else S otherwise hsc ht helse
      simp only [evalElse]
      exact computes_cond hroom htest' hskip hm hbody' hend hj helse'

/-- The code of a block computes its evaluation in a scope of its own. -/
theorem computes_body (S : Setting σ n k A C names) : (body : Block) → {sc : Scope} →
    {t i j : Nat} → sc.InOrder C → sc.Spare t → BlockAt C names body sc t i j →
    Computes σ n k A C sc t i j (evalBlock (apply k) k names body)
  | .mk stmts _, sc, t, i, j, hsc, ht, h => by
    cases h with
    | mk hstmts =>
      simp only [evalBlock]
      exact computes_block (computes_tail S stmts hsc ht hstmts)

/-- The code of the statements of a block performs them in order. -/
theorem computes_tail (S : Setting σ n k A C names) : (stmts : List Stmt) → {sc : Scope} →
    {t i j : Nat} → sc.InOrder C → sc.Spare t → TailAt C names stmts sc t i j →
    ComputesTail σ n k A C sc t i j (evalTail (apply k) k names stmts)
  | [], sc, t, i, j, hsc, ht, h => by
    cases h with
    | nil hw =>
      simp only [evalTail]
      exact computesTail_of_computes (computes_nil hsc ht hw)
  | stmt :: rest, sc, t, i, j, hsc, ht, h => by
    cases h with
    | value he =>
      simp only [evalTail]
      exact computesTail_of_computes (computes_expr S _ hsc ht he)
    | cons hlast hstmt hrest =>
      have hextends := extends_of_stmtAt hstmt
      have hsc' := inOrder_of_stmtAt hstmt hsc
      have hstmt' := performs_stmt S stmt hsc hstmt
      have hrest' := computes_tail S rest hsc' (hextends.spare ht) hrest
      rw [evalTail_cons hlast]
      exact computesTail_cons hextends hstmt' hrest'

/-- The code of a statement performs it. -/
theorem performs_stmt (S : Setting σ n k A C names) : (stmt : Stmt) → {sc sc' : Scope} →
    {i j : Nat} → sc.InOrder C → StmtAt C names stmt sc sc' i j →
    Performs σ n k A C sc sc' i j (evalStmt (apply k) k names stmt)
  | .bind mutable name value _, sc, sc', i, j, hsc, h => by
    cases h with
    | bind hroom he =>
      have hvalue := computes_expr S value (hsc.take hroom) hsc.spare_take he
      simp only [evalStmt]
      exact performs_bind name hvalue
  | .assign target value _, sc, sc', i, j, hsc, h => by
    cases h with
    | move hreg hroom he hw =>
      have hvalue := computes_expr S value (hsc.take hroom) hsc.spare_take he
      simp only [evalStmt]
      exact performs_assign hsc hroom hreg hvalue hw
    | setGlobal hreg hg _ hslot hroom he hw =>
      have hvalue := computes_expr S value (hsc.take hroom) hsc.spare_take he
      simp only [evalStmt]
      exact performs_setGlobal S.order S.bound hroom hreg hg hslot hvalue hw
  | .func _ _ _ _, sc, sc', i, j, hsc, h => by
    cases h
  | .retNil _, sc, sc', i, j, hsc, h => by
    cases h with
    | retNil hreturns hroom hnil hret =>
      have hvalue : Computes σ n k A C sc.take sc.top i (i + 1) (pure .nil) :=
        computes_nil (hsc.take hroom) hsc.spare_take hnil
      have hperforms := performs_ret S.called hreturns hroom hvalue hret
      rw [pure_bind] at hperforms
      simp only [evalStmt]
      exact hperforms
  | .ret value _, sc, sc', i, j, hsc, h => by
    cases h with
    | ret hreturns hroom he hret =>
      have hvalue := computes_expr S value (hsc.take hroom) hsc.spare_take he
      simp only [evalStmt]
      exact performs_ret S.called hreturns hroom hvalue hret
  | .loop test body _, sc, sc', i, j, hsc, h => by
    cases h with
    | loop hi hroom htest hskip hm hbody hback =>
      have htest' := computes_expr S test (hsc.take hroom) hsc.spare_take htest
      have hbody' := computes_body S body (hsc.take hroom) hsc.spare_take hbody
      simp only [evalStmt]
      exact performs_loop hroom hi htest' hskip hm hbody' hback
  | .expr e, sc, sc', i, j, hsc, h => by
    cases h with
    | expr hroom he =>
      have he' := computes_expr S e (hsc.take hroom) hsc.spare_take he
      simp only [evalStmt]
      exact performs_expr he'

end

end ScriptMachine.Simulation
