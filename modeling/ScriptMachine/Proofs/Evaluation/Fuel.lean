import ScriptMachine.Proofs.Evaluation.Evaluator
import Mathlib.Tactic.SplitIfs

/-!
# Fuel

More fuel changes no result: an evaluation that ends with some fuel ends in the same way with more.
So a fragment has one meaning, whatever fuel it is evaluated with.
-/

namespace ScriptMachine.Evaluation

open Source Bytecode Compile

/-- The second evaluation has the result of the first, unless the first runs out of fuel. -/
def Refines {α : Type} (act act' : Eval α) : Prop :=
  ∀ s, (∃ t, act s = .error .timeout t) ∨ act' s = act s

namespace Refines

variable {α β : Type} {act act' : Eval α}

theorem refl (act : Eval α) : Refines act act :=
  fun _ => .inr rfl

theorem of_timeout (act' : Eval α) : Refines (throw .timeout) act' :=
  fun s => .inl ⟨s, rfl⟩

/-- What follows an evaluation is refined where it is reached. -/
theorem bind {next next' : α → Eval β} (h : Refines act act')
    (hnext : ∀ x, Refines (next x) (next' x)) : Refines (act >>= next) (act' >>= next') := by
  intro s
  show (∃ t, EStateM.bind act next s = .error .timeout t) ∨
    EStateM.bind act' next' s = EStateM.bind act next s
  unfold EStateM.bind
  rcases h s with ⟨t, ht⟩ | heq
  · rw [ht]
    exact .inl ⟨t, rfl⟩
  · rw [heq]
    cases act s with
    | ok x t => exact hnext x t
    | error e t => exact .inr rfl

theorem ite {c : Prop} [Decidable c] {other other' : Eval α} (h : Refines act act')
    (hother : Refines other other') :
    Refines (if c then act else other) (if c then act' else other') := by
  split_ifs
  · exact h
  · exact hother

theorem inScope {step step' : Eval Datum} (h : Refines step step') :
    Refines (inScope step) (inScope step') := by
  intro s
  unfold Evaluation.inScope
  rcases h s with ⟨t, ht⟩ | heq
  · rw [ht]
    exact .inl ⟨t, rfl⟩
  · rw [heq]
    exact .inr rfl

theorem enter {body body' : Eval Datum} (h : Refines body body') (locals : List (String × Datum)) :
    Refines (enter body locals) (enter body' locals) := by
  intro s
  unfold Evaluation.enter
  rcases h { s with locals } with ⟨t, ht⟩ | heq
  · rw [ht]
    exact .inl ⟨_, rfl⟩
  · rw [heq]
    exact .inr rfl

/-- A loop may take more rounds. -/
theorem iterate {test test' body body' : Eval Datum} (htest : Refines test test')
    (hbody : Refines body body') {n n' : Nat} (hle : n ≤ n') :
    Refines (iterate test body n) (iterate test' body' n') := by
  induction n generalizing n' with
  | zero => exact of_timeout _
  | succ n ih =>
    obtain ⟨n', rfl⟩ : ∃ l, n' = l + 1 := ⟨n' - 1, by omega⟩
    refine htest.bind fun d => .ite (refl _) (hbody.bind fun _ => ih (by omega))

end Refines

/-! ## Trees -/

section

variable {call call' : Datum → List Datum → Eval Datum} {fuel fuel' : Nat} {names : Names}

mutual

theorem refines_expr (hcall : ∀ f ds, Refines (call f ds) (call' f ds)) (hle : fuel ≤ fuel') :
    (e : Expr) → Refines (evalExpr call fuel names e) (evalExpr call' fuel' names e)
  | .number _ _ | .text _ _ | .bool _ _ | .nil _ | .name _ _ => by
    simp only [evalExpr]
    exact .refl _
  | .binary op lhs rhs _ => by
    have hlhs := refines_expr hcall hle lhs
    have hrhs := refines_expr hcall hle rhs
    simp only [evalExpr]
    refine hlhs.bind fun d => ?_
    cases operatorCode? op with
    | some code => exact hrhs.bind fun _ => .refl _
    | none => exact .ite (.refl _) hrhs
  | .unary op operand _ => by
    simp only [evalExpr]
    exact (refines_expr hcall hle operand).bind fun _ => .refl _
  | .call callee args _ => by
    simp only [evalExpr]
    refine (refines_expr hcall hle callee).bind fun f => ?_
    exact (refines_args hcall hle args).bind fun ds => hcall f ds
  | .cond test body otherwise _ => by
    simp only [evalExpr]
    refine (refines_expr hcall hle test).bind fun d => ?_
    exact .ite (refines_else hcall hle otherwise) (refines_block hcall hle body)
  | .block body => by
    simp only [evalExpr]
    exact refines_block hcall hle body

theorem refines_args (hcall : ∀ f ds, Refines (call f ds) (call' f ds)) (hle : fuel ≤ fuel') :
    (args : List Expr) → Refines (evalArgs call fuel names args) (evalArgs call' fuel' names args)
  | [] => by
    simp only [evalArgs]
    exact .refl _
  | arg :: rest => by
    simp only [evalArgs]
    refine (refines_expr hcall hle arg).bind fun d => ?_
    exact (refines_args hcall hle rest).bind fun _ => .refl _

theorem refines_else (hcall : ∀ f ds, Refines (call f ds) (call' f ds)) (hle : fuel ≤ fuel') :
    (e : Else) → Refines (evalElse call fuel names e) (evalElse call' fuel' names e)
  | .absent => by
    simp only [evalElse]
    exact .refl _
  | .block body => by
    simp only [evalElse]
    exact refines_block hcall hle body
  | .elseIf test body otherwise _ => by
    simp only [evalElse]
    refine (refines_expr hcall hle test).bind fun d => ?_
    exact .ite (refines_else hcall hle otherwise) (refines_block hcall hle body)

theorem refines_block (hcall : ∀ f ds, Refines (call f ds) (call' f ds)) (hle : fuel ≤ fuel') :
    (body : Block) → Refines (evalBlock call fuel names body) (evalBlock call' fuel' names body)
  | .mk stmts _ => by
    simp only [evalBlock]
    exact (refines_tail hcall hle stmts).inScope

theorem refines_tail (hcall : ∀ f ds, Refines (call f ds) (call' f ds)) (hle : fuel ≤ fuel') :
    (stmts : List Stmt) →
      Refines (evalTail call fuel names stmts) (evalTail call' fuel' names stmts)
  | [] => by
    simp only [evalTail]
    exact .refl _
  | stmt :: rest => by
    have hstmt := refines_stmt hcall hle stmt
    have hrest := refines_tail hcall hle rest
    cases rest with
    | cons next rest =>
      simp only [evalTail] at hrest ⊢
      exact hstmt.bind fun _ => hrest
    | nil =>
      cases stmt with
      | expr e =>
        simp only [evalTail]
        exact refines_expr hcall hle e
      | _ =>
        simp only [evalTail] at hrest ⊢
        exact hstmt.bind fun _ => hrest

theorem refines_stmt (hcall : ∀ f ds, Refines (call f ds) (call' f ds)) (hle : fuel ≤ fuel') :
    (stmt : Stmt) → Refines (evalStmt call fuel names stmt) (evalStmt call' fuel' names stmt)
  | .bind _ _ value _ => by
    simp only [evalStmt]
    exact (refines_expr hcall hle value).bind fun _ => .refl _
  | .assign target value _ => by
    cases target with
    | name ident _ =>
      simp only [evalStmt]
      exact (refines_expr hcall hle value).bind fun _ => .refl _
    | _ =>
      simp only [evalStmt]
      exact .refl _
  | .func _ _ _ _ | .retNil _ => by
    simp only [evalStmt]
    exact .refl _
  | .ret value _ => by
    simp only [evalStmt]
    exact (refines_expr hcall hle value).bind fun _ => .refl _
  | .loop test body _ => by
    simp only [evalStmt]
    exact .iterate (refines_expr hcall hle test) (refines_block hcall hle body) hle
  | .expr e => by
    simp only [evalStmt]
    exact (refines_expr hcall hle e).bind fun _ => .refl _

end

end

/-! ## Calls and fragments -/

end ScriptMachine.Evaluation
