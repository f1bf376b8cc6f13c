import ScriptMachine.Compile.Compiled
import ScriptMachine.Proofs.Bytecode.Canonical
import ScriptMachine.Proofs.Compile.Building
import ScriptMachine.Proofs.Evaluation.Evaluator
import ScriptMachine.Proofs.Source.Printing

/-!
# Constant expressions

An expression of integers, truth values, nil and operators has a value of its own, which no store
has a part in. It is compiled as long as there are registers for its operands and its code is in reach
of a jump, and becomes as many instructions as it has parts, and no function and no string.
-/

namespace ScriptMachine.Evaluation

open Source Bytecode Compile

/-- An expression of integers, truth values, nil and operators. -/
def IsConstant : Expr → Prop
  | .number digits _ => ∃ n, literalValue digits = .ok n
  | .bool _ _ | .nil _ => True
  | .unary _ operand _ => IsConstant operand
  | .binary _ lhs rhs _ => IsConstant lhs ∧ IsConstant rhs
  | _ => False

/-- The result of an operator between operands; `&&` and `||` may do without the right one. -/
def operate (op : BinaryOp) (d : Datum) (right : Except Fault Datum) : Except Fault Datum :=
  match operatorCode? op with
  | some code => right.bind (binary code d)
  | none => if decides op d then .ok d else right

/-- The value of a constant expression, or the fault of the operator that fails first. -/
def constantValue : Expr → Except Fault Datum
  | .number digits _ =>
    match literalValue digits with
    | .ok n => .ok (.int n)
    | .error _ => .ok .nil
  | .bool b _ => .ok (.bool b)
  | .unary op operand _ => (constantValue operand).bind (unary op)
  | .binary op lhs rhs _ => (constantValue lhs).bind fun d => operate op d (constantValue rhs)
  | _ => .ok .nil

/-- The number of instructions that compute a constant expression. -/
def constantSize : Expr → Nat
  | .unary _ operand _ => constantSize operand + 1
  | .binary _ lhs rhs _ => constantSize lhs + constantSize rhs + 1
  | _ => 1

/-- The number of registers that it needs beside its target. -/
def constantHeight : Expr → Nat
  | .unary _ operand _ => constantHeight operand
  | .binary _ lhs rhs _ => max (constantHeight lhs) (constantHeight rhs + 1)
  | _ => 0

/-! ## Places do not matter -/

/-- Two expressions that differ in places only have the same value, size and height. -/
structure SameConstant (e f : Expr) : Prop where
  constant : IsConstant e ↔ IsConstant f
  value : constantValue e = constantValue f
  size : constantSize e = constantSize f
  height : constantHeight e = constantHeight f

theorem sameConstant_unplaced : (e : Expr) → SameConstant e.unplaced e
  | .number _ _ | .text _ _ | .bool _ _ | .nil _ | .name _ _ => ⟨Iff.rfl, rfl, rfl, rfl⟩
  | .call _ _ _ | .cond _ _ _ _ | .block _ => ⟨Iff.rfl, rfl, rfl, rfl⟩
  | .unary op operand _ => by
    have h := sameConstant_unplaced operand
    refine ⟨?_, ?_, ?_, ?_⟩
    · simp only [Expr.unplaced, IsConstant, h.constant]
    · simp only [Expr.unplaced, constantValue, h.value]
    · simp only [Expr.unplaced, constantSize, h.size]
    · simp only [Expr.unplaced, constantHeight, h.height]
  | .binary op lhs rhs _ => by
    have hl := sameConstant_unplaced lhs
    have hr := sameConstant_unplaced rhs
    refine ⟨?_, ?_, ?_, ?_⟩
    · simp only [Expr.unplaced, IsConstant, hl.constant, hr.constant]
    · simp only [Expr.unplaced, constantValue, hl.value, hr.value]
    · simp only [Expr.unplaced, constantSize, hl.size, hr.size]
    · simp only [Expr.unplaced, constantHeight, hl.height, hr.height]

theorem sameConstant_of_unplaced {e f : Expr} (h : e.unplaced = f.unplaced) : SameConstant e f := by
  have he := sameConstant_unplaced e
  have hf := sameConstant_unplaced f
  rw [h] at he
  exact ⟨he.constant.symm.trans hf.constant, he.value.symm.trans hf.value,
    he.size.symm.trans hf.size, he.height.symm.trans hf.height⟩

/-! ## Values -/

/-- A datum that needs no heap. -/
def Datum.IsPlain : Datum → Prop
  | .int _ | .nil | .bool _ => True
  | _ => False

variable {d e x : Datum}

theorem isPlain_of_exact {n : Int} (h : exact n = .ok x) : x.IsPlain := by
  unfold exact at h
  split_ifs at h
  cases h
  trivial

theorem isPlain_of_arithmetic {op : Opcode} {m n : Int} (h : arithmetic op m n = .ok x) :
    x.IsPlain := by
  unfold arithmetic at h
  split at h <;> try split_ifs at h
  all_goals first | exact isPlain_of_exact h | cases h

theorem isPlain_of_binary {op : Opcode} (hd : d.IsPlain) (h : binary op d e = .ok x) :
    x.IsPlain := by
  unfold binary at h
  by_cases heq : op = .eq
  · rw [if_pos heq] at h
    cases h
    trivial
  · rw [if_neg heq] at h
    by_cases hne : op = .notEq
    · rw [if_pos hne] at h
      cases h
      trivial
    · rw [if_neg hne] at h
      cases d with
      | int m =>
        cases e with
        | int n =>
          simp only at h
          split_ifs at h
          · cases h
            trivial
          · exact isPlain_of_arithmetic h
        | _ => cases h
      | text s => exact hd.elim
      | _ => cases h

theorem isPlain_of_unary {op : UnaryOp} (h : unary op d = .ok x) : x.IsPlain := by
  cases op with
  | not =>
    cases h
    trivial
  | neg =>
    cases d with
    | int n => exact isPlain_of_exact h
    | _ => cases h

theorem ok_of_except_bind {α β : Type} {r : Except Fault α} {next : α → Except Fault β} {y : β}
    (h : r.bind next = .ok y) : ∃ x, r = .ok x ∧ next x = .ok y := by
  cases r with
  | error f => cases h
  | ok x => exact ⟨x, rfl, h⟩

theorem isPlain_of_operate {op : BinaryOp} {right : Except Fault Datum} (hd : d.IsPlain)
    (hright : ∀ e, right = .ok e → e.IsPlain) (h : operate op d right = .ok x) : x.IsPlain := by
  unfold operate at h
  split at h
  · obtain ⟨e, -, he⟩ := ok_of_except_bind h
    exact isPlain_of_binary hd he
  · split_ifs at h
    · cases h
      exact hd
    · exact hright x h

/-- The value of a constant expression needs no heap. -/
theorem isPlain_constantValue : (e : Expr) → {d : Datum} → constantValue e = .ok d → d.IsPlain
  | .number digits _, d, h => by
    unfold constantValue at h
    split at h <;> cases h <;> trivial
  | .bool b _, d, h => by
    cases h
    trivial
  | .unary op operand _, d, h => by
    unfold constantValue at h
    obtain ⟨c, -, hc⟩ := ok_of_except_bind h
    exact isPlain_of_unary hc
  | .binary op lhs rhs _, d, h => by
    unfold constantValue at h
    obtain ⟨c, hv, hc⟩ := ok_of_except_bind h
    exact isPlain_of_operate (isPlain_constantValue lhs hv) (fun _ => isPlain_constantValue rhs) hc
  | .text _ _, d, h | .nil _, d, h | .name _ _, d, h | .call _ _ _, d, h | .cond _ _ _ _, d, h
  | .block _, d, h => by
    cases h
    trivial

/-- Evaluation comes to the value in every store, and leaves the store alone. -/
theorem evalExpr_constant (call : Datum → List Datum → Eval Datum) (fuel : Nat) (names : Names) :
    (e : Expr) → IsConstant e → ∀ s,
      evalExpr call fuel names e s = liftFault (constantValue e) s
  | .number digits _, ⟨n, hn⟩, s => by
    simp only [evalExpr, constantValue, hn]
    rfl
  | .bool _ _, _, s | .nil _, _, s => by
    simp only [evalExpr, constantValue]
    rfl
  | .unary op operand _, h, s => by
    have hoperand := evalExpr_constant call fuel names operand h s
    simp only [evalExpr, constantValue]
    show EStateM.bind _ _ s = _
    unfold EStateM.bind
    rw [hoperand]
    cases constantValue operand <;> rfl
  | .binary op lhs rhs _, ⟨hl, hr⟩, s => by
    have hlhs := evalExpr_constant call fuel names lhs hl s
    have hrhs := evalExpr_constant call fuel names rhs hr s
    simp only [evalExpr, constantValue]
    show EStateM.bind _ _ s = _
    unfold EStateM.bind
    rw [hlhs]
    cases constantValue lhs with
    | error f => rfl
    | ok d =>
      simp only [liftFault, Except.bind, operate]
      cases operatorCode? op with
      | some code =>
        show EStateM.bind _ _ s = _
        unfold EStateM.bind
        rw [hrhs]
        cases constantValue rhs <;> rfl
      | none =>
        simp only
        split_ifs
        · rfl
        · exact hrhs

end ScriptMachine.Evaluation

namespace ScriptMachine.Compile

open Source Bytecode Evaluation

/-- A step changes the body only: it appends `count` instructions and at most as many constants, and
the registers in use are those from before. -/
structure Appends (step : Building Unit) (count : Nat) (b : Builder) (f : Body) : Prop where
  eq : step b = .ok ((), { b with body := f })
  name : f.name = b.body.name
  top : f.regTop = b.body.regTop
  code : f.code.size = b.body.code.size + count
  constants : f.constants.size ≤ b.body.constants.size + count

variable {step next : Building Unit} {b : Builder} {f g : Body} {n m : Nat}

theorem Appends.seq (h : Appends step n b f) (h' : Appends next m { b with body := f } g) :
    Appends (step >>= fun _ => next) (n + m) b g where
  eq := bind_eq_ok.2 ⟨(), _, h.eq, h'.eq⟩
  name := h'.name.trans h.name
  top := h'.top.trans h.top
  code := by
    rw [h'.code, ← Nat.add_assoc]
    exact congrArg (· + m) h.code
  constants := by
    rw [← Nat.add_assoc]
    exact Nat.le_trans h'.constants (Nat.add_le_add_right h.constants m)

theorem appends_emit (w : Word) (b : Builder) :
    Appends (updateBody fun f => f.emit w) 1 b (b.body.emit w) where
  eq := rfl
  name := rfl
  top := rfl
  code := Array.size_push _
  constants := Nat.le_succ _

/-- The body with one more register in use. -/
def Body.raise (f : Body) : Body :=
  { f with regTop := f.regTop + 1, maxSlots := max f.maxSlots (f.regTop + 1) }

theorem takeReg_eq (h : b.body.regTop < 255) :
    takeReg b = .ok (b.body.regTop, { b with body := b.body.raise }) := by
  refine takeFromBody_eq_ok.2 ⟨_, ?_, rfl⟩
  rw [Body.takeReg, if_neg (by omega)]
  rfl

theorem constantIndex_eq {k : Constant} (h : b.body.constants.size ≤ maxWide) :
    ∃ i f, constantIndex k b = .ok (i, { b with body := f }) ∧ f.name = b.body.name ∧
      f.regTop = b.body.regTop ∧ f.code = b.body.code ∧
      f.constants.size ≤ b.body.constants.size + 1 := by
  have htake : ∃ i f, b.body.constantIndex k = .ok (i, f) ∧ f.name = b.body.name ∧
      f.regTop = b.body.regTop ∧ f.code = b.body.code ∧
      f.constants.size ≤ b.body.constants.size + 1 := by
    unfold Body.constantIndex
    cases b.body.constants.idxOf? k with
    | some i => exact ⟨i, b.body, rfl, rfl, rfl, rfl, Nat.le_succ _⟩
    | none =>
      refine ⟨_, _, if_neg (Nat.not_lt.2 h), rfl, rfl, rfl, ?_⟩
      exact Nat.le_of_eq (Array.size_push k)
  obtain ⟨i, f, heq, hf⟩ := htake
  exact ⟨i, f, takeFromBody_eq_ok.2 ⟨f, heq, rfl⟩, hf⟩

theorem appends_constant (k : Constant) (t : Nat) (h : b.body.constants.size ≤ maxWide) :
    ∃ f, Appends (loadConstant k t) 1 b f := by
  obtain ⟨i, f, heq, hname, htop, hcode, hconstants⟩ := constantIndex_eq (k := k) h
  refine ⟨f.emit (.abx .loadConst t i), bind_eq_ok.2 ⟨i, _, heq, rfl⟩, hname, htop, ?_, hconstants⟩
  show (f.code.push _).size = _
  rw [Array.size_push, hcode]

/-- An operand in a register on top of those in use, the instruction that takes it from there, and
the register given back. -/
theorem appends_above (fill : Nat → Building Unit) (w : Nat → Word) (htop : b.body.regTop < 255)
    (h : Appends (fill b.body.regTop) n { b with body := b.body.raise } f) :
    ∃ g, Appends (do
      let r ← takeReg
      fill r
      updateBody fun f => f.emit (w r)
      giveBackReg) (n + 1) b g := by
  have hcode := h.code
  have hconstants := h.constants
  refine ⟨(f.emit (w b.body.regTop)).giveBackReg, ?_, h.name, ?_, ?_, ?_⟩
  · exact bind_eq_ok.2 ⟨_, _, takeReg_eq htop, bind_eq_ok.2 ⟨(), _, h.eq, rfl⟩⟩
  · show f.regTop - 1 = _
    rw [h.top]
    rfl
  · show (f.code.push _).size = _
    rw [Array.size_push, hcode]
    rfl
  · exact Nat.le_trans hconstants (Nat.le_succ _)

/-- An operand behind a jump over it. -/
theorem appends_skipped {act : Building Unit} {op : Opcode} {t : Nat}
    (h : Appends act n { b with body := b.body.emit (.abx op t 0) } f)
    (hfar : b.body.code.size + (n + 1) ≤ maxWide) :
    ∃ g, Appends (do
      let skip ← jumpAhead op t
      act
      aimJump skip) (n + 1) b g := by
  have hcode : f.code.size = b.body.code.size + 1 + n := by
    rw [h.code]
    exact congrArg (· + n) (Array.size_push _)
  have hconstants := h.constants
  obtain ⟨g, hg, hname, htop, hsize, hsame⟩ : ∃ g, f.aimJump b.body.here = .ok g ∧
      g.name = f.name ∧ g.regTop = f.regTop ∧ g.code.size = f.code.size ∧
      g.constants = f.constants := by
    refine ⟨_, if_neg ?_, rfl, rfl, Array.size_modify, rfl⟩
    rw [Body.here]
    omega
  refine ⟨g, ?_, hname.trans h.name, htop.trans h.top, by omega, ?_⟩
  · refine bind_eq_ok.2 ⟨b.body.here, _, rfl, bind_eq_ok.2 ⟨(), _, h.eq, ?_⟩⟩
    exact updateBody?_eq_ok.2 ⟨g, hg, rfl⟩
  · rw [hsame]
    exact Nat.le_trans hconstants (Nat.le_succ _)

/-- There is room for a constant expression in a body. -/
structure Body.RoomFor (f : Body) (e : Expr) : Prop where
  registers : f.regTop + constantHeight e ≤ 255
  constants : f.constants.size + constantSize e ≤ maxWide
  code : f.code.size + constantSize e ≤ maxWide

theorem Body.RoomFor.of_le {e e' : Expr} (h : f.RoomFor e) {r k : Nat}
    (htop : g.regTop ≤ f.regTop + r) (hcode : g.code.size ≤ f.code.size + k)
    (hconstants : g.constants.size ≤ f.constants.size + k)
    (hheight : constantHeight e' + r ≤ constantHeight e)
    (hsize : constantSize e' + k ≤ constantSize e) : g.RoomFor e' := by
  obtain ⟨h₁, h₂, h₃⟩ := h
  exact ⟨by omega, by omega, by omega⟩

/-- A constant expression is compiled where there is room for it. -/
theorem appends_compileInto : (e : Expr) → IsConstant e → (t : Nat) → (b : Builder) →
    b.body.RoomFor e → ∃ f, Appends (compileInto e t) (constantSize e) b f
  | .number digits _, ⟨n, hn⟩, t, b, hroom => by
    have hconstants := hroom.constants
    simp only [constantSize] at hconstants
    have hload := appends_constant (b := b) (.int (Int64.ofInt n)) t (by omega)
    simp only [compileInto, hn]
    exact hload
  | .bool true _, _, t, b, _ => by
    rw [compileInto]
    exact ⟨_, appends_emit _ b⟩
  | .bool false _, _, t, b, _ => by
    rw [compileInto]
    exact ⟨_, appends_emit _ b⟩
  | .nil _, _, t, b, _ => by
    rw [compileInto]
    exact ⟨_, appends_emit _ b⟩
  | .unary op operand _, h, t, b, hroom => by
    have hoperand : b.body.RoomFor operand :=
      hroom.of_le (r := 0) (k := 0) (by omega) (by omega) (by omega)
        (by simp only [constantHeight]; omega) (by simp only [constantSize]; omega)
    obtain ⟨f, hf⟩ := appends_compileInto operand h t b hoperand
    rw [compileInto]
    exact ⟨_, hf.seq (appends_emit _ _)⟩
  | .binary op lhs rhs _, ⟨hl, hr⟩, t, b, hroom => by
    have hlhs : b.body.RoomFor lhs :=
      hroom.of_le (r := 0) (k := 0) (by omega) (by omega) (by omega)
        (by simp only [constantHeight]; omega) (by simp only [constantSize]; omega)
    obtain ⟨f, hf⟩ := appends_compileInto lhs hl t b hlhs
    have htop := hf.top
    have hcode := hf.code
    have hconstants := hf.constants
    rw [compileInto]
    cases hop : operatorCode? op with
    | some code =>
      have hrhs : f.raise.RoomFor rhs :=
        hroom.of_le (r := 1) (k := constantSize lhs) (by simp only [Body.raise]; omega)
          (by simp only [Body.raise]; omega) (by simp only [Body.raise]; omega)
          (by simp only [constantHeight]; omega) (by simp only [constantSize]; omega)
      have htaken : f.regTop < 255 := by
        have := hroom.registers
        simp only [constantHeight] at this
        omega
      obtain ⟨g, hg⟩ := appends_compileInto rhs hr f.regTop { b with body := f.raise } hrhs
      obtain ⟨g', hg'⟩ := appends_above (compileInto rhs) (fun r => .abc code t t r)
        (b := { b with body := f }) htaken hg
      exact ⟨g', hf.seq hg'⟩
    | none =>
      have hrhs : (f.emit (.abx (skipCode op) t 0)).RoomFor rhs := by
        refine hroom.of_le (r := 0) (k := constantSize lhs + 1) ?_ ?_ ?_
          (by simp only [constantHeight]; omega) (by simp only [constantSize]; omega)
        · exact Nat.le_of_eq htop
        · show (f.code.push _).size ≤ _
          rw [Array.size_push]
          omega
        · exact Nat.le_trans hconstants (Nat.le_succ _)
      obtain ⟨g, hg⟩ := appends_compileInto rhs hr t
        { b with body := f.emit (.abx (skipCode op) t 0) } hrhs
      obtain ⟨g', hg'⟩ := appends_skipped (b := { b with body := f }) hg (by
        have := hroom.code
        simp only [constantSize] at this
        simp only
        omega)
      exact ⟨g', hf.seq hg'⟩

/-- A constant expression is a fragment that compiles, to a program with a main body only. -/
theorem compileFragment_constant (names : Names) {e : Expr} (he : IsConstant e)
    (hsize : constantSize e + 2 ≤ maxWide) (hheight : constantHeight e ≤ 254) :
    ∃ main : Prototype, compileFragment names [.expr e] = .ok ⟨⟨#[], #[], main⟩, [], true⟩ ∧
      main.code.size = constantSize e + 2 ∧ (⟨#[], #[], main⟩ : Program).WithinCaps := by
  have hroom : (((Body.new "main" 0).raise).emit (.abx .loadNil 0 0)).RoomFor e :=
    ⟨show 1 + _ ≤ 255 by omega, show 0 + _ ≤ maxWide by omega, show 1 + _ ≤ maxWide by omega⟩
  obtain ⟨f, hf⟩ := appends_compileInto e he resultReg
    { Builder.new names with body := ((Body.new "main" 0).raise).emit (.abx .loadNil 0 0) } hroom
  have hcompile : compileMain [.expr e] (.new names) = .ok ((), { Builder.new names with
      body := f.emit (.abc .ret 0 0 0) }) := by
    refine bind_eq_ok.2 ⟨0, _, takeReg_eq (Nat.zero_lt_succ _),
      bind_eq_ok.2 ⟨(), _, rfl, ?_⟩⟩
    refine bind_eq_ok.2 ⟨(), { Builder.new names with body := f }, ?_, rfl⟩
    rw [compileStmts, compileStmt]
    exact bind_eq_ok.2 ⟨(), _, hf.eq, rfl⟩
  have hcode : (f.code.push (.abc .ret 0 0 0)).size = constantSize e + 2 := by
    rw [Array.size_push, hf.code]
    show 1 + constantSize e + 1 = _
    omega
  have hconstants : f.constants.size ≤ 0 + constantSize e := hf.constants
  refine ⟨(f.emit (.abc .ret 0 0 0)).toPrototype, ?_, hcode, ?_⟩
  · rw [compileFragment, hcompile]
    rfl
  · refine ⟨Nat.zero_le _, fun s hs => (List.not_mem_nil hs).elim, Nat.zero_le _, fun p hp => ?_⟩
    rw [List.mem_singleton.1 hp]
    unfold maxWide at hsize
    refine ⟨?_, ?_, ?_⟩
    · show f.name.utf8ByteSize ≤ 4096
      rw [show f.name = "main" from hf.name]
      decide
    · show f.constants.size ≤ 65536
      omega
    · show (f.code.push _).size ≤ 1000000
      omega

end ScriptMachine.Compile
