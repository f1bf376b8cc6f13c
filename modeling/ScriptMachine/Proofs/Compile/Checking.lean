import ScriptMachine.Compile.Compiled
import ScriptMachine.Proofs.Compile.Building

/-!
# Compilation with checks

The compiler once more, with the checks that it could make of its register stack while it runs. A
register is given back only while it is the topmost one; a scope closes by giving back the register
of each of its locals; and each call compares the locals, the depth and the registers in use after
it with those before it. A check that fails is an end of its own, apart from the refusals of programs.
-/

namespace ScriptMachine.Compile

open Source Bytecode

/-- Why a compilation with checks stops: the program is refused, or a check has failed. -/
inductive Complaint
  | refused (e : CompileError)
  | untidy

/-- A step of a compilation with checks. -/
abbrev Checking := StateT Builder (Except Complaint)

/-- A step in which nothing is checked. -/
def unchecked {α : Type} (step : Building α) : Checking α := fun b =>
  (step b).mapError .refused

/-- Checks the builder. -/
def expect (p : Builder → Prop) [DecidablePred p] : Checking Unit := fun b =>
  if p b then .ok ((), b) else .error .untidy

/-! ## Registers -/

/-- Gives back a register, which must be the topmost one. -/
def giveBack (reg : Nat) : Checking Unit := do
  expect fun b => b.body.regTop = reg + 1
  unchecked giveBackReg

example : giveBack 0 { Builder.new .empty with body := { Body.new "main" 0 with regTop := 2 } } =
    .error .untidy :=
  rfl

/-- Gives back registers, the first one first. -/
def giveBackAll : List Nat → Checking Unit
  | [] => return
  | reg :: rest => do
    giveBack reg
    giveBackAll rest

/-- Drops the newest locals as long as they are deeper than `depth`, and gives back the register of
each. -/
def dropLocals (depth : Nat) : List Local → Checking Unit
  | [] => return
  | l :: rest =>
    if depth < l.depth then do
      unchecked (updateBody fun f => { f with locals := rest })
      giveBack l.reg
      dropLocals depth rest
    else return

/-- Closes a scope, of which there must be one. -/
def closeScope : Checking Unit := do
  expect fun b => 0 < b.body.depth
  unchecked (updateBody fun f => { f with depth := f.depth - 1 })
  let b ← get
  dropLocals b.body.depth b.body.locals

/-! ## Calls -/

deriving instance DecidableEq for Context

/-- Locals were added, each with a register on top. -/
def Context.Adds (c : Context) (n : Nat) (c' : Context) : Prop :=
  c'.locals.drop n = c.locals ∧ c'.locals.length = c.locals.length + n ∧ c'.depth = c.depth ∧
    c'.top = c.top + n

instance (c c' : Context) (n : Nat) : Decidable (c.Adds n c') :=
  inferInstanceAs (Decidable (_ ∧ _))

/-- The locals that a statement adds to the block it is in. At the top level it adds none. -/
def localsOf (atTopLevel : Bool) : Stmt → Nat
  | .bind _ _ _ _ => if atTopLevel then 0 else 1
  | _ => 0

/-- A call that must leave locals, depth and registers in use as they are. -/
def balanced (call : Checking Unit) : Checking Unit := do
  let before ← get
  call
  expect fun b => b.context = before.context

/-- A call that fills the register on top, and must leave that one more in use; the register. -/
def above (fill : Nat → Checking Unit) : Checking Nat := do
  let before ← get
  let reg ← unchecked takeReg
  fill reg
  expect fun b => reg = before.context.top ∧ b.context = before.context.take
  return reg

/-- The call for a statement, which must leave as many more registers in use as it adds locals. -/
def declaring (stmt : Stmt) (call : Checking Unit) : Checking Unit := do
  let before ← get
  call
  expect fun b => before.context.Adds (localsOf before.atTopLevel stmt) b.context

/-! ## Trees -/

/-- Ends a binding as `bindName` does. -/
def checkedName (name : String) (mutable : Bool) (reg : Nat) : Checking Unit := do
  if (← get).atTopLevel then
    let slot ← unchecked (newSlot name mutable)
    unchecked (emitABx .defGlobal reg slot)
    giveBack reg
  else unchecked (updateBody fun f => f.declare name reg mutable)

/-- Returns the value that is computed into the register on top. -/
def checkedReturn (fill : Nat → Checking Unit) (pos : Position) : Checking Unit := do
  if (← get).waiting.isNone then unchecked (throw (.returnOutsideFunction pos))
  let reg ← above fill
  unchecked (emitABC .ret reg 0 0)
  giveBack reg

/-- Chooses between two parts by a test, each of which does its own checks. -/
def checkedChoice (test : Nat → Checking Unit) (first second : Checking Unit) : Checking Unit := do
  let reg ← above test
  let toSecond ← unchecked (jumpAhead .jumpIfFalse reg)
  giveBack reg
  first
  let toEnd ← unchecked (jumpAhead .jump 0)
  unchecked (aimJump toSecond)
  second
  unchecked (aimJump toEnd)

mutual

/-- Compiles an expression as `compileInto` does. -/
def checkedInto : Expr → (target : Nat) → Checking Unit
  | .number digits pos, target => balanced (unchecked (compileInto (.number digits pos) target))
  | .text raw pos, target => balanced (unchecked (compileInto (.text raw pos) target))
  | .bool value pos, target => balanced (unchecked (compileInto (.bool value pos) target))
  | .nil pos, target => balanced (unchecked (compileInto (.nil pos) target))
  | .name ident pos, target => balanced (unchecked (compileInto (.name ident pos) target))
  | .binary op lhs rhs _, target => balanced do
    checkedInto lhs target
    match operatorCode? op with
    | some code =>
      let right ← above (checkedInto rhs)
      unchecked (emitABC code target target right)
      giveBack right
    | none =>
      let skip ← unchecked (jumpAhead (skipCode op) target)
      checkedInto rhs target
      unchecked (aimJump skip)
  | .unary op operand _, target => balanced do
    checkedInto operand target
    unchecked (emitABC (unaryCode op) target target 0)
  | .call callee args _, target => balanced do
    if args.length > maxArguments then unchecked (throw .tooManyArguments)
    let func ← above (checkedInto callee)
    let regs ← checkedArgs args
    unchecked (emitABC .call target func args.length)
    giveBackAll regs.reverse
    giveBack func
  | .cond test body otherwise _, target =>
    balanced (checkedChoice (checkedInto test) (checkedBlock body target)
      (checkedElse otherwise target))
  | .block body, target => balanced (checkedBlock body target)

/-- Compiles arguments as `compileArgs` does; the register of each. -/
def checkedArgs : List Expr → Checking (List Nat)
  | [] => return []
  | arg :: rest => do
    let reg ← above (checkedInto arg)
    let regs ← checkedArgs rest
    return reg :: regs

/-- Compiles an alternative as `compileElse` does. -/
def checkedElse : Else → (target : Nat) → Checking Unit
  | .absent, target => unchecked (emitABx .loadNil target 0)
  | .block body, target => checkedBlock body target
  | .elseIf test body otherwise _, target =>
    balanced (checkedChoice (checkedInto test) (checkedBlock body target)
      (checkedElse otherwise target))

/-- Compiles a block as `compileBlock` does. -/
def checkedBlock : Block → (target : Nat) → Checking Unit
  | .mk stmts _, target => balanced do
    unchecked (updateBody Body.beginScope)
    checkedTail stmts target
    closeScope

/-- Compiles the statements of a block as `compileTail` does. -/
def checkedTail : List Stmt → (target : Nat) → Checking Unit
  | [], target => unchecked (emitABx .loadNil target 0)
  | [.expr e], target => checkedInto e target
  | [stmt], target => do
    checkedStmt stmt
    unchecked (emitABx .loadNil target 0)
  | stmt :: rest, target => do
    checkedStmt stmt
    checkedTail rest target

/-- Compiles a statement as `compileStmt` does. -/
def checkedStmt : Stmt → Checking Unit
  | .bind mutable name value pos => declaring (.bind mutable name value pos) do
    let reg ← above (checkedInto value)
    checkedName name mutable reg
  | .assign (.name ident p) value pos => declaring (.assign (.name ident p) value pos) do
    let dest ← unchecked (destination ident pos)
    let reg ← above (checkedInto value)
    match dest with
    | .register r => unchecked (emitABC .move r reg 0)
    | .slot s => unchecked (emitABx .setGlobal reg s)
    giveBack reg
  | .assign target value pos => declaring (.assign target value pos) do
    unchecked (throw (.immutable "<expression>" pos))
  | .func name params body pos => declaring (.func name params body pos) do
    if !(← get).atTopLevel then unchecked (throw (.nestedFunction name pos))
    if params.length > maxArguments then unchecked (throw .tooManyArguments)
    let slot ← unchecked (newSlot name false)
    unchecked (enterFunction name params.length)
    unchecked (updateBody Body.beginScope)
    unchecked (declareParams 0 [] params)
    let result ← unchecked takeReg
    checkedBlock body result
    unchecked (emitABC .ret result 0 0)
    let index ← unchecked leaveFunction
    let k ← unchecked (constantIndex (.fn (UInt32.ofNat index)))
    let reg ← unchecked takeReg
    unchecked (emitABx .loadConst reg k)
    unchecked (emitABx .defGlobal reg slot)
    giveBack reg
  | .retNil pos => declaring (.retNil pos) do
    checkedReturn (fun reg => unchecked (emitABx .loadNil reg 0)) pos
  | .ret value pos => declaring (.ret value pos) do
    checkedReturn (checkedInto value) pos
  | .loop test body pos => declaring (.loop test body pos) do
    let start ← unchecked here
    let reg ← above (checkedInto test)
    let toEnd ← unchecked (jumpAhead .jumpIfFalse reg)
    giveBack reg
    let scratch ← unchecked takeReg
    checkedBlock body scratch
    giveBack scratch
    unchecked (updateBody? fun f => f.jumpBack start)
    unchecked (aimJump toEnd)
  | .expr e => declaring (.expr e) do
    if (← get).atTopLevel then checkedInto e resultReg
    else
      let reg ← above (checkedInto e)
      giveBack reg

end

/-- Compiles statements as `compileStmts` does. -/
def checkedStmts : List Stmt → Checking Unit
  | [] => return
  | stmt :: rest => do
    checkedStmt stmt
    checkedStmts rest

/-- Compiles the main body as `compileMain` does. -/
def checkedMain (f : Fragment) : Checking Unit := do
  let result ← unchecked takeReg
  unchecked (emitABx .loadNil result 0)
  checkedStmts f
  unchecked (emitABC .ret result 0 0)

end ScriptMachine.Compile
