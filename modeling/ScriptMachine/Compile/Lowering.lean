import ScriptMachine.Source.Tree
import ScriptMachine.Source.StringLiteral
import ScriptMachine.Compile.Builder
import ScriptMachine.Compile.Literal

/-!
# From trees to code

An expression is compiled into a target register. What it needs beside the target it takes from the
top of the register stack and gives back before it ends; a local that a block declares keeps its
register until the block closes.
-/

namespace ScriptMachine.Compile

open Source Bytecode

/-- The register of the main body that holds the value of the fragment. -/
def resultReg : Nat :=
  0

/-- The most arguments of a call, and the most parameters of a function. -/
def maxArguments : Nat :=
  254

/-- The instruction of an operator that needs both operands; `&&` and `||` have none. -/
def operatorCode? : BinaryOp → Option Opcode
  | .add => some .add
  | .sub => some .sub
  | .mul => some .mul
  | .div => some .div
  | .mod => some .mod
  | .eq => some .eq
  | .ne => some .notEq
  | .lt => some .lt
  | .le => some .le
  | .gt => some .gt
  | .ge => some .ge
  | .and | .or => none

/-- The jump that skips the right operand when the left one decides. -/
def skipCode : BinaryOp → Opcode
  | .and => .jumpIfFalse
  | _ => .jumpIfTrue

/-- The instruction of a unary operator. -/
def unaryCode : UnaryOp → Opcode
  | .neg => .neg
  | .not => .logNot

/-- Loads a constant. -/
def loadConstant (k : Constant) (target : Nat) : Building Unit := do
  let index ← constantIndex k
  emitABx .loadConst target index

/-- Loads what a name stands for: a local, else a global, else a primitive. -/
def loadName (name : String) (pos : Position) (target : Nat) : Building Unit := do
  let b ← get
  match b.body.local? name with
  | some l => if l.reg = target then return else emitABC .move target l.reg 0
  | none =>
    match b.names.global? name with
    | some g =>
      let slot ← wideOperand g.slot
      emitABx .getGlobal target slot
    | none =>
      match b.names.primitive? name with
      | some index =>
        let index ← wideOperand index
        emitABx .getPrim target index
      | none => throw (.unboundName name pos)

/-- Adds the parameters of a function as locals. -/
def declareParams : (index : Nat) → (earlier : List String) → List String → Building Unit
  | _, _, [] => return
  | index, earlier, param :: rest => do
    if earlier.contains param then throw (.duplicateParameter param)
    updateBody fun f => f.declare param index false
    declareParams (index + 1) (param :: earlier) rest

/-- Ends a binding whose value is in `reg`, the topmost register. -/
def bindName (name : String) (mutable : Bool) (reg : Nat) : Building Unit := do
  if (← get).atTopLevel then
    let slot ← newSlot name mutable
    emitABx .defGlobal reg slot
    giveBackReg
  else updateBody fun f => f.declare name reg mutable

/-- What an assignment to a name writes to: a register or a global slot. -/
inductive Destination
  | register (reg : Nat)
  | slot (slot : Nat)
deriving DecidableEq, Repr

/-- Where an assignment to `name` goes. -/
def destination (name : String) (pos : Position) : Building Destination := do
  let b ← get
  match b.body.local? name with
  | some l => if l.mutable then return .register l.reg else throw (.immutable name pos)
  | none =>
    match b.names.global? name with
    | some g =>
      if g.mutable then return .slot (← wideOperand g.slot) else throw (.immutable name pos)
    | none =>
      if (b.names.primitive? name).isSome then throw (.immutable name pos)
      else throw (.unboundName name pos)

mutual

/-- Compiles an expression into `target`. -/
def compileInto : Expr → (target : Nat) → Building Unit
  | .number digits _, target => do
    let n ← literalValue digits
    loadConstant (.int (Int64.ofInt n)) target
  | .text raw _, target => do
    let index ← stringIndex (unescape raw)
    loadConstant (.str (UInt32.ofNat index)) target
  | .bool true _, target => emitABx .loadTrue target 0
  | .bool false _, target => emitABx .loadFalse target 0
  | .nil _, target => emitABx .loadNil target 0
  | .name ident pos, target => loadName ident pos target
  | .binary op lhs rhs _, target => do
    compileInto lhs target
    match operatorCode? op with
    | some code =>
      let right ← takeReg
      compileInto rhs right
      emitABC code target target right
      giveBackReg
    | none =>
      let skip ← jumpAhead (skipCode op) target
      compileInto rhs target
      aimJump skip
  | .unary op operand _, target => do
    compileInto operand target
    emitABC (unaryCode op) target target 0
  | .call callee args _, target => do
    if args.length > maxArguments then throw .tooManyArguments
    let func ← takeReg
    compileInto callee func
    compileArgs args
    emitABC .call target func args.length
    giveBackRegs args.length
    giveBackReg
  | .cond test body otherwise _, target => do
    let reg ← takeReg
    compileInto test reg
    let toElse ← jumpAhead .jumpIfFalse reg
    giveBackReg
    compileBlock body target
    let toEnd ← jumpAhead .jump 0
    aimJump toElse
    compileElse otherwise target
    aimJump toEnd
  | .block body, target => compileBlock body target

/-- Compiles each argument into a register of its own, on top of the one before. -/
def compileArgs : List Expr → Building Unit
  | [] => return
  | arg :: rest => do
    let reg ← takeReg
    compileInto arg reg
    compileArgs rest

/-- Compiles the alternative of a conditional into `target`. -/
def compileElse : Else → (target : Nat) → Building Unit
  | .absent, target => emitABx .loadNil target 0
  | .block body, target => compileBlock body target
  | .elseIf test body otherwise _, target => do
    let reg ← takeReg
    compileInto test reg
    let toElse ← jumpAhead .jumpIfFalse reg
    giveBackReg
    compileBlock body target
    let toEnd ← jumpAhead .jump 0
    aimJump toElse
    compileElse otherwise target
    aimJump toEnd

/-- Compiles a block into `target`, in a scope of its own. -/
def compileBlock : Block → (target : Nat) → Building Unit
  | .mk stmts _, target => do
    updateBody Body.beginScope
    compileTail stmts target
    updateBody Body.endScope

/-- Compiles the statements of a block. The value of the last one goes to `target`; it is nil unless
that is an expression. -/
def compileTail : List Stmt → (target : Nat) → Building Unit
  | [], target => emitABx .loadNil target 0
  | [.expr e], target => compileInto e target
  | [stmt], target => do
    compileStmt stmt
    emitABx .loadNil target 0
  | stmt :: rest, target => do
    compileStmt stmt
    compileTail rest target

/-- Compiles a statement. -/
def compileStmt : Stmt → Building Unit
  | .bind mutable name value _ => do
    let reg ← takeReg
    compileInto value reg
    bindName name mutable reg
  | .assign (.name ident _) value pos => do
    let dest ← destination ident pos
    let reg ← takeReg
    compileInto value reg
    match dest with
    | .register r => emitABC .move r reg 0
    | .slot s => emitABx .setGlobal reg s
    giveBackReg
  | .assign _ _ pos => throw (.immutable "<expression>" pos)
  | .func name params body pos => do
    if !(← get).atTopLevel then throw (.nestedFunction name pos)
    if params.length > maxArguments then throw .tooManyArguments
    let slot ← newSlot name false
    enterFunction name params.length
    updateBody Body.beginScope
    declareParams 0 [] params
    let result ← takeReg
    compileBlock body result
    emitABC .ret result 0 0
    let index ← leaveFunction
    let k ← constantIndex (.fn (UInt32.ofNat index))
    let reg ← takeReg
    emitABx .loadConst reg k
    emitABx .defGlobal reg slot
    giveBackReg
  | .retNil pos => do
    if (← get).waiting.isNone then throw (.returnOutsideFunction pos)
    let reg ← takeReg
    emitABx .loadNil reg 0
    emitABC .ret reg 0 0
    giveBackReg
  | .ret value pos => do
    if (← get).waiting.isNone then throw (.returnOutsideFunction pos)
    let reg ← takeReg
    compileInto value reg
    emitABC .ret reg 0 0
    giveBackReg
  | .loop test body _ => do
    let start ← here
    let reg ← takeReg
    compileInto test reg
    let toEnd ← jumpAhead .jumpIfFalse reg
    giveBackReg
    let scratch ← takeReg
    compileBlock body scratch
    giveBackReg
    updateBody? fun f => f.jumpBack start
    aimJump toEnd
  | .expr e => do
    if (← get).atTopLevel then compileInto e resultReg
    else
      let reg ← takeReg
      compileInto e reg
      giveBackReg

end

/-- Compiles the statements of a fragment. -/
def compileStmts : List Stmt → Building Unit
  | [] => return
  | stmt :: rest => do
    compileStmt stmt
    compileStmts rest

end ScriptMachine.Compile
