import ScriptMachine.Proofs.Evaluation.Datum

/-!
# Evaluation

The meaning of a syntax tree, given by running over it from left to right. Fuel bounds the depth of
calls and the rounds of each loop, and nothing else; a tree whose evaluation ends with some fuel is
not asked for more.
-/

namespace ScriptMachine.Evaluation

open Source Bytecode Compile

/-- What an evaluation changes: the locals, newest first, the value that each global slot holds, and
the output. -/
structure Store where
  locals : List (String × Datum)
  globals : Nat → Option Datum
  sink : Sink

/-- Why an evaluation does not come to its end: a function returns, a fault stops it, the fuel is
used up, or the tree has no meaning. -/
inductive Stop
  | returned (d : Datum)
  | fault (e : Fault)
  | timeout
  | stuck

/-- An evaluation. -/
abbrev Eval (α : Type) := EStateM Stop Store α

namespace Store

/-- The store with a value in a global slot. -/
def setGlobal (s : Store) (slot : Nat) (d : Datum) : Store :=
  { s with globals := fun i => if i = slot then some d else s.globals i }

/-- The store with a new local. -/
def declare (s : Store) (name : String) (d : Datum) : Store :=
  { s with locals := (name, d) :: s.locals }

/-- The store with the newest local of this name changed. -/
def setLocal (s : Store) (name : String) (d : Datum) : Store :=
  { s with locals := assign name d s.locals }

/-- The store with the oldest `n` locals only. -/
def keepLocals (s : Store) (n : Nat) : Store :=
  { s with locals := s.locals.drop (s.locals.length - n) }

end Store

/-! ## Names -/

/-- What a name stands for: the innermost local, else the newest global, else a primitive. -/
def fetch (names : Names) (name : String) : Eval Datum := fun s =>
  match s.locals.lookup name with
  | some d => .ok d s
  | none =>
    match names.global? name with
    | some g =>
      match s.globals g.slot with
      | some d => .ok d s
      | none => .error .stuck s
    | none =>
      match names.primitive? name with
      | some index => .ok (.primitive index) s
      | none => .error .stuck s

/-- Assigns to what a name stands for. -/
def reassign (names : Names) (name : String) (d : Datum) : Eval Unit := fun s =>
  if (s.locals.lookup name).isSome then .ok () (s.setLocal name d)
  else
    match names.global? name with
    | some g => .ok () (s.setGlobal g.slot d)
    | none => .error .stuck s

/-- Hands on a result or a fault. -/
def liftFault {α : Type} (r : Except Fault α) : Eval α := fun s =>
  match r with
  | .ok x => .ok x s
  | .error e => .error (.fault e) s

/-- Repeats a body as long as the test comes out true. -/
def iterate (test body : Eval Datum) : (fuel : Nat) → Eval Unit
  | 0 => throw .timeout
  | fuel + 1 => do
    let d ← test
    if d.isFalsey then return ()
    let _ ← body
    iterate test body fuel

/-- Runs a step in a scope of its own: its locals go when it is over. -/
def inScope (step : Eval Datum) : Eval Datum := fun s =>
  match step s with
  | .ok d t => .ok d (t.keepLocals s.locals.length)
  | .error e t => .error e t

/-! ## Trees -/

section

variable (call : Datum → List Datum → Eval Datum) (fuel : Nat) (names : Names)

mutual

/-- Evaluates an expression. -/
def evalExpr : Expr → Eval Datum
  | .number digits _ =>
    match literalValue digits with
    | .ok n => return .int n
    | .error _ => throw .stuck
  | .text raw _ => return .text (unescape raw)
  | .bool b _ => return .bool b
  | .nil _ => return .nil
  | .name ident _ => fetch names ident
  | .binary op lhs rhs _ => do
    let d ← evalExpr lhs
    match operatorCode? op with
    | some code =>
      let e ← evalExpr rhs
      liftFault (binary code d e)
    | none => if decides op d then return d else evalExpr rhs
  | .unary op operand _ => do
    let d ← evalExpr operand
    liftFault (unary op d)
  | .call callee args _ => do
    let f ← evalExpr callee
    let ds ← evalArgs args
    call f ds
  | .cond test body otherwise _ => do
    let d ← evalExpr test
    if d.isFalsey then evalElse otherwise else evalBlock body
  | .block body => evalBlock body

/-- Evaluates arguments from left to right. -/
def evalArgs : List Expr → Eval (List Datum)
  | [] => return []
  | arg :: rest => do
    let d ← evalExpr arg
    let ds ← evalArgs rest
    return d :: ds

/-- Evaluates the alternative of a conditional; a missing one yields nil. -/
def evalElse : Else → Eval Datum
  | .absent => return .nil
  | .block body => evalBlock body
  | .elseIf test body otherwise _ => do
    let d ← evalExpr test
    if d.isFalsey then evalElse otherwise else evalBlock body

/-- Evaluates a block in a scope of its own. -/
def evalBlock : Block → Eval Datum
  | .mk stmts _ => inScope (evalTail stmts)

/-- Evaluates the statements of a block; its value is that of an expression at its end, else nil. -/
def evalTail : List Stmt → Eval Datum
  | [] => return .nil
  | [.expr e] => evalExpr e
  | stmt :: rest => do
    evalStmt stmt
    evalTail rest

/-- Evaluates a statement. -/
def evalStmt : Stmt → Eval Unit
  | .bind _ name value _ => do
    let d ← evalExpr value
    modify fun s => s.declare name d
  | .assign (.name ident _) value _ => do
    let d ← evalExpr value
    reassign names ident d
  | .assign _ _ _ => throw .stuck
  | .func _ _ _ _ => throw .stuck
  | .retNil _ => throw (.returned .nil)
  | .ret value _ => do
    let d ← evalExpr value
    throw (.returned d)
  | .loop test body _ => iterate (evalExpr test) (evalBlock body) fuel
  | .expr e => do
    let _ ← evalExpr e

end

end

/-! ## Calls -/

/-- Evaluates a function's body; it sees its arguments and none of the caller's locals. -/
def enter (body : Eval Datum) (locals : List (String × Datum)) : Eval Datum := fun s =>
  match body { s with locals } with
  | .ok d t => .ok d { t with locals := s.locals }
  | .error (.returned d) t => .ok d { t with locals := s.locals }
  | .error e t => .error e t

/-- Runs a primitive. -/
def runRoutine (routine : EStateM Fault Sink Datum) : Eval Datum := fun s =>
  match routine s.sink with
  | .ok d sink => .ok d { s with sink }
  | .error e sink => .error (.fault e) { s with sink }

/-- Calls a datum; a function takes fuel. -/
def apply : (fuel : Nat) → Datum → List Datum → Eval Datum
  | _, .primitive index, args => runRoutine (callPrimitive index args)
  | fuel, .function f, args =>
    if f.params.length ≠ args.length then
      throw (.fault (.functionArity f.name f.params.length args.length))
    else
      match fuel with
      | 0 => throw .timeout
      | fuel + 1 =>
        enter (evalBlock (apply fuel) fuel f.names f.body) (f.params.zip args).reverse
  | _, d, _ => throw (.fault (.notCallable d.kind))

/-! ## Fragments -/

/-- Makes a definition: the value goes to the slot, and the rest sees the name. -/
def define (slot : Nat) (d : Datum) : Eval Unit :=
  modify fun s => s.setGlobal slot d

/-- Evaluates the statements of a fragment. Each definition gets the next free slot; the value of
the fragment is that of the last expression among its statements. -/
def evalTop (fuel : Nat) : Names → List Stmt → (value : Datum) → Eval Datum
  | _, [], value => return value
  | names, stmt :: rest, value =>
    match stmt with
    | .expr e => do
      let d ← evalExpr (apply fuel) fuel names e
      evalTop fuel names rest d
    | .bind mutable name e _ => do
      let d ← evalExpr (apply fuel) fuel names e
      define names.nextSlot d
      evalTop fuel (names.define ⟨name, names.nextSlot, mutable⟩) rest value
    | .func name params body _ => do
      let names' := names.define ⟨name, names.nextSlot, false⟩
      define names.nextSlot (.function ⟨name, params, body, names', names.nextSlot⟩)
      evalTop fuel names' rest value
    | stmt => do
      evalStmt (apply fuel) fuel names stmt
      evalTop fuel names rest value

/-- Evaluates a fragment. -/
def evaluate (fuel : Nat) (names : Names) (f : Fragment) : Eval Datum :=
  evalTop fuel names f .nil

end ScriptMachine.Evaluation
