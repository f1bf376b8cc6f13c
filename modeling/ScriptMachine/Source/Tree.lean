import ScriptMachine.Source.Token

/-!
# Syntax trees

The expressions, statements and blocks of the language. A node holds the place of the first token
that it was read from.
-/

namespace ScriptMachine.Source

/-- The operators between two operands. -/
inductive BinaryOp
  | add
  | sub
  | mul
  | div
  | mod
  | eq
  | ne
  | lt
  | le
  | gt
  | ge
  | and
  | or
deriving DecidableEq, Repr

/-- The operators before one operand. -/
inductive UnaryOp
  | neg
  | not
deriving DecidableEq, Repr

mutual

/-- An expression; `cond` chooses between blocks and `block` runs statements. -/
inductive Expr
  | number (digits : String) (pos : Position)
  | bool (value : Bool) (pos : Position)
  | text (raw : String) (pos : Position)
  | nil (pos : Position)
  | name (ident : String) (pos : Position)
  | binary (op : BinaryOp) (lhs rhs : Expr) (pos : Position)
  | unary (op : UnaryOp) (operand : Expr) (pos : Position)
  | call (callee : Expr) (args : List Expr) (pos : Position)
  | cond (test : Expr) (body : Block) (otherwise : Else) (pos : Position)
  | block (body : Block)

/-- What follows the first block of a conditional. -/
inductive Else
  | absent
  | block (body : Block)
  | elseIf (test : Expr) (body : Block) (otherwise : Else) (pos : Position)

/-- A statement; `bind` defines a name that may (`mut`) or may not (`let`) be assigned to. -/
inductive Stmt
  | bind (mutable : Bool) (name : String) (value : Expr) (pos : Position)
  | assign (target value : Expr) (pos : Position)
  | func (name : String) (params : List String) (body : Block) (pos : Position)
  | retNil (pos : Position)
  | ret (value : Expr) (pos : Position)
  | loop (test : Expr) (body : Block) (pos : Position)
  | expr (e : Expr)

/-- Statements between braces. -/
inductive Block
  | mk (stmts : List Stmt) (pos : Position)

end

/-- A fragment: the statements of one source text. -/
abbrev Fragment := List Stmt

/-- The statements of a block. -/
def Block.stmts : Block → List Stmt
  | .mk stmts _ => stmts

/-- The place of a block's opening brace. -/
def Block.pos : Block → Position
  | .mk _ pos => pos

/-- The place of an expression's first token. -/
def Expr.pos : Expr → Position
  | .number _ p => p
  | .bool _ p => p
  | .text _ p => p
  | .nil p => p
  | .name _ p => p
  | .binary _ _ _ p => p
  | .unary _ _ p => p
  | .call _ _ p => p
  | .cond _ _ _ p => p
  | .block body => body.pos

/-- The place of a statement's first token. -/
def Stmt.pos : Stmt → Position
  | .bind _ _ _ p => p
  | .assign _ _ p => p
  | .func _ _ _ p => p
  | .retNil p => p
  | .ret _ p => p
  | .loop _ _ p => p
  | .expr e => e.pos

/-! ## Operators and their signs -/

/-- The sign of a binary operator. -/
def BinaryOp.sign : BinaryOp → Sign
  | .add => .plus
  | .sub => .minus
  | .mul => .star
  | .div => .slash
  | .mod => .percent
  | .eq => .eq
  | .ne => .ne
  | .lt => .lt
  | .le => .le
  | .gt => .gt
  | .ge => .ge
  | .and => .and
  | .or => .or

/-- The binary operator that a sign stands for. -/
def BinaryOp.ofSign? : Sign → Option BinaryOp
  | .plus => some .add
  | .minus => some .sub
  | .star => some .mul
  | .slash => some .div
  | .percent => some .mod
  | .eq => some .eq
  | .ne => some .ne
  | .lt => some .lt
  | .le => some .le
  | .gt => some .gt
  | .ge => some .ge
  | .and => some .and
  | .or => some .or
  | _ => none

/-- How tightly a binary operator binds: `||` 1, `&&` 2, comparisons 3, sums 4, products 5. -/
def BinaryOp.strength : BinaryOp → Nat
  | .or => 1
  | .and => 2
  | .eq | .ne | .lt | .le | .gt | .ge => 3
  | .add | .sub => 4
  | .mul | .div | .mod => 5

/-- How tightly a unary operator binds: tighter than any binary one. -/
def UnaryOp.strength : Nat :=
  6

/-- The comparisons, which do not chain. -/
def BinaryOp.isComparison (op : BinaryOp) : Bool :=
  op.strength == 3

/-- The sign of a unary operator. -/
def UnaryOp.sign : UnaryOp → Sign
  | .neg => .minus
  | .not => .not

/-- The unary operator that a sign stands for. -/
def UnaryOp.ofSign? : Sign → Option UnaryOp
  | .minus => some .neg
  | .not => some .not
  | _ => none

/-- The sign of a binary operator is read as it. -/
@[simp] theorem BinaryOp.ofSign?_sign (op : BinaryOp) : BinaryOp.ofSign? op.sign = some op := by
  cases op <;> rfl

/-- The sign of a unary operator is read as it. -/
@[simp] theorem UnaryOp.ofSign?_sign (op : UnaryOp) : UnaryOp.ofSign? op.sign = some op := by
  cases op <;> rfl

/-- Every binary operator binds weaker than the unary ones. -/
theorem BinaryOp.strength_lt (op : BinaryOp) : op.strength < UnaryOp.strength := by
  cases op <;> decide

end ScriptMachine.Source
