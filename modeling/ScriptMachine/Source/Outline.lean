import ScriptMachine.Source.Tree
import ScriptMachine.Text.JsonString

/-!
# Outlines of trees

A tree written on one line: each node in parentheses, its kind first, and its place after it.
-/

namespace ScriptMachine.Source

/-- A node with these parts. -/
def outlineNode (parts : List String) (p : Position) : String :=
  "(" ++ " ".intercalate parts ++ s!")@{p.line}:{p.col}"

/-- The kind of a binary node. -/
def BinaryOp.label : BinaryOp → String
  | .add => "Add"
  | .sub => "Sub"
  | .mul => "Mul"
  | .div => "Div"
  | .mod => "Mod"
  | .eq => "Eq"
  | .ne => "Neq"
  | .lt => "Lt"
  | .le => "Le"
  | .gt => "Gt"
  | .ge => "Ge"
  | .and => "And"
  | .or => "Or"

/-- The kind of a unary node. -/
def UnaryOp.label : UnaryOp → String
  | .neg => "Neg"
  | .not => "Not"

mutual

/-- The outline of an expression. -/
def Expr.outline : Expr → String
  | .number digits p => outlineNode ["num", digits] p
  | .bool true p => outlineNode ["bool", "true"] p
  | .bool false p => outlineNode ["bool", "false"] p
  | .text raw p => outlineNode ["str", Text.jsonString raw] p
  | .nil p => outlineNode ["nil"] p
  | .name ident p => outlineNode ["id", ident] p
  | .binary op lhs rhs p => outlineNode [op.label, lhs.outline, rhs.outline] p
  | .unary op operand p => outlineNode [op.label, operand.outline] p
  | .call callee args p => outlineNode ("call" :: callee.outline :: outlineExprs args) p
  | .cond test body otherwise p =>
    outlineNode ("if" :: test.outline :: body.outline :: otherwise.outline) p
  | .block body => body.outline

/-- The outlines of expressions. -/
def outlineExprs : List Expr → List String
  | [] => []
  | e :: rest => e.outline :: outlineExprs rest

/-- The outline of an alternative, if there is one. -/
def Else.outline : Else → List String
  | .absent => []
  | .block body => [body.outline]
  | .elseIf test body otherwise p =>
    [outlineNode ("if" :: test.outline :: body.outline :: otherwise.outline) p]

/-- The outline of a statement. -/
def Stmt.outline : Stmt → String
  | .bind mutable name value p =>
    outlineNode [if mutable then "mut" else "let", name, value.outline] p
  | .assign target value p => outlineNode ["assign", target.outline, value.outline] p
  | .func name params body p =>
    outlineNode ["fn", name, "[" ++ " ".intercalate params ++ "]", body.outline] p
  | .retNil p => outlineNode ["return"] p
  | .ret value p => outlineNode ["return", value.outline] p
  | .loop test body p => outlineNode ["while", test.outline, body.outline] p
  | .expr e => outlineNode ["expr", e.outline] e.pos

/-- The outlines of statements. -/
def outlineStmts : List Stmt → List String
  | [] => []
  | s :: rest => s.outline :: outlineStmts rest

/-- The outline of a block. -/
def Block.outline : Block → String
  | .mk stmts p => outlineNode ("block" :: outlineStmts stmts) p

end

end ScriptMachine.Source
