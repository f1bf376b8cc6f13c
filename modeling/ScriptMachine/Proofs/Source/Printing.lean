import ScriptMachine.Source.Tree
import ScriptMachine.Source.Lexing

/-!
# Printing

A tree is written as the tokens that spell it, with parentheses only where the strengths of the
operators call for them, and a semicolon after each statement. The tokens are set apart by single
spaces. What can be printed are trees whose names, numbers and strings are tokens of the language,
and in which only names are assigned to.
-/

namespace ScriptMachine.Source

/-! ## Parentheses -/

/-- The operator of a binary operation. -/
def Expr.operator? : Expr → Option BinaryOp
  | .binary op _ _ _ => some op
  | _ => none

/-- Whether an expression is a unary or binary operation. -/
def Expr.isOperation : Expr → Bool
  | .unary _ _ _ | .binary _ _ _ _ => true
  | _ => false

/-- Whether an operation needs parentheses to be the left operand of `op`: it binds weaker, or both
are comparisons. -/
def BinaryOp.groupsLeft (op : BinaryOp) (lhs : Expr) : Bool :=
  lhs.operator?.any fun inner =>
    inner.strength < op.strength || inner.isComparison && op.isComparison

/-- Whether an operation needs parentheses to be the right operand of `op`: it binds no tighter. -/
def BinaryOp.groupsRight (op : BinaryOp) (rhs : Expr) : Bool :=
  rhs.operator?.any fun inner => inner.strength ≤ op.strength

/-- Tokens in parentheses, if these are needed. -/
def grouped (needed : Bool) (ts : List Token) : List Token :=
  if needed then .sign .lparen :: ts ++ [.sign .rparen] else ts

/-! ## Tokens -/

/-- Names with commas between them. -/
def paramTokens : List String → List Token
  | [] => []
  | [name] => [.ident name]
  | name :: rest => .ident name :: .sign .comma :: paramTokens rest

mutual

/-- The tokens of an expression. -/
def Expr.tokens : Expr → List Token
  | .number digits _ => [.integer digits]
  | .bool true _ => [.keyword .kwTrue]
  | .bool false _ => [.keyword .kwFalse]
  | .text raw _ => [.text raw]
  | .nil _ => [.keyword .kwNil]
  | .name ident _ => [.ident ident]
  | .binary op lhs rhs _ =>
    grouped (op.groupsLeft lhs) lhs.tokens ++
      .sign op.sign :: grouped (op.groupsRight rhs) rhs.tokens
  | .unary op operand _ => .sign op.sign :: grouped operand.operator?.isSome operand.tokens
  | .call callee args _ =>
    grouped callee.isOperation callee.tokens ++
      .sign .lparen :: (argTokens args ++ [.sign .rparen])
  | .cond test body otherwise _ =>
    .keyword .kwIf :: (test.tokens ++ (body.tokens ++ otherwise.tokens))
  | .block body => body.tokens

/-- The tokens of arguments, with commas between them. -/
def argTokens : List Expr → List Token
  | [] => []
  | [e] => e.tokens
  | e :: rest => e.tokens ++ .sign .comma :: argTokens rest

/-- The tokens of an alternative, if there is one. -/
def Else.tokens : Else → List Token
  | .absent => []
  | .block body => .keyword .kwElse :: body.tokens
  | .elseIf test body otherwise _ =>
    .keyword .kwElse :: .keyword .kwIf :: (test.tokens ++ (body.tokens ++ otherwise.tokens))

/-- The tokens of a statement, without the semicolon after it. -/
def Stmt.tokens : Stmt → List Token
  | .bind mutable name value _ =>
    .keyword (if mutable then .kwMut else .kwLet) :: .ident name :: .sign .assign :: value.tokens
  | .assign target value _ => target.tokens ++ .sign .assign :: value.tokens
  | .func name params body _ =>
    .keyword .kwFn :: .ident name :: .sign .lparen ::
      (paramTokens params ++ .sign .rparen :: body.tokens)
  | .retNil _ => [.keyword .kwReturn]
  | .ret value _ => .keyword .kwReturn :: value.tokens
  | .loop test body _ => .keyword .kwWhile :: (test.tokens ++ body.tokens)
  | .expr e => e.tokens

/-- The tokens of statements, with a semicolon after each. -/
def stmtTokens : List Stmt → List Token
  | [] => []
  | s :: rest => s.tokens ++ .sign .semicolon :: stmtTokens rest

/-- The tokens of a block. -/
def Block.tokens : Block → List Token
  | .mk stmts _ => .sign .lbrace :: (stmtTokens stmts ++ [.sign .rbrace])

end

/-! ## Texts -/

/-- The characters that spell a token. -/
def Token.spelled : Token → List Char
  | .text raw => '"' :: raw.toList ++ ['"']
  | t => t.content.toList

/-- Tokens as a text, with a space between one and the next. -/
def spell : List Token → List Char
  | [] => []
  | [t] => t.spelled
  | t :: rest => t.spelled ++ ' ' :: spell rest

/-- The text of a fragment. -/
def Fragment.print (f : Fragment) : String :=
  String.ofList (spell (stmtTokens f))

/-! ## Trees that can be printed -/

/-- Raw contents that can stand between quotes: each backslash begins an escape, and no quote stands
alone. -/
def isRaw : List Char → Bool
  | [] => true
  | '\\' :: c :: r => isEscapable c && isRaw r
  | c :: r => c != '\\' && c != '"' && isRaw r

/-- A name that is not reserved. -/
def isName (s : String) : Bool :=
  s.toList.head?.any isWordStart && s.toList.all isWordPart && (Keyword.ofWord? s).isNone

/-- A token that a text can hold: integers are digits, names are not reserved, and the contents of
strings are raw. -/
def Token.wellFormed : Token → Bool
  | .integer digits => !digits.toList.isEmpty && digits.toList.all isDigit
  | .text raw => isRaw raw.toList
  | .ident name => isName name
  | .keyword _ | .sign _ => true

mutual

/-- An expression of well-formed tokens, in which only names are assigned to. -/
def Expr.wellFormed : Expr → Bool
  | .number digits _ => (Token.integer digits).wellFormed
  | .text raw _ => (Token.text raw).wellFormed
  | .name ident _ => (Token.ident ident).wellFormed
  | .bool _ _ | .nil _ => true
  | .binary _ lhs rhs _ => lhs.wellFormed && rhs.wellFormed
  | .unary _ operand _ => operand.wellFormed
  | .call callee args _ => callee.wellFormed && allWellFormed args
  | .cond test body otherwise _ => test.wellFormed && body.wellFormed && otherwise.wellFormed
  | .block body => body.wellFormed

/-- Well-formed expressions. -/
def allWellFormed : List Expr → Bool
  | [] => true
  | e :: rest => e.wellFormed && allWellFormed rest

/-- A well-formed alternative. -/
def Else.wellFormed : Else → Bool
  | .absent => true
  | .block body => body.wellFormed
  | .elseIf test body otherwise _ => test.wellFormed && body.wellFormed && otherwise.wellFormed

/-- A well-formed statement. -/
def Stmt.wellFormed : Stmt → Bool
  | .bind _ name value _ => (Token.ident name).wellFormed && value.wellFormed
  | .assign (.name ident _) value _ => (Token.ident ident).wellFormed && value.wellFormed
  | .assign _ _ _ => false
  | .func name params body _ =>
    (Token.ident name).wellFormed && params.all (fun p => (Token.ident p).wellFormed) &&
      body.wellFormed
  | .retNil _ => true
  | .ret value _ => value.wellFormed
  | .loop test body _ => test.wellFormed && body.wellFormed
  | .expr e => e.wellFormed

/-- Well-formed statements. -/
def stmtsWellFormed : List Stmt → Bool
  | [] => true
  | s :: rest => s.wellFormed && stmtsWellFormed rest

/-- A well-formed block. -/
def Block.wellFormed : Block → Bool
  | .mk stmts _ => stmtsWellFormed stmts

end

/-! ## Trees without places -/

mutual

/-- An expression with every node at the start. -/
def Expr.unplaced : Expr → Expr
  | .number digits _ => .number digits .start
  | .bool value _ => .bool value .start
  | .text raw _ => .text raw .start
  | .nil _ => .nil .start
  | .name ident _ => .name ident .start
  | .binary op lhs rhs _ => .binary op lhs.unplaced rhs.unplaced .start
  | .unary op operand _ => .unary op operand.unplaced .start
  | .call callee args _ => .call callee.unplaced (unplacedArgs args) .start
  | .cond test body otherwise _ => .cond test.unplaced body.unplaced otherwise.unplaced .start
  | .block body => .block body.unplaced

/-- Expressions with every node at the start. -/
def unplacedArgs : List Expr → List Expr
  | [] => []
  | e :: rest => e.unplaced :: unplacedArgs rest

/-- An alternative with every node at the start. -/
def Else.unplaced : Else → Else
  | .absent => .absent
  | .block body => .block body.unplaced
  | .elseIf test body otherwise _ =>
    .elseIf test.unplaced body.unplaced otherwise.unplaced .start

/-- A statement with every node at the start. -/
def Stmt.unplaced : Stmt → Stmt
  | .bind mutable name value _ => .bind mutable name value.unplaced .start
  | .assign target value _ => .assign target.unplaced value.unplaced .start
  | .func name params body _ => .func name params body.unplaced .start
  | .retNil _ => .retNil .start
  | .ret value _ => .ret value.unplaced .start
  | .loop test body _ => .loop test.unplaced body.unplaced .start
  | .expr e => .expr e.unplaced

/-- Statements with every node at the start. -/
def unplacedStmts : List Stmt → List Stmt
  | [] => []
  | s :: rest => s.unplaced :: unplacedStmts rest

/-- A block with every node at the start. -/
def Block.unplaced : Block → Block
  | .mk stmts _ => .mk (unplacedStmts stmts) .start

end

end ScriptMachine.Source
