import ScriptMachine.Source.Tree
import ScriptMachine.Source.Lexing

/-!
# Parsing

Statements are read in turn, each with an optional semicolon after it. An expression is an operand
followed by operators that bind tighter than a given strength; operators of equal strength
associate to the left, and comparisons do not chain.

Every reader takes the lexemes ahead and hands back those it left. The depth given to the readers
is eight for each lexeme ahead, more than the calls that can be made before a lexeme is taken.
-/

namespace ScriptMachine.Source

/-- Why a reader stops: what it would have taken instead of the lexeme ahead (none at the end of
the text), or the two errors that name a cause of their own. -/
inductive Refusal
  | expected (what : Expected) (found : Option Lexeme)
  | chainedComparison (found : Lexeme)
  | invalidTarget (target : Position)
deriving DecidableEq, Repr

/-- The error that a refusal is reported as, in a text that ends at `stop`. -/
def Refusal.toSyntaxError (stop : Position) : Refusal → SyntaxError
  | .expected what found =>
    ⟨.expected what (found.map Lexeme.token), (found.map Lexeme.pos).getD stop⟩
  | .chainedComparison found => ⟨.chainedComparison, found.pos⟩
  | .invalidTarget target => ⟨.invalidTarget, target⟩

/-- What a reader hands back. -/
abbrev Parsed (α : Type) := Except Refusal (α × List Lexeme)

/-! ## Single lexemes -/

/-- Refuses the lexeme ahead. -/
def refuse {α : Type} (what : Expected) (ts : List Lexeme) : Parsed α :=
  .error (.expected what ts.head?)

/-- Takes the sign `s` and hands back its place. -/
def readSign (s : Sign) (ts : List Lexeme) : Parsed Position :=
  match ts with
  | ⟨.sign g, p⟩ :: r => if g = s then .ok (p, r) else refuse (.sign s) ts
  | _ => refuse (.sign s) ts

/-- Takes an identifier. -/
def readIdent (ts : List Lexeme) : Parsed String :=
  match ts with
  | ⟨.ident name, _⟩ :: r => .ok (name, r)
  | _ => refuse .identifier ts

/-- The lexemes after an optional sign. -/
def skipSign (s : Sign) (ts : List Lexeme) : List Lexeme :=
  match ts with
  | ⟨.sign g, _⟩ :: r => if g = s then r else ts
  | _ => ts

/-- The sign ahead. -/
def nextSign? (ts : List Lexeme) : Option Sign :=
  match ts with
  | ⟨.sign g, _⟩ :: _ => some g
  | _ => none

/-- The binary operator ahead. -/
def nextOperator? (ts : List Lexeme) : Option BinaryOp :=
  (nextSign? ts).bind BinaryOp.ofSign?

/-- The tokens that an expression may begin with. -/
def startsExpr : Token → Bool
  | .integer _ | .text _ | .ident _ => true
  | .keyword k => k == .kwTrue || k == .kwFalse || k == .kwNil || k == .kwIf
  | .sign s => s == .lparen || s == .lbrace || s == .minus || s == .not

/-- Names separated by commas up to and with `)`; a comma may end them. -/
def readParams (done : List String) : List Lexeme → Parsed (List String)
  | ⟨.sign .rparen, _⟩ :: r => .ok (done.reverse, r)
  | ⟨.ident name, _⟩ :: ⟨.sign .comma, _⟩ :: r => readParams (name :: done) r
  | ⟨.ident name, _⟩ :: r =>
    match readSign .rparen r with
    | .error e => .error e
    | .ok (_, r) => .ok ((name :: done).reverse, r)
  | ts => refuse .identifier ts

/-! ## Expressions and statements -/

/-- The operator ahead that may follow an operand: it binds tighter than `min`. -/
def tighterOperator? (min : Nat) (ts : List Lexeme) : Option BinaryOp :=
  (nextOperator? ts).filter fun op => min < op.strength

mutual

/-- An expression whose operators outside parentheses all bind tighter than `min`. -/
def readExpr : Nat → Nat → List Lexeme → Parsed Expr
  | 0, _, ts => refuse .expression ts
  | n + 1, min, ts =>
    match readOperand n ts with
    | .error e => .error e
    | .ok (lhs, r) => readOperators n min lhs r

/-- The calls and operators that follow the operand `lhs`. -/
def readOperators : Nat → Nat → Expr → List Lexeme → Parsed Expr
  | 0, _, _, ts => refuse .expression ts
  | n + 1, min, lhs, ts =>
    match nextSign? ts with
    | some .lparen =>
      match readArgs n [] ts.tail with
      | .error e => .error e
      | .ok (args, r) => readOperators n min (.call lhs args lhs.pos) r
    | _ =>
      match tighterOperator? min ts with
      | none => .ok (lhs, ts)
      | some op =>
        match readExpr n op.strength ts.tail with
        | .error e => .error e
        | .ok (rhs, r) =>
          match op.isComparison && (nextOperator? r).any BinaryOp.isComparison, r with
          | true, found :: _ => .error (.chainedComparison found)
          | _, _ => readOperators n min (.binary op lhs rhs lhs.pos) r

/-- An operand: a unary operator and its own operand, or an atom. -/
def readOperand : Nat → List Lexeme → Parsed Expr
  | 0, ts => refuse .expression ts
  | n + 1, ts =>
    match ts with
    | ⟨.sign g, p⟩ :: r =>
      match UnaryOp.ofSign? g with
      | some op =>
        match readExpr n UnaryOp.strength r with
        | .error e => .error e
        | .ok (operand, r) => .ok (.unary op operand p, r)
      | none => readAtom n ts
    | _ => readAtom n ts

/-- A literal, a name, a block, a conditional, or an expression in parentheses. -/
def readAtom : Nat → List Lexeme → Parsed Expr
  | 0, ts => refuse .expression ts
  | n + 1, ts =>
    match ts with
    | ⟨.integer digits, p⟩ :: r => .ok (.number digits p, r)
    | ⟨.text raw, p⟩ :: r => .ok (.text raw p, r)
    | ⟨.ident name, p⟩ :: r => .ok (.name name p, r)
    | ⟨.keyword .kwTrue, p⟩ :: r => .ok (.bool true p, r)
    | ⟨.keyword .kwFalse, p⟩ :: r => .ok (.bool false p, r)
    | ⟨.keyword .kwNil, p⟩ :: r => .ok (.nil p, r)
    | ⟨.keyword .kwIf, p⟩ :: r =>
      match readCond n r with
      | .error e => .error e
      | .ok ((test, body, otherwise), r) => .ok (.cond test body otherwise p, r)
    | ⟨.sign .lbrace, _⟩ :: _ =>
      match readBlock n ts with
      | .error e => .error e
      | .ok (body, r) => .ok (.block body, r)
    | ⟨.sign .lparen, _⟩ :: r =>
      match readExpr n 0 r with
      | .error e => .error e
      | .ok (inner, r) =>
        match readSign .rparen r with
        | .error e => .error e
        | .ok (_, r) => .ok (inner, r)
    | _ => refuse .expression ts

/-- Arguments separated by commas up to and with `)`, after those in `done`, which are in reverse;
a comma may end them. -/
def readArgs : Nat → List Expr → List Lexeme → Parsed (List Expr)
  | 0, _, ts => refuse .expression ts
  | n + 1, done, ts =>
    match nextSign? ts with
    | some .rparen => .ok (done.reverse, ts.tail)
    | _ =>
      match readExpr n 0 ts with
      | .error e => .error e
      | .ok (arg, r) =>
        match nextSign? r with
        | some .comma => readArgs n (arg :: done) r.tail
        | _ =>
          match readSign .rparen r with
          | .error e => .error e
          | .ok (_, r) => .ok ((arg :: done).reverse, r)

/-- The test, block and alternative of a conditional, after its `if`. -/
def readCond : Nat → List Lexeme → Parsed (Expr × Block × Else)
  | 0, ts => refuse .expression ts
  | n + 1, ts =>
    match readExpr n 0 ts with
    | .error e => .error e
    | .ok (test, r) =>
      match readBlock n r with
      | .error e => .error e
      | .ok (body, r) =>
        match r with
        | ⟨.keyword .kwElse, _⟩ :: ⟨.keyword .kwIf, p⟩ :: r =>
          match readCond n r with
          | .error e => .error e
          | .ok ((test', body', otherwise), r) =>
            .ok ((test, body, .elseIf test' body' otherwise p), r)
        | ⟨.keyword .kwElse, _⟩ :: r =>
          match readBlock n r with
          | .error e => .error e
          | .ok (alternative, r) => .ok ((test, body, .block alternative), r)
        | r => .ok ((test, body, .absent), r)

/-- A block. -/
def readBlock : Nat → List Lexeme → Parsed Block
  | 0, ts => refuse .expression ts
  | n + 1, ts =>
    match readSign .lbrace ts with
    | .error e => .error e
    | .ok (p, r) =>
      match readStmts n true [] r with
      | .error e => .error e
      | .ok (stmts, r) =>
        match readSign .rbrace r with
        | .error e => .error e
        | .ok (_, r) => .ok (.mk stmts p, r)

/-- Statements up to the end of the text or, inside a block, up to `}`, after those in `done`,
which are in reverse. -/
def readStmts : Nat → Bool → List Stmt → List Lexeme → Parsed (List Stmt)
  | 0, _, _, ts => refuse .expression ts
  | n + 1, inBlock, done, ts =>
    if ts.isEmpty || (inBlock && nextSign? ts == some .rbrace) then .ok (done.reverse, ts)
    else
      match readStmt n ts with
      | .error e => .error e
      | .ok (stmt, r) => readStmts n inBlock (stmt :: done) (skipSign .semicolon r)

/-- A statement. -/
def readStmt : Nat → List Lexeme → Parsed Stmt
  | 0, ts => refuse .expression ts
  | n + 1, ts =>
    match ts with
    | ⟨.keyword .kwLet, p⟩ :: r => readBinding n false p r
    | ⟨.keyword .kwMut, p⟩ :: r => readBinding n true p r
    | ⟨.keyword .kwFn, p⟩ :: r =>
      match readIdent r with
      | .error e => .error e
      | .ok (name, r) =>
        match readSign .lparen r with
        | .error e => .error e
        | .ok (_, r) =>
          match readParams [] r with
          | .error e => .error e
          | .ok (params, r) =>
            match readBlock n r with
            | .error e => .error e
            | .ok (body, r) => .ok (.func name params body p, r)
    | ⟨.keyword .kwReturn, p⟩ :: r =>
      if r.head?.any fun t => startsExpr t.token then
        match readExpr n 0 r with
        | .error e => .error e
        | .ok (value, r) => .ok (.ret value p, r)
      else .ok (.retNil p, r)
    | ⟨.keyword .kwWhile, p⟩ :: r =>
      match readExpr n 0 r with
      | .error e => .error e
      | .ok (test, r) =>
        match readBlock n r with
        | .error e => .error e
        | .ok (body, r) => .ok (.loop test body p, r)
    | _ =>
      match readExpr n 0 ts with
      | .error e => .error e
      | .ok (target, r) =>
        match nextSign? r, target with
        | some .assign, .name ident p =>
          match readExpr n 0 r.tail with
          | .error e => .error e
          | .ok (value, r) => .ok (.assign (.name ident p) value p, r)
        | some .assign, _ => .error (.invalidTarget target.pos)
        | _, _ => .ok (.expr target, r)

/-- The name and value of a binding whose keyword stands at `p`. -/
def readBinding : Nat → Bool → Position → List Lexeme → Parsed Stmt
  | 0, _, _, ts => refuse .expression ts
  | n + 1, mutable, p, ts =>
    match readIdent ts with
    | .error e => .error e
    | .ok (name, r) =>
      match readSign .assign r with
      | .error e => .error e
      | .ok (_, r) =>
        match readExpr n 0 r with
        | .error e => .error e
        | .ok (value, r) => .ok (.bind mutable name value p, r)

end

/-! ## Whole texts -/

/-- A depth that no reading of these lexemes exhausts. -/
def depthFor (ts : List Lexeme) : Nat :=
  8 * ts.length + 8

/-- All lexemes as statements. -/
def parseFragment (ts : List Lexeme) : Except Refusal Fragment :=
  (readStmts (depthFor ts) false [] ts).map Prod.fst

/-- All lexemes as one block. -/
def parseBlock (ts : List Lexeme) : Except Refusal Block :=
  match readBlock (depthFor ts) ts with
  | .error e => .error e
  | .ok (body, []) => .ok body
  | .ok (_, r) => .error (.expected .endOfFile r.head?)

/-- Reads a source text with a reader of all its lexemes. -/
def parseWith {α : Type} (read : List Lexeme → Except Refusal α) (source : String) :
    Except SyntaxError α :=
  match lex source with
  | .error e => .error e
  | .ok stream => (read stream.lexemes).mapError (Refusal.toSyntaxError stream.stop)

/-- The fragment that a source text holds. -/
def Fragment.parse (source : String) : Except SyntaxError Fragment :=
  parseWith parseFragment source

/-- The block that a source text holds. -/
def Block.parse (source : String) : Except SyntaxError Block :=
  parseWith parseBlock source

end ScriptMachine.Source
