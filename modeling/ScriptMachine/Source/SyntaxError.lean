import ScriptMachine.Source.Token

/-!
# Syntax errors

Why a text is no fragment, and where.
-/

namespace ScriptMachine.Source

/-- What the grammar allowed at the place of an error. -/
inductive Expected
  | sign (s : Sign)
  | endOfFile
  | identifier
  | expression
deriving DecidableEq, Repr

/-- The causes of a syntax error; a missing `found` is the end of the text. -/
inductive SyntaxFault
  | unclosedComment
  | unclosedString
  | invalidEscape (c : Char)
  | unexpectedCharacter (c : Char)
  | expected (what : Expected) (found : Option Token)
  | invalidTarget
  | chainedComparison
deriving DecidableEq, Repr

/-- A cause and the place it is reported at. -/
structure SyntaxError where
  fault : SyntaxFault
  pos : Position
deriving DecidableEq, Repr

/-- How a message names what the grammar allowed. -/
def Expected.shown : Expected → String
  | .sign s => "`" ++ s.spelling ++ "`"
  | .endOfFile => "`end of file`"
  | .identifier => "identifier"
  | .expression => "expression"

/-- The wording of a cause. -/
def SyntaxFault.message : SyntaxFault → String
  | .unclosedComment => "unterminated block comment"
  | .unclosedString => "unterminated string literal"
  | .invalidEscape c => "invalid escape sequence `\\" ++ c.toString ++ "`"
  | .unexpectedCharacter c => "unexpected character `" ++ c.toString ++ "`"
  | .expected what found =>
    "expected " ++ what.shown ++ ", found `" ++ found.elim "end of file" Token.shown ++ "`"
  | .invalidTarget => "invalid assignment target"
  | .chainedComparison =>
    "comparison operators cannot be chained; use `&&` to combine: `a < b && b < c`"

/-- The cause with its place. -/
def SyntaxError.message (e : SyntaxError) : String :=
  s!"parse error at line {e.pos.line}, col {e.pos.col}: " ++ e.fault.message

end ScriptMachine.Source
