import ScriptMachine.Source.SyntaxError

/-!
# Compile errors

Why a fragment has no compiled form.
-/

namespace ScriptMachine.Compile

open Source

/-- The causes: the text is no fragment, a rule on names is broken, a literal is out of range, or a
limit of the instruction format is passed. -/
inductive CompileError
  | source (e : SyntaxError)
  | unboundName (name : String) (pos : Position)
  | immutable (name : String) (pos : Position)
  | nestedFunction (name : String) (pos : Position)
  | returnOutsideFunction (pos : Position)
  | duplicateParameter (name : String)
  | invalidNumber (lexeme : String)
  | integerOutOfRange (lexeme : String)
  | registerOverflow
  | tooManyConstants
  | tooManyArguments
  | tooManyGlobals
  | jumpTooFar
deriving DecidableEq, Repr

/-- The wording of a cause. -/
def CompileError.message : CompileError → String
  | .source e => e.message
  | .unboundName name p => "unbound identifier `" ++ name ++ s!"` at line {p.line}, col {p.col}"
  | .immutable name p =>
    "cannot assign to immutable binding `" ++ name ++ s!"` at line {p.line}, col {p.col}"
  | .nestedFunction name p =>
    "function `" ++ name ++ s!"` must be declared at the top level (line {p.line}, col {p.col})"
  | .returnOutsideFunction p => s!"`return` outside of a function at line {p.line}, col {p.col}"
  | .duplicateParameter name => "duplicate parameter `" ++ name ++ "`"
  | .invalidNumber lexeme => "invalid integer literal `" ++ lexeme ++ "`"
  | .integerOutOfRange lexeme => "integer literal `" ++ lexeme ++ "` does not fit in 60 bits"
  | .registerOverflow => "expression needs more than 255 registers"
  | .tooManyConstants => "too many constants in one function"
  | .tooManyArguments => "too many arguments (max 254)"
  | .tooManyGlobals => "global slot space exhausted"
  | .jumpTooFar => "jump target out of range"

/-- The place that an error points at, if it points at one. -/
def CompileError.pos? : CompileError → Option Position
  | .source e => some e.pos
  | .unboundName _ p | .immutable _ p | .nestedFunction _ p | .returnOutsideFunction p => some p
  | _ => none

end ScriptMachine.Compile
