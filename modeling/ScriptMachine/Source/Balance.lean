/-!
# Balance of delimiters

A text is complete when it closes at least as many parentheses and braces as it opens, and ends
neither in a string nor in a block comment. Delimiters in strings and comments do not count.
-/

namespace ScriptMachine.Source

/-- Where a scan stands: in code, in a string, in a line comment, or in a block comment whose last
character was or was not a star. -/
inductive Region
  | code
  | string
  | lineComment
  | blockComment (afterStar : Bool)
deriving DecidableEq, Repr

/-- Scans a text from a region on, with `depth` more opening than closing delimiters before it. -/
def balancedFrom : Region → (depth : Int) → List Char → Bool
  | .code, depth, [] => depth ≤ 0
  | .code, depth, '"' :: r => balancedFrom .string depth r
  | .code, depth, '/' :: '/' :: r => balancedFrom .lineComment depth r
  | .code, depth, '/' :: '*' :: r => balancedFrom (.blockComment false) depth r
  | .code, depth, '(' :: r => balancedFrom .code (depth + 1) r
  | .code, depth, '{' :: r => balancedFrom .code (depth + 1) r
  | .code, depth, ')' :: r => balancedFrom .code (depth - 1) r
  | .code, depth, '}' :: r => balancedFrom .code (depth - 1) r
  | .code, depth, _ :: r => balancedFrom .code depth r
  | .string, _, [] => false
  | .string, _, ['\\'] => false
  | .string, depth, '\\' :: _ :: r => balancedFrom .string depth r
  | .string, depth, '"' :: r => balancedFrom .code depth r
  | .string, depth, _ :: r => balancedFrom .string depth r
  | .lineComment, depth, [] => depth ≤ 0
  | .lineComment, depth, '\n' :: r => balancedFrom .code depth r
  | .lineComment, depth, _ :: r => balancedFrom .lineComment depth r
  | .blockComment _, _, [] => false
  | .blockComment true, depth, '/' :: r => balancedFrom .code depth r
  | .blockComment _, depth, c :: r => balancedFrom (.blockComment (c == '*')) depth r

/-- Whether a text is complete. -/
def isBalanced (s : List Char) : Bool :=
  balancedFrom .code 0 s

end ScriptMachine.Source
