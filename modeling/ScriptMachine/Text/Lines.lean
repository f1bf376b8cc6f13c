import ScriptMachine.Text.Blank

/-!
# Lines

A line ends at a newline, or at a carriage return and a newline; the last line need not end. A text
that ends in a newline has no empty line after it.
-/

namespace ScriptMachine.Text

/-- A line without its end. -/
abbrev Line := List Char

/-- The lines of a text whose first line begins with `line`, which is in reverse. -/
def linesFrom (line : List Char) : List Char → List Line
  | [] => if line.isEmpty then [] else [line.reverse]
  | '\n' :: r =>
    let whole := match line with
      | '\r' :: l => l.reverse
      | l => l.reverse
    whole :: linesFrom [] r
  | c :: r => linesFrom (c :: line) r

/-- The lines of a text. -/
def lines (s : List Char) : List Line :=
  linesFrom [] s

/-- The text with these lines, each ended by a newline. -/
def unlines (ls : List Line) : List Char :=
  ls.flatMap (· ++ ['\n'])

/-- Whether a line holds nothing but blanks. -/
def isBlankLine (l : Line) : Bool :=
  l.all isBlank

end ScriptMachine.Text
