/-!
# Readers

A reader takes something from the start of a text and hands back the rest, or refuses the text.
-/

namespace ScriptMachine.Text

/-- Reads from the start of a text and hands back the rest. -/
abbrev Reader (α : Type) := List Char → Option (α × List Char)

/-- The leading digits of a text, of which there has to be one, and the rest. -/
def readDigits (s : List Char) : Option (List Char × List Char) :=
  match s.span Char.isDigit with
  | ([], _) => none
  | (digits, rest) => some (digits, rest)

end ScriptMachine.Text
