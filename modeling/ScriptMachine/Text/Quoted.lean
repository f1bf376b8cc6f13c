import ScriptMachine.Text.Hidden
import ScriptMachine.Text.Hex

/-!
# Quoted text

A text between double quotes, in which every character shows: quotes, backslashes and the common
controls have an escape of two characters, and any other hidden character is written by its code
point.
-/

namespace ScriptMachine.Text

/-- The letter that follows the backslash for a character with a short escape. -/
def shortEscape? : Char → Option Char
  | '"' => some '"'
  | '\\' => some '\\'
  | '\t' => some 't'
  | '\r' => some 'r'
  | '\n' => some 'n'
  | '\x00' => some '0'
  | _ => none

/-- A character as it stands between the quotes. -/
def quoteChar (c : Char) : List Char :=
  match shortEscape? c with
  | some e => ['\\', e]
  | none => if isHidden c then ['\\', 'u', '{'] ++ hex c.toNat ++ ['}'] else [c]

/-- A text in double quotes. -/
def quote (s : String) : String :=
  String.ofList ('"' :: s.toList.flatMap quoteChar ++ ['"'])

end ScriptMachine.Text
