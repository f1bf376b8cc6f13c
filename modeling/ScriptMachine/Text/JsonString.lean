import ScriptMachine.Text.Hex

/-!
# Strings in JSON

A text between double quotes. Quotes, backslashes and control characters are escaped; all other
characters stand for themselves.
-/

namespace ScriptMachine.Text

/-- A character as it stands between the quotes. -/
def jsonChar (c : Char) : List Char :=
  if c = '"' then ['\\', '"']
  else if c = '\\' then ['\\', '\\']
  else if c = '\n' then ['\\', 'n']
  else if c = '\r' then ['\\', 'r']
  else if c = '\t' then ['\\', 't']
  else if c.toNat = 8 then ['\\', 'b']
  else if c.toNat = 12 then ['\\', 'f']
  else if c.toNat < 32 then ['\\', 'u'] ++ (hexPadded 4 c.toNat).toList
  else [c]

/-- A text as a JSON string. -/
def jsonString (s : String) : String :=
  String.ofList ('"' :: s.toList.flatMap jsonChar ++ ['"'])

end ScriptMachine.Text
