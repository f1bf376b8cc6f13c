/-!
# String literals

A literal is kept raw, as it stands between its quotes. Its value replaces each escape by the
character that it names.
-/

namespace ScriptMachine.Source

/-- The characters that may follow a backslash. -/
def isEscapable (c : Char) : Bool :=
  c == '"' || c == '\\' || c == 'n' || c == 'r' || c == 't' || c == '0'

/-- The value of raw contents, put after `done` in reverse; a backslash that starts no escape
stands for itself. -/
def unescapeOnto (done : List Char) : List Char → List Char
  | [] => done.reverse
  | '\\' :: 'n' :: r => unescapeOnto ('\n' :: done) r
  | '\\' :: 'r' :: r => unescapeOnto ('\r' :: done) r
  | '\\' :: 't' :: r => unescapeOnto ('\t' :: done) r
  | '\\' :: '0' :: r => unescapeOnto ('\x00' :: done) r
  | '\\' :: '"' :: r => unescapeOnto ('"' :: done) r
  | '\\' :: '\\' :: r => unescapeOnto ('\\' :: done) r
  | '\\' :: c :: r => unescapeOnto (c :: '\\' :: done) r
  | c :: r => unescapeOnto (c :: done) r

/-- The value of a string literal with these raw contents. -/
def unescape (raw : String) : String :=
  String.ofList (unescapeOnto [] raw.toList)

end ScriptMachine.Source
