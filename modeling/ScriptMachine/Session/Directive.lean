import ScriptMachine.Text.Blank

/-!
# Directives

A directive is a name and arguments, separated by blanks. An argument in double quotes may hold
blanks; there are no escapes.
-/

namespace ScriptMachine.Session

/-- What a session can be told to do. -/
inductive Directive
  | quit
  | use (file : String)
  | sections
  | libs
  | native (library symbol : String)
deriving DecidableEq, Repr

/-- Why a line is no directive. -/
inductive DirectiveError
  | unclosedString
  | unknown (name : String)
  | missing
deriving DecidableEq, Repr

/-- The wording of a cause. -/
def DirectiveError.message : DirectiveError → String
  | .unclosedString => "unterminated string in directive"
  | .unknown name => "unknown directive #" ++ name ++ " or wrong arguments"
  | .missing => "empty directive"

/-- Where a scan for words stands: between words, or in a word, whose characters are in reverse. -/
inductive WordState
  | between
  | plain (word : List Char)
  | quoted (word : List Char)
deriving DecidableEq, Repr

/-- The word with these characters, which are in reverse. -/
def closeWord (word : List Char) : String :=
  String.ofList word.reverse

/-- The words of a text, after those in `done`, which are in reverse. -/
def wordsFrom : WordState → (done : List String) → List Char → Except DirectiveError (List String)
  | .between, done, [] => .ok done.reverse
  | .between, done, c :: r =>
    if Text.isBlank c then wordsFrom .between done r
    else if c = '"' then wordsFrom (.quoted []) done r
    else wordsFrom (.plain [c]) done r
  | .plain word, done, [] => .ok (closeWord word :: done).reverse
  | .plain word, done, c :: r =>
    if Text.isBlank c then wordsFrom .between (closeWord word :: done) r
    else wordsFrom (.plain (c :: word)) done r
  | .quoted _, _, [] => .error .unclosedString
  | .quoted word, done, c :: r =>
    if c = '"' then wordsFrom .between (closeWord word :: done) r
    else wordsFrom (.quoted (c :: word)) done r

/-- The directive that words make. -/
def Directive.ofWords : List String → Except DirectiveError Directive
  | ["quit"] => .ok .quit
  | ["use", file] => .ok (.use file)
  | ["sections"] => .ok .sections
  | ["libs"] => .ok .libs
  | ["native", library, symbol] => .ok (.native library symbol)
  | name :: _ => .error (.unknown name)
  | [] => .error .missing

/-- The directive on a line; the signs before its name are left out. -/
def Directive.parse (line : List Char) : Except DirectiveError Directive :=
  match wordsFrom .between [] (line.dropWhile (· == '#')) with
  | .error e => .error e
  | .ok words => Directive.ofWords words

end ScriptMachine.Session
