import ScriptMachine.Toml.Scalar
import ScriptMachine.Toml.Value

/-!
# TOML documents

The table that a text denotes, if the text is a document of TOML 1.0.
-/

namespace ScriptMachine.Toml

open Text

/-! ## Blanks and comments -/

/-- The text after the comment at its start, if there is one. -/
def skipComment : List Char → List Char
  | '#' :: r => r.dropWhile isPlain
  | r => r

/-- The text after its leading blanks, newlines and comments, of which there are at most `room`. -/
def skipGap : (room : Nat) → List Char → List Char
  | 0, s => s
  | room + 1, s =>
    match skipLines s with
    | '#' :: r => skipGap room (r.dropWhile isPlain)
    | r => r

/-- The text after the end of a line, which may hold a comment. -/
def skipLineEnd (s : List Char) : Option (List Char) :=
  match skipComment (skipSpace s) with
  | [] => some []
  | r => newline? r

/-! ## Keys -/

/-- The most names in a key, and the depth below which values nest. -/
def maxDepth : Nat :=
  80

/-- Whether a character may stand in a name without quotes. -/
def isBareChar (c : Char) : Bool :=
  c.isAlphanum || c = '-' || c = '_'

/-- A name, with or without quotes. -/
def readName (room : Nat) (s : List Char) : Option (String × List Char) :=
  match s.span isBareChar with
  | ([], _) => readLineString room s
  | (name, rest) => some (String.ofList name, rest)

/-- Names separated by dots, at most `count` of them; blanks may stand around each. -/
def readNames (room : Nat) : (count : Nat) → Reader (List String)
  | 0, _ => none
  | count + 1, s =>
    (readName room (skipSpace s)).bind fun (name, rest) =>
      match skipSpace rest with
      | '.' :: rest => (readNames room count rest).map fun (names, rest) => (name :: names, rest)
      | rest => some ([name], rest)

/-- A key: its path and its last name. -/
def readKey (room : Nat) (s : List Char) : Option ((List String × String) × List Char) :=
  (readNames room (maxDepth - 1) s).bind fun (names, rest) =>
    names.getLast?.map fun name => ((names.dropLast, name), rest)

/-- A key, an equals sign and a value. -/
def readAssignment (readItem : Reader Value) (room : Nat) (s : List Char) :
    Option ((List String × String × Value) × List Char) :=
  (readKey room s).bind fun ((path, name), rest) =>
    (skipChar '=' rest).bind fun rest =>
      (readItem (skipSpace rest)).map fun (v, rest) => ((path, name, v), rest)

/-! ## Values -/

/-- Whether a character may stand in a number, a boolean, a date or a time. -/
def isWordChar (c : Char) : Bool :=
  isBareChar c || c = '+' || c = '.' || c = ':'

/-- The value that a word denotes. -/
def wordValue? (word : List Char) : Option Value :=
  if word = ['t', 'r', 'u', 'e'] then some (.boolean true)
  else if word = ['f', 'a', 'l', 's', 'e'] then some (.boolean false)
  else
    match integer? word with
    | some n => some (.integer n)
    | none => if isFloat word then some .float else if isDateTime word then some .dateTime else none

/-- A word with its value. A date and the digits after a space make one word. -/
def readWord (s : List Char) : Option (Value × List Char) :=
  let (word, rest) := s.span isWordChar
  match rest with
  | ' ' :: c :: r =>
    if skipDate word = some [] && c.isDigit then
      let (time, rest) := (c :: r).span isWordChar
      (wordValue? (word ++ ' ' :: time)).map (·, rest)
    else (wordValue? word).map (·, rest)
  | _ => (wordValue? word).map (·, rest)

/-- Items of a list up to its end, separated by commas, of which one may be the last. Those read so
far are in `done`, in reverse; there is room for `room` more. -/
def readItems (readItem : Reader Value) : (room : Nat) → (done : List Value) → Reader (List Value)
  | 0, _, _ => none
  | room + 1, done, s =>
    match skipGap (room + 1) s with
    | ']' :: rest => some (done.reverse, rest)
    | s =>
      (readItem s).bind fun (v, rest) =>
        match skipGap (room + 1) rest with
        | ',' :: rest => readItems readItem room (v :: done) rest
        | ']' :: rest => some ((v :: done).reverse, rest)
        | _ => none

/-- Assignments in braces up to their end, at least one, separated by commas; `fields` are those
read so far. -/
def readFields (readItem : Reader Value) : (room : Nat) → Fields → Reader Fields
  | 0, _, _ => none
  | room + 1, fields, s =>
    (readAssignment readItem room s).bind fun ((path, name, v), rest) =>
      (assign path name v fields).bind fun fields =>
        match skipSpace rest with
        | ',' :: rest => readFields readItem room fields rest
        | '}' :: rest => some (fields, rest)
        | _ => none

/-- A table in braces, after the opening brace. -/
def readTable (readItem : Reader Value) (room : Nat) (s : List Char) :
    Option (Value × List Char) :=
  match skipSpace s with
  | '}' :: rest => some (.table .closed [], rest)
  | s => (readFields readItem room [] s).map fun (fields, rest) =>
    (.table .closed fields, rest)

/-- A value whose lists and tables nest less than `depth` deep, in a text of at most `room`
characters. -/
def readValue (room : Nat) : (depth : Nat) → Reader Value
  | _, '"' :: r => (readString room ('"' :: r)).map fun (s, rest) => (.string s, rest)
  | _, '\'' :: r => (readString room ('\'' :: r)).map fun (s, rest) => (.string s, rest)
  | depth + 2, '[' :: r =>
    (readItems (readValue room (depth + 1)) room [] r).map fun (items, rest) => (.list items, rest)
  | depth + 2, '{' :: r => readTable (readValue room (depth + 1)) room r
  | _, s => readWord s

/-! ## Documents -/

/-- A document as far as it has been read: its table, and the path of the table that assignments go
to. -/
structure Progress where
  root : Fields
  current : List String

/-- Goes on after a header; `brackets` is the number of brackets on either side. -/
def readHeader (p : Progress) (brackets : Nat) (define : String → Form → Fields → Option Fields)
    (room : Nat) (s : List Char) : Option (Progress × List Char) :=
  (readKey room s).bind fun ((path, name), rest) =>
    if rest.take brackets = List.replicate brackets ']' then
      (alter false (define name) path .header p.root).map fun root =>
        (⟨root, path ++ [name]⟩, rest.drop brackets)
    else none

/-- Goes on after an assignment. -/
def readEntry (p : Progress) (room : Nat) (s : List Char) : Option (Progress × List Char) :=
  (readAssignment (readValue room maxDepth) room s).bind fun ((path, name, v), rest) =>
    (alter false (fun _ fields => assign path name v fields) p.current .header p.root).map
      fun root => ({ p with root }, rest)

/-- Goes on after what a line holds, in a text of at most `room` characters. -/
def readLine (p : Progress) (room : Nat) (s : List Char) : Option (Progress × List Char) :=
  match s with
  | [] => some (p, [])
  | '\n' :: _ | '\r' :: _ | '#' :: _ => some (p, s)
  | '[' :: '[' :: r => readHeader p 2 appendTable room r
  | '[' :: r => readHeader p 1 defineTable room r
  | s => readEntry p room s

/-- Reads lines to the end of a text of fewer than `room` characters. Each line has one at least, so
the room left is enough for the text that is left. -/
def readLines : (room : Nat) → Progress → List Char → Option Fields
  | 0, _, _ => none
  | room + 1, p, s =>
    (readLine p room (skipSpace s)).bind fun (p, rest) =>
      (skipLineEnd rest).bind fun rest =>
        if rest.isEmpty then some p.root else readLines room p rest

/-- The text without a byte order mark in front. -/
def skipMark : List Char → List Char
  | '\uFEFF' :: r => r
  | r => r

/-- The table that a text denotes. -/
def parse? (text : String) : Option Fields :=
  let s := skipMark text.toList
  readLines (s.length + 1) ⟨[], []⟩ s

end ScriptMachine.Toml
