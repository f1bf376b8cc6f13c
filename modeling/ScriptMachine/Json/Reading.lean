import ScriptMachine.Json.Number
import ScriptMachine.Json.Value

/-!
# Reading JSON

The value that a text denotes, if it is one JSON value with nothing but blanks around it. Records
keep their fields in order, repeated names included.
-/

namespace ScriptMachine.Json

open Text

/-- The blanks that may stand between the parts of a value. -/
def isSpace (c : Char) : Bool :=
  c = ' ' || c = '\t' || c = '\n' || c = '\r'

/-- The text after its leading blanks. -/
def skipSpace (s : List Char) : List Char :=
  s.dropWhile isSpace

/-! ## Strings -/

/-- The character that a letter after a backslash stands for. -/
def escaped? : Char → Option Char
  | '"' => some '"'
  | '\\' => some '\\'
  | '/' => some '/'
  | 'b' => some (Char.ofNat 8)
  | 'f' => some (Char.ofNat 12)
  | 'n' => some '\n'
  | 'r' => some '\r'
  | 't' => some '\t'
  | _ => none

/-- The 16-bit unit that `u` and four hexadecimal digits denote, and the rest. -/
def readUnit : Reader Nat
  | 'u' :: a :: b :: c :: d :: r =>
    if [a, b, c, d].all isHexDigit then some (ofHex [a, b, c, d], r) else none
  | _ => none

/-- The character that one unit or a pair of units denotes, after the backslash, and the rest. -/
def readUnicode (s : List Char) : Option (Char × List Char) :=
  (readUnit s).bind fun (high, rest) =>
    if 0xDC00 ≤ high && high ≤ 0xDFFF then none
    else if 0xD800 ≤ high && high ≤ 0xDBFF then
      match rest with
      | '\\' :: rest =>
        (readUnit rest).bind fun (low, rest) =>
          if 0xDC00 ≤ low && low ≤ 0xDFFF then
            some (Char.ofNat (0x10000 + 0x400 * (high - 0xD800) + (low - 0xDC00)), rest)
          else none
      | _ => none
    else some (Char.ofNat high, rest)

/-- The character that an escape denotes, after the backslash, and the rest. -/
def readEscape (s : List Char) : Option (Char × List Char) :=
  match s with
  | 'u' :: _ => readUnicode s
  | c :: r => (escaped? c).map (·, r)
  | [] => none

/-- The string after its opening quote, and the rest. The characters read so far are in `done`, in
reverse; there is room for `room` more. -/
def readChars : (room : Nat) → (done : List Char) → Reader String
  | 0, _, _ => none
  | _ + 1, _, [] => none
  | _ + 1, done, '"' :: r => some (String.ofList done.reverse, r)
  | room + 1, done, '\\' :: r =>
    (readEscape r).bind fun (c, rest) => readChars room (c :: done) rest
  | room + 1, done, c :: r => if c.toNat < 32 then none else readChars room (c :: done) r

/-- The string at the start of a text of fewer than `room` characters, and the rest. -/
def readString (room : Nat) : Reader String
  | '"' :: r => readChars room [] r
  | _ => none

/-! ## Lists and records -/

/-- Items up to a closing sign, separated by commas, at least one. The items read so far are in
`done`, in reverse; there is room for `room` more. -/
def readItems {α : Type} (closing : Char) (readItem : Reader α) :
    (room : Nat) → (done : List α) → Reader (List α)
  | 0, _, _ => none
  | room + 1, done, s =>
    (readItem (skipSpace s)).bind fun (a, rest) =>
      match skipSpace rest with
      | [] => none
      | c :: rest =>
        if c = ',' then readItems closing readItem room (a :: done) rest
        else if c = closing then some ((a :: done).reverse, rest)
        else none

/-- Items after an opening sign, up to the closing sign; there is room for `room` of them. -/
def readSequence {α : Type} (closing : Char) (readItem : Reader α) (room : Nat) (s : List Char) :
    Option (List α × List Char) :=
  match skipSpace s with
  | [] => none
  | c :: rest =>
    if c = closing then some ([], rest) else readItems closing readItem room [] (c :: rest)

/-- A name, a colon and a value. -/
def readField {α : Type} (readItem : Reader α) (room : Nat) (s : List Char) :
    Option ((String × α) × List Char) :=
  (readString room s).bind fun (name, rest) =>
    match skipSpace rest with
    | ':' :: rest => (readItem (skipSpace rest)).map fun (a, rest) => ((name, a), rest)
    | _ => none

/-! ## Values -/

/-- A value whose lists and records nest less than `depth` deep, and the rest, in a text of fewer
than `room` characters. -/
def readValue (room : Nat) : (depth : Nat) → Reader Value
  | 0, _ => none
  | _ + 1, 'n' :: 'u' :: 'l' :: 'l' :: r => some (.null, r)
  | _ + 1, 't' :: 'r' :: 'u' :: 'e' :: r => some (.bool true, r)
  | _ + 1, 'f' :: 'a' :: 'l' :: 's' :: 'e' :: r => some (.bool false, r)
  | _ + 1, '"' :: r => (readString room ('"' :: r)).map fun (s, rest) => (.string s, rest)
  | depth + 2, '[' :: r =>
    (readSequence ']' (readValue room (depth + 1)) room r).map fun (items, rest) =>
      (.list items, rest)
  | depth + 2, '{' :: r =>
    (readSequence '}' (readField (readValue room (depth + 1)) room) room r).map
      fun (fields, rest) => (.record fields, rest)
  | _ + 1, s => (readNumber s).map fun (x, rest) => (.number x, rest)

/-- Lists and records nest less than this deep. -/
def maxDepth : Nat :=
  128

/-- The value that a text denotes. -/
def parse? (text : String) : Option Value :=
  let s := skipSpace text.toList
  match readValue (s.length + 1) maxDepth s with
  | some (v, rest) => if (skipSpace rest).isEmpty then some v else none
  | none => none

end ScriptMachine.Json
