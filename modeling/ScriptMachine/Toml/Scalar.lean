import ScriptMachine.Text.Digits
import ScriptMachine.Text.Hex
import ScriptMachine.Text.Reader

/-!
# Strings, numbers and dates in TOML

Strings have four forms: in double or single quotes, on one line or, with tripled quotes, on
several. Backslashes escape only in double quotes. Numbers, booleans, dates and times are words of
letters, digits and a few signs.
-/

namespace ScriptMachine.Toml

open Text

/-! ## Characters -/

/-- Whether a character may stand in a string or a comment: no control character but the tab. -/
def isPlain (c : Char) : Bool :=
  c = '\t' || (32 ≤ c.toNat && c.toNat ≠ 127)

/-- Whether a character is a space or a tab. -/
def isSpace (c : Char) : Bool :=
  c = ' ' || c = '\t'

/-- The text after its leading spaces and tabs. -/
def skipSpace (s : List Char) : List Char :=
  s.dropWhile isSpace

/-- The text after a newline, with or without a carriage return, if it begins with one. -/
def newline? : List Char → Option (List Char)
  | '\n' :: r => some r
  | '\r' :: '\n' :: r => some r
  | _ => none

/-- The text after its leading spaces, tabs and newlines. -/
def skipLines : List Char → List Char
  | ' ' :: r => skipLines r
  | '\t' :: r => skipLines r
  | '\n' :: r => skipLines r
  | '\r' :: '\n' :: r => skipLines r
  | r => r

/-! ## Strings -/

/-- The character with a number of `count` hexadecimal digits. -/
def scalarValue? (count : Nat) (digits : List Char) : Option Char :=
  let n := ofHex digits
  if digits.length = count && digits.all isHexDigit && n.isValidChar then some (Char.ofNat n)
  else none

/-- The character that an escape denotes, after the backslash, and the rest. -/
def readEscape : Reader Char
  | 'b' :: r => some (Char.ofNat 8, r)
  | 't' :: r => some ('\t', r)
  | 'n' :: r => some ('\n', r)
  | 'f' :: r => some (Char.ofNat 12, r)
  | 'r' :: r => some ('\r', r)
  | '"' :: r => some ('"', r)
  | '\\' :: r => some ('\\', r)
  | 'u' :: r => (scalarValue? 4 (r.take 4)).map (·, r.drop 4)
  | 'U' :: r => (scalarValue? 8 (r.take 8)).map (·, r.drop 8)
  | _ => none

/-- How a string is delimited: the quote, and whether it is tripled. -/
structure Delimiter where
  quote : Char
  tripled : Bool
deriving DecidableEq, Repr

/-- The end of a string, if it is at the start of a text: the quotes that still belong to the
string, and the rest. Up to two quotes may stand before a tripled one. -/
def readEnd (d : Delimiter) (s : List Char) : Option (List Char × List Char) :=
  let quotes := (s.takeWhile (· == d.quote)).length
  if d.tripled then
    if quotes < 3 then none
    else
      let own := min (quotes - 3) 2
      some (List.replicate own d.quote, s.drop (own + 3))
  else if quotes = 0 then none
  else some ([], s.drop 1)

/-- The characters that a backslash and what follows it stand for, after the backslash, and the
rest. In a string of several lines a backslash at the end of a line joins it to the next text. -/
def readBackslash (d : Delimiter) (s : List Char) : Option (List Char × List Char) :=
  match newline? (skipSpace s) with
  | some rest =>
    if d.tripled then some ([], skipLines rest)
    else (readEscape s).map fun (c, rest) => ([c], rest)
  | none => (readEscape s).map fun (c, rest) => ([c], rest)

/-- The next characters of a string, and the rest. -/
def readPiece (d : Delimiter) (s : List Char) : Option (List Char × List Char) :=
  match newline? s with
  | some rest => if d.tripled then some (['\n'], rest) else none
  | none =>
    match s with
    | [] => none
    | c :: r =>
      if c = '\\' && d.quote = '"' then readBackslash d r
      else if isPlain c then some ([c], r)
      else none

/-- A string up to its end. What has been read is in `done`, in reverse; there is room for `room`
more pieces. -/
def readPieces (d : Delimiter) : (room : Nat) → (done : List Char) → Reader String
  | 0, _, _ => none
  | room + 1, done, s =>
    match readEnd d s with
    | some (own, rest) => some (String.ofList (done.reverse ++ own), rest)
    | none =>
      (readPiece d s).bind fun (piece, rest) => readPieces d room (piece.reverse ++ done) rest

/-- A string on one line, with room for `room` pieces. -/
def readLineString (room : Nat) : Reader String
  | '"' :: r => readPieces ⟨'"', false⟩ room [] r
  | '\'' :: r => readPieces ⟨'\'', false⟩ room [] r
  | _ => none

/-- A string of several lines, after its opening quotes. A newline right after them does not
count. -/
def readBlockString (room : Nat) (quote : Char) (s : List Char) : Option (String × List Char) :=
  readPieces ⟨quote, true⟩ room [] ((newline? s).getD s)

/-- A string in any form. -/
def readString (room : Nat) : Reader String
  | '"' :: '"' :: '"' :: r => readBlockString room '"' r
  | '\'' :: '\'' :: '\'' :: r => readBlockString room '\'' r
  | s => readLineString room s

/-! ## Numbers -/

/-- Digits without their underscores, each of which has to stand between two digits. -/
def groupedDigits? (isDigit : Char → Bool) : List Char → Option (List Char)
  | [] => none
  | [c] => if isDigit c then some [c] else none
  | c :: '_' :: r =>
    if isDigit c then (groupedDigits? isDigit r).map (c :: ·) else none
  | c :: r => if isDigit c then (groupedDigits? isDigit r).map (c :: ·) else none

/-- The sign of a number, whether it is a minus, and the text after it. -/
def splitSign : List Char → Bool × List Char
  | '-' :: r => (true, r)
  | '+' :: r => (false, r)
  | r => (false, r)

/-- Digits of an integer, which does not begin with zero unless it is zero. -/
def wholeDigits? (s : List Char) : Option (List Char) :=
  match groupedDigits? Char.isDigit s with
  | some ('0' :: _ :: _) => none
  | digits => digits

/-- An integer, if it fits 64 bits. -/
def fitting? (n : Int) : Option Int :=
  if -0x8000000000000000 ≤ n && n < 0x8000000000000000 then some n else none

/-- The value of digits in a base. -/
def ofBase (base : Nat) (digits : List Char) : Nat :=
  digits.foldl (fun n c => base * n + hexDigitValue c) 0

/-- The integer in a base that digits denote. -/
def basedInteger? (base : Nat) (s : List Char) : Option Int :=
  (groupedDigits? (fun c => isHexDigit c && hexDigitValue c < base) s).bind fun digits =>
    fitting? (ofBase base digits)

/-- The integer that a word denotes. Only a decimal one has a sign. -/
def integer? : List Char → Option Int
  | '0' :: 'x' :: r => basedInteger? 16 r
  | '0' :: 'o' :: r => basedInteger? 8 r
  | '0' :: 'b' :: r => basedInteger? 2 r
  | s =>
    let (negative, r) := splitSign s
    (wholeDigits? r).bind fun digits =>
      fitting? (if negative then -(ofDigits digits : Int) else ofDigits digits)

/-- Whether `digits * 10 ^ exponent` is rounded to infinity as a double. -/
def overflows (digits : List Char) (exponent : Int) : Bool :=
  let n := ofDigits digits
  let magnitude := (Nat.toDigits 10 n).length + exponent
  if n = 0 || magnitude < 300 then false
  else if 320 < magnitude then true
  else
    (Nat.pow 2 1024 - Nat.pow 2 970) * Nat.pow 10 (-exponent).toNat ≤
      n * Nat.pow 10 exponent.toNat

/-- The digits of a fraction, none where there is no point. -/
def fraction? : List Char → Option (List Char)
  | [] => some []
  | '.' :: r => groupedDigits? Char.isDigit r
  | _ => none

/-- An exponent, zero where there is none. -/
def exponent? : List Char → Option Int
  | [] => some 0
  | _ :: r =>
    let (negative, r) := splitSign r
    (groupedDigits? Char.isDigit r).map fun digits =>
      if negative then -(ofDigits digits : Int) else ofDigits digits

/-- Whether a word is a float. One above zero has to be finite as a double. -/
def isFloat (s : List Char) : Bool :=
  let (negative, r) := splitSign s
  let (mantissa, power) := r.span fun c => c ≠ 'e' && c ≠ 'E'
  let (whole, fraction) := mantissa.span (· ≠ '.')
  if r = ['i', 'n', 'f'] || r = ['n', 'a', 'n'] then true
  else
    match wholeDigits? whole, fraction? fraction, exponent? power with
    | some w, some f, some e =>
      (!f.isEmpty || !power.isEmpty) && (negative || !overflows (w ++ f) (e - f.length))
    | _, _, _ => false

/-! ## Dates and times -/

/-- The number that exactly `count` digits denote, and the rest. -/
def readFixed (count : Nat) (s : List Char) : Option (Nat × List Char) :=
  let digits := s.take count
  if digits.length = count && digits.all Char.isDigit then some (ofDigits digits, s.drop count)
  else none

/-- The rest after a character. -/
def skipChar (c : Char) : List Char → Option (List Char)
  | d :: r => if d = c then some r else none
  | [] => none

/-- The days of a month. -/
def daysIn (year month : Nat) : Nat :=
  if month = 2 then
    if year % 4 = 0 && (year % 100 ≠ 0 || year % 400 = 0) then 29 else 28
  else if month = 4 || month = 6 || month = 9 || month = 11 then 30
  else 31

/-- The rest after a date. -/
def skipDate (s : List Char) : Option (List Char) := do
  let (year, s) ← readFixed 4 s
  let (month, s) ← readFixed 2 (← skipChar '-' s)
  let (day, s) ← readFixed 2 (← skipChar '-' s)
  if 1 ≤ month && month ≤ 12 && 1 ≤ day && day ≤ daysIn year month then some s else none

/-- The rest after hours and minutes. -/
def skipMinutes (s : List Char) : Option (List Char) := do
  let (hour, s) ← readFixed 2 s
  let (minute, s) ← readFixed 2 (← skipChar ':' s)
  if hour < 24 && minute < 60 then some s else none

/-- The rest after a time. Its last minute may have a leap second. -/
def skipTime (s : List Char) : Option (List Char) := do
  let (second, s) ← readFixed 2 (← skipChar ':' (← skipMinutes s))
  if second ≤ 60 then
    match s with
    | '.' :: r => (readDigits r).map Prod.snd
    | s => some s
  else none

/-- Whether a text is an offset from universal time, or nothing. -/
def isOffset : List Char → Bool
  | [] => true
  | c :: r =>
    if c = 'Z' || c = 'z' then r.isEmpty
    else if c = '+' || c = '-' then skipMinutes r = some []
    else false

/-- Whether a text is a time, perhaps with an offset. -/
def isTimeWithOffset (s : List Char) : Bool :=
  (skipTime s).any isOffset

/-- Whether a word is a date, a time, or a date and a time. -/
def isDateTime (s : List Char) : Bool :=
  match skipDate s with
  | none => skipTime s = some []
  | some [] => true
  | some (c :: r) => (c = 'T' || c = 't' || c = ' ') && isTimeWithOffset r

end ScriptMachine.Toml
