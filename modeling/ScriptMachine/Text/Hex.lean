/-!
# Hexadecimal text

Numbers and bytes in base sixteen, with lower-case digits.
-/

namespace ScriptMachine.Text

/-- The digits of `n`. -/
def hex (n : Nat) : List Char :=
  Nat.toDigits 16 n

/-- The digits of `n`, with zeros in front up to `width`. -/
def hexPadded (width n : Nat) : String :=
  let digits := hex n
  String.ofList (List.replicate (width - digits.length) '0' ++ digits)

/-- Whether a character is a digit, of either case. -/
def isHexDigit (c : Char) : Bool :=
  c.isDigit || ('a' ≤ c && c ≤ 'f') || ('A' ≤ c && c ≤ 'F')

/-- The value of a digit; other characters count as zero. -/
def hexDigitValue (c : Char) : Nat :=
  if c.isDigit then c.toNat - '0'.toNat
  else if 'a' ≤ c && c ≤ 'f' then c.toNat - 'a'.toNat + 10
  else if 'A' ≤ c && c ≤ 'F' then c.toNat - 'A'.toNat + 10
  else 0

/-- The number that digits denote. -/
def ofHex (digits : List Char) : Nat :=
  digits.foldl (fun n c => 16 * n + hexDigitValue c) 0

/-- The digit of a value below sixteen. -/
def hexDigit (n : Nat) : Char :=
  if n < 10 then Char.ofNat ('0'.toNat + n) else Char.ofNat ('a'.toNat + (n - 10))

/-- Bytes as text, two digits each. -/
def hexOfBytes (bytes : List UInt8) : String :=
  bytes.foldl (fun s b => (s.push (hexDigit (b.toNat / 16))).push (hexDigit (b.toNat % 16))) ""

/-- The bytes that pairs of digits denote, after those in `done`, which are in reverse. -/
def bytesOfHex (done : List UInt8) : List Char → List UInt8
  | a :: b :: r =>
    bytesOfHex (UInt8.ofNat (16 * hexDigitValue a + hexDigitValue b) :: done) r
  | _ => done.reverse

end ScriptMachine.Text
