import ScriptMachine.Text.Digits
import ScriptMachine.Text.Reader

/-!
# Numbers in JSON

A number is read as a significand below `2 ^ 64` and a power of ten. Digits that would make the
significand too large are left out: those of the integer raise the power instead, those of the
fraction are lost. The value is the significand as a double, multiplied or divided by the power, so
it is the nearest double whenever both of them are exact. A number that is too large is refused.
-/

namespace ScriptMachine.Json

open Text

/-- The largest power of ten that is a finite double. -/
def maxPower : Nat :=
  308

/-- A power of ten as a double. -/
def tenTo (n : Nat) : Float :=
  Float.ofScientific 1 false n

/-- A double divided by a power of ten, in as many steps as the power needs. -/
def shrink (x : Float) (power : Nat) : Float :=
  if power ≤ maxPower then x / tenTo power
  else if x == 0 then x
  else shrink (x / tenTo maxPower) (power - maxPower)
termination_by power
decreasing_by simp only [maxPower] at *; omega

/-- The double for `significand * 10 ^ exponent`, unless it is too large. -/
def scaled? (significand : Nat) (exponent : Int) : Option Float :=
  let x := (UInt64.ofNat significand).toFloat
  if exponent < 0 then some (shrink x exponent.natAbs)
  else if exponent ≤ maxPower then
    let y := x * tenTo exponent.toNat
    if y.isInf then none else some y
  else if significand = 0 then some x
  else none

/-- Appends digits to a significand as long as it stays below `2 ^ 64`; the digits that are left
over. -/
def takeFitting (significand : Nat) : List Char → Nat × List Char
  | [] => (significand, [])
  | c :: r =>
    let longer := 10 * significand + (c.toNat - '0'.toNat)
    if longer < 0x10000000000000000 then takeFitting longer r else (significand, c :: r)

/-- The exponent at the start of a text, zero where there is none, and the rest. -/
def readExponent : Reader Int
  | c :: r =>
    if c = 'e' || c = 'E' then
      let (negative, r) := match r with
        | '-' :: r => (true, r)
        | '+' :: r => (false, r)
        | _ => (false, r)
      (readDigits r).map fun (digits, rest) =>
        let n : Int := ofDigits digits
        (if negative then -n else n, rest)
    else some (0, c :: r)
  | [] => some (0, [])

/-- The digits of the fraction at the start of a text, none where there is no point, and the
rest. -/
def readFraction : Reader (List Char)
  | '.' :: r => readDigits r
  | r => some ([], r)

/-- The number without a sign at the start of a text, and the rest. An integer of several digits
does not begin with zero. -/
def readUnsigned (s : List Char) : Option (Float × List Char) :=
  (readDigits s).bind fun (whole, rest) =>
    if whole.head? = some '0' && whole.length > 1 then none
    else
      (readFraction rest).bind fun (fraction, rest) =>
        (readExponent rest).bind fun (exponent, rest) =>
          let (significand, extra) := takeFitting 0 whole
          let (significand, lost) := takeFitting significand fraction
          let power : Int := extra.length - (fraction.length - lost.length : Nat) + exponent
          (scaled? significand power).map (·, rest)

/-- The number at the start of a text, and the rest. -/
def readNumber : Reader Float
  | '-' :: r => (readUnsigned r).map fun (x, rest) => (-x, rest)
  | r => readUnsigned r

end ScriptMachine.Json
