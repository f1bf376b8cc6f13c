import ScriptMachine.Compile.CompileError
import ScriptMachine.Text.Digits
import ScriptMachine.Value.Word

/-!
# Integer literals

A literal is a decimal number with an optional sign; underscores are left out. It has to fit 64 bits
to be a number at all, and a payload to be a value.
-/

namespace ScriptMachine.Compile

open Text

/-- The number that a sign and digits denote, if it fits 64 bits. -/
def readInt? (s : List Char) : Option Int :=
  let (negative, digits) := match s with
    | '-' :: r => (true, r)
    | '+' :: r => (false, r)
    | _ => (false, s)
  if areDigits digits then
    let n : Int := if negative then -(ofDigits digits : Int) else ofDigits digits
    if -0x8000000000000000 ≤ n && n < 0x8000000000000000 then some n else none
  else none

/-- The value of an integer literal. -/
def literalValue (lexeme : String) : Except CompileError Int :=
  let digits := lexeme.toList.filter (· != '_')
  match readInt? digits with
  | some n => if Value.fits n then .ok n else .error (.integerOutOfRange lexeme)
  | none =>
    if areDigits digits then .error (.integerOutOfRange lexeme) else .error (.invalidNumber lexeme)

end ScriptMachine.Compile
