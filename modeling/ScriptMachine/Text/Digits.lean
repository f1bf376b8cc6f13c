/-!
# Decimal digits

Natural numbers as ASCII digits.
-/

namespace ScriptMachine.Text

/-- The natural number that digits denote. -/
def ofDigits (digits : List Char) : Nat :=
  digits.foldl (fun n c => 10 * n + (c.toNat - '0'.toNat)) 0

/-- Whether there are characters and all are digits. -/
def areDigits (s : List Char) : Bool :=
  !s.isEmpty && s.all Char.isDigit

end ScriptMachine.Text
