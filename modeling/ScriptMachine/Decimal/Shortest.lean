/-!
# Shortest decimals

A finite double stands for all reals that round to it, to nearest and with ties to even. It is
written as the decimal among them that has the fewest digits; of two such decimals the nearer is
taken, and of two equally near ones the even. All comparisons are exact, on natural numbers.
-/

namespace ScriptMachine.Decimal

/-- The size of a finite double: `significand * 2 ^ exponent`. A binade's first value is `narrow`:
the value below it is half as far away as the value above. -/
structure Binary where
  significand : Nat
  exponent : Int
  narrow : Bool
deriving DecidableEq, Repr

/-- The size that the bits of a finite double hold. -/
def Binary.ofBits (bits : UInt64) : Binary :=
  let exponent : Nat := bits.toNat / 0x10000000000000 % 0x800
  let fraction := bits.toNat % 0x10000000000000
  if exponent = 0 then ⟨fraction, -1074, false⟩
  else ⟨0x10000000000000 + fraction, Int.ofNat exponent - 1075, fraction == 0 && exponent > 1⟩

/-- A decimal: `digits * 10 ^ exponent`. -/
structure Numeral where
  digits : Nat
  exponent : Int
deriving DecidableEq, Repr

/-- The factor by which a power with this exponent raises a numerator. -/
def raised (base : Nat) (exponent : Int) : Nat :=
  Nat.pow base exponent.toNat

/-- `n * 2 ^ exponent` in units of a decimal, as a fraction. -/
def inUnits (n : Nat) (exponent unit : Int) : Nat × Nat :=
  (n * raised 2 exponent * raised 10 (-unit), raised 2 (-exponent) * raised 10 unit)

/-- Whether `n` lies between two fractions with one denominator; the ends count when `closed`. -/
def between (closed : Bool) (low high denominator n : Nat) : Bool :=
  if closed then low ≤ n * denominator && n * denominator ≤ high
  else low < n * denominator && n * denominator < high

/-- The multiple of `10 ^ unit` that reads back as the value and is nearest to it, if there is
one. -/
def Binary.multiple? (x : Binary) (unit : Int) : Option Numeral :=
  let quarter := x.exponent - 2
  let (value, denominator) := inUnits (4 * x.significand) quarter unit
  let (low, _) := inUnits (4 * x.significand - if x.narrow then 1 else 2) quarter unit
  let (high, _) := inUnits (4 * x.significand + 2) quarter unit
  let readsBack := between (x.significand % 2 == 0) low high denominator
  let below := value / denominator
  let above := below + 1
  match readsBack below, readsBack above with
  | true, true =>
    let twice := 2 * value
    let middle := (below + above) * denominator
    let nearest :=
      if twice < middle then below
      else if middle < twice then above
      else if below % 2 = 0 then below else above
    some ⟨nearest, unit⟩
  | true, false => some ⟨below, unit⟩
  | false, true => some ⟨above, unit⟩
  | false, false => none

/-- An exponent of ten that is too large for every multiple but zero. -/
def Binary.topUnit (x : Binary) : Int :=
  (x.significand.log2 + 1 + x.exponent) * 1233 / 4096 + 2

/-- The shortest decimal of a value that is not zero. Twenty units below the top hold a multiple for
every double. -/
def Binary.shortest (x : Binary) : Numeral :=
  ((List.range 24).findSome? fun i => x.multiple? (x.topUnit - Int.ofNat i)).getD ⟨0, 0⟩

/-! ## Text -/

/-- Zeros. -/
def zeros (n : Int) : List Char :=
  List.replicate n.toNat '0'

/-- A decimal as text: positional with a point from `1e-5` up to `1e16`, else with an exponent that
always has a sign. -/
def Numeral.text (d : Numeral) : List Char :=
  let digits := Nat.toDigits 10 d.digits
  let point := digits.length + d.exponent
  if 0 ≤ d.exponent && point ≤ 16 then digits ++ zeros d.exponent ++ ['.', '0']
  else if 0 < point && point ≤ 16 then
    digits.take point.toNat ++ '.' :: digits.drop point.toNat
  else if -5 < point && point ≤ 0 then '0' :: '.' :: zeros (-point) ++ digits
  else
    let mantissa := if digits.length = 1 then digits else digits.take 1 ++ '.' :: digits.drop 1
    let sign := if point < 1 then '-' else '+'
    mantissa ++ 'e' :: sign :: Nat.toDigits 10 (point - 1).natAbs

/-- The shortest text of a finite double, given by its bits. -/
def shortestText (bits : UInt64) : String :=
  let size := Binary.ofBits bits
  let sign := if bits ≥ 0x8000000000000000 then ['-'] else []
  String.ofList (sign ++ if size.significand = 0 then ['0', '.', '0'] else size.shortest.text)

end ScriptMachine.Decimal
