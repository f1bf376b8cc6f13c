/-!
# Samples

A sample is a double, kept as its bits: two of them that are no numbers can differ, and they have
their place in the order of all doubles.
-/

namespace ScriptMachine.Benchmark

/-- One measurement. -/
structure Sample where
  bits : UInt64
deriving DecidableEq, Repr

namespace Sample

/-- The sample with a value. -/
def ofFloat (x : Float) : Sample :=
  ⟨x.toBits⟩

/-- The value. -/
def toFloat (s : Sample) : Float :=
  Float.ofBits s.bits

/-- The rank of a sample among all doubles: with the sign bit set, more bits mean a smaller one. -/
def rank (s : Sample) : Nat :=
  if s.bits.toNat < 0x8000000000000000 then 0x8000000000000000 + s.bits.toNat
  else 0xffffffffffffffff - s.bits.toNat

/-- Infinity. -/
def infinity : Sample :=
  ⟨0x7FF0000000000000⟩

/-- Infinity below zero. -/
def negInfinity : Sample :=
  ⟨0xFFF0000000000000⟩

/-- The smaller of two values; of equal ones, and beside one that is no number, the first. -/
def least (a b : Sample) : Sample :=
  if b.toFloat < a.toFloat then b else a

/-- The larger of two values; of equal ones, and beside one that is no number, the first. -/
def greatest (a b : Sample) : Sample :=
  if a.toFloat < b.toFloat then b else a

end Sample

/-- The samples of one case, at least one. -/
structure Run where
  samples : List Sample
  nonempty : samples ≠ []

namespace Run

/-- The samples in rising order. -/
def sorted (r : Run) : List Sample :=
  r.samples.mergeSort fun a b => a.rank ≤ b.rank

/-- Sorting keeps all samples. -/
theorem length_sorted (r : Run) : r.sorted.length = r.samples.length :=
  List.length_mergeSort r.samples

/-- There is a sample at every position up to the last. -/
theorem lt_length_sorted (r : Run) {i : Nat} (h : i ≤ r.samples.length - 1) :
    i < r.sorted.length := by
  have := List.length_pos_iff.mpr r.nonempty
  rw [length_sorted]
  omega

/-- The sample at a position in rising order. -/
def ranked (r : Run) (i : Nat) (h : i ≤ r.samples.length - 1) : Sample :=
  r.sorted.get ⟨i, r.lt_length_sorted h⟩

/-- The value at `k` quarters of the way from the least sample to the greatest. Between two samples
it is interpolated. -/
def quartile (r : Run) (k : Nat) (h : k ≤ 4) : Sample :=
  let last := r.samples.length - 1
  have hbound : k * last ≤ 4 * last := Nat.mul_le_mul_right last h
  let low := r.ranked (k * last / 4) (by omega)
  let high := r.ranked ((k * last + 3) / 4) (by omega)
  let weight := (UInt64.ofNat (k * last % 4)).toFloat / 4
  .ofFloat (low.toFloat + (high.toFloat - low.toFloat) * weight)

/-- The least sample, the three quartiles between, and the greatest sample. -/
def fiveNumbers (r : Run) : List Sample :=
  [r.ranked 0 (Nat.zero_le _), r.quartile 1 (by decide), r.quartile 2 (by decide),
    r.quartile 3 (by decide), r.ranked (r.samples.length - 1) (Nat.le_refl _)]

/-- The smallest and the largest value. What is no number counts for neither. -/
def range (r : Run) : List Sample :=
  [r.samples.foldl Sample.least .infinity, r.samples.foldl Sample.greatest .negInfinity]

end Run
end ScriptMachine.Benchmark
