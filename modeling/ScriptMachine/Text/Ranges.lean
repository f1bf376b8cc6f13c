/-!
# Ranges

Sets of numbers as lists of ranges in increasing order, each range given by its first and its last
number.
-/

namespace ScriptMachine.Text

/-- Whether a number is in one of the ranges. A range that begins after it ends the search. -/
def inRanges (n : Nat) : List (Nat × Nat) → Bool
  | [] => false
  | (first, last) :: rest => first ≤ n && (n ≤ last || inRanges n rest)

/-- In ranges that begin in increasing order, the search finds all that holds the number. -/
theorem inRanges_iff {n : Nat} {ranges : List (Nat × Nat)}
    (h : ranges.Pairwise fun r s => r.1 ≤ s.1) :
    inRanges n ranges = true ↔ ∃ r ∈ ranges, r.1 ≤ n ∧ n ≤ r.2 := by
  induction ranges with
  | nil => simp [inRanges]
  | cons r rest ih =>
    obtain ⟨first, last⟩ := r
    obtain ⟨before, ordered⟩ := List.pairwise_cons.1 h
    simp only [inRanges, Bool.and_eq_true, Bool.or_eq_true, decide_eq_true_eq, ih ordered,
      List.mem_cons]
    constructor
    · rintro ⟨low, high | ⟨s, mem, bounds⟩⟩
      · exact ⟨(first, last), .inl rfl, low, high⟩
      · exact ⟨s, .inr mem, bounds⟩
    · rintro ⟨s, rfl | mem, low, high⟩
      · exact ⟨low, .inl high⟩
      · exact ⟨Nat.le_trans (before s mem) low, .inr ⟨s, mem, low, high⟩⟩

end ScriptMachine.Text
