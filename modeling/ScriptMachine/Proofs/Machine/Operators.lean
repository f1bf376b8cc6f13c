import ScriptMachine.Machine.Step
import ScriptMachine.Proofs.Machine.Natives

/-!
# Results of operators

An operator on live values gives a live value or fails in a way that the program brings about: its
operands are of the wrong kind, the result does not fit, or a divisor is zero.
-/

namespace ScriptMachine.Machine

open Bytecode

variable {heap : Heap} {primitives : Nat} {op : Opcode} {v w r : Value} {e : Fault}

/-- The operators of arithmetic. -/
def Arithmetic : Opcode → Prop
  | .add | .sub | .mul | .div | .mod | .neg => True
  | _ => False

/-! ## Integers -/

theorem exactInt_cases (n : Int) :
    exactInt n = .ok (.int n) ∨ exactInt n = .error .integerOverflow := by
  unfold exactInt Value.int?
  split_ifs <;> simp

theorem exactInt_ok {n : Int} (h : exactInt n = .ok r) : ∃ i, r = .int i := by
  rcases exactInt_cases n with hn | hn <;> rw [hn] at h
  · cases h
    exact ⟨n, rfl⟩
  · simp at h

theorem exactInt_error {n : Int} (h : exactInt n = .error e) : ¬ e.Internal := by
  rcases exactInt_cases n with hn | hn <;> rw [hn] at h
  · simp at h
  · cases h
    exact fun h => h

theorem intResult_ok {x y : Int} (h : intResult op x y = .ok r) : ∃ i, r = .int i := by
  unfold intResult at h
  split at h
  case h_4 | h_5 =>
    split_ifs at h
    exact exactInt_ok h
  case h_7 => simp at h
  all_goals exact exactInt_ok h

theorem intResult_error (hop : Arithmetic op) {x y : Int} (h : intResult op x y = .error e) :
    ¬ e.Internal := by
  cases op <;> simp only [Arithmetic] at hop <;> simp only [intResult] at h
  case div | mod =>
    split_ifs at h
    · cases h
      exact fun h => h
    · exact exactInt_error h
  all_goals exact exactInt_error h

theorem intOperands_error (h : intOperands op v w = .error e) :
    e = .badOperands op v.kind w.kind := by
  unfold intOperands at h
  split at h
  · simp at h
  · cases h
    rfl

/-- Arithmetic gives integers. -/
theorem arithmetic_ok
    (h : ((intOperands op v w).bind fun (x, y) => intResult op x y) = .ok r) :
    ∃ i, r = .int i := by
  cases hxy : intOperands op v w with
  | error e => simp [hxy, Except.bind] at h
  | ok xy =>
    rw [hxy] at h
    exact intResult_ok h

theorem arithmetic_live
    (h : ((intOperands op v w).bind fun (x, y) => intResult op x y) = .ok r) :
    r.Live heap primitives := by
  obtain ⟨i, rfl⟩ := arithmetic_ok h
  exact .int i

theorem arithmetic_error (hop : Arithmetic op)
    (h : ((intOperands op v w).bind fun (x, y) => intResult op x y) = .error e) :
    ¬ e.Internal := by
  cases hxy : intOperands op v w with
  | error e' =>
    rw [hxy] at h
    cases h
    rw [intOperands_error hxy]
    exact fun h => h
  | ok xy =>
    rw [hxy] at h
    exact intResult_error hop h

/-! ## Strings -/

theorem bothStrings_iff : bothStrings v w = true ↔ v.kind = .string ∧ w.kind = .string := by
  simp [bothStrings]

theorem stringOperands_live (hv : v.Live heap primitives) (hw : w.Live heap primitives)
    (h : bothStrings v w = true) : ∃ s t, heap.string? v.handle = some s ∧
      heap.string? w.handle = some t ∧ stringOperands heap v w = .ok (s, t) := by
  obtain ⟨hkv, hkw⟩ := bothStrings_iff.1 h
  obtain ⟨s, hs⟩ := Heap.string?_of_lt (hv.string_lt hkv)
  obtain ⟨t, ht⟩ := Heap.string?_of_lt (hw.string_lt hkw)
  exact ⟨s, t, hs, ht, by simp only [stringOperands, hs, ht]⟩

theorem order_error (hv : v.Live heap primitives) (hw : w.Live heap primitives)
    (h : order heap op v w = .error e) : ¬ e.Internal := by
  unfold order at h
  split at h
  · next hs =>
    obtain ⟨s, t, -, -, hst⟩ := stringOperands_live hv hw hs
    simp [hst, Except.map] at h
  · cases hxy : intOperands op v w with
    | error e' =>
      rw [hxy] at h
      cases h
      rw [intOperands_error hxy]
      exact fun h => h
    | ok xy => simp [hxy, Except.map] at h

theorem map_bool_ok {o : Except Fault Ordering}
    (h : (o.map fun o => Value.bool (holds op o)) = .ok v) : ∃ c, v = .bool c := by
  cases o with
  | error e => cases h
  | ok o =>
    cases h
    exact ⟨_, rfl⟩

/-! ## Unary operators -/

theorem unaryResult_ok (h : unaryResult op v = .ok r) :
    (∃ i, r = .int i) ∨ ∃ b, r = .bool b := by
  unfold unaryResult at h
  split at h
  · cases h
    exact .inr ⟨_, rfl⟩
  · exact .inl (arithmetic_ok h)

theorem unaryResult_live (h : unaryResult op v = .ok r) : r.Live heap primitives := by
  rcases unaryResult_ok h with ⟨i, rfl⟩ | ⟨b, rfl⟩
  · exact .int i
  · exact .bool b

theorem unaryResult_error (hop : op = .neg ∨ op = .logNot) (h : unaryResult op v = .error e) :
    ¬ e.Internal := by
  rcases hop with rfl | rfl
  · exact arithmetic_error (show Arithmetic .neg from trivial) h
  · simp [unaryResult] at h

end ScriptMachine.Machine
