import ScriptMachine.Proofs.Machine.Oblivious
import ScriptMachine.Proofs.Machine.SafeSteps
import ScriptMachine.Proofs.Simulation.Stands

/-!
# Results that stand for results

An operator or a primitive, given values that stand for data, gives a value that stands for the
result on the data, or fails with the same fault. A new string needs a handle that is not taken.
-/

namespace ScriptMachine

open Bytecode Compile Evaluation

/-- The faults that a program brings about by what it computes. -/
def Fault.Ordinary : Fault → Prop
  | .divisionByZero | .integerOverflow | .badOperands _ _ _ | .notCallable _ | .badArgument _ => True
  | .functionArity _ _ _ | .primitiveArity _ _ _ | .argumentCount _ _ => True
  | .assertionFailed | .outputClosed => True
  | _ => False

namespace Simulation

variable {σ : Slots} {n : Nat} {heap : Heap} {v w : Value} {d e : Datum} {op : Opcode}

/-! ## Operators -/

/-- A result on values and one on data that go together. -/
inductive Agree (σ : Slots) (n : Nat) (heap : Heap) :
    Except Fault Value → Except Fault Datum → Prop
  | ok {v : Value} {d : Datum} (h : Stands σ n heap v d) : Agree σ n heap (.ok v) (.ok d)
  | error {e : Fault} (h : e.Ordinary) : Agree σ n heap (.error e) (.error e)

theorem agree_exact (x : Int) : Agree σ n heap (Machine.exactInt x) (exact x) := by
  unfold Machine.exactInt exact Value.int?
  by_cases hx : Value.fits x = true
  · rw [if_pos hx, if_pos hx]
    exact .ok (.int hx)
  · rw [if_neg hx, if_neg hx]
    exact .error trivial

/-- The operators of arithmetic with two operands. -/
def Arithmetical : Opcode → Prop
  | .add | .sub | .mul | .div | .mod => True
  | _ => False

theorem agree_intResult (hop : Arithmetical op) (x y : Int) :
    Agree σ n heap (Machine.intResult op x y) (arithmetic op x y) := by
  cases op with
  | add | sub | mul => exact agree_exact _
  | div | mod =>
    simp only [Machine.intResult, arithmetic]
    by_cases hy : y = 0
    · rw [if_pos hy, if_pos hy]
      exact .error trivial
    · rw [if_neg hy, if_neg hy]
      exact agree_exact _
  | _ => exact hop.elim

/-- What an integer operator gets from values that stand for data. -/
theorem intOperands_eq (hv : Stands σ n heap v d) (hw : Stands σ n heap w e) :
    Machine.intOperands op v w = match d, e with
      | .int x, .int y => .ok (x, y)
      | d, e => .error (.badOperands op d.kind e.kind) := by
  unfold Machine.intOperands
  rw [hv.kind_eq, hw.kind_eq, hv.asInt?_eq, hw.asInt?_eq]
  cases d with
  | int x => cases e <;> rfl
  | _ => rfl

theorem bothStrings_eq (hv : Stands σ n heap v d) (hw : Stands σ n heap w e) :
    Machine.bothStrings v w = match d, e with
      | .text _, .text _ => true
      | _, _ => false := by
  unfold Machine.bothStrings
  rw [hv.kind_eq, hw.kind_eq]
  cases d with
  | text s =>
    cases e with
    | bool b => cases b <;> rfl
    | _ => rfl
  | bool b => cases b <;> rfl
  | _ => rfl

/-- The ends of an action that hands back a value, and of what it does to data. The heap has no more
handles, or the values stand for the data. -/
inductive Yields (σ : Slots) (n : Nat) (m : Machine) :
    EStateM.Result Fault Machine Value → EStateM.Result Fault Sink Datum → Prop
  | ok {v : Value} {d : Datum} {heap : Heap} {sink : Sink} (hadd : m.heap.AddsStrings heap)
    (h : heap.Full ∨ Stands σ n heap v d) : Yields σ n m (.ok v { m with heap, sink }) (.ok d sink)
  | error {e : Fault} {heap : Heap} {sink : Sink} (h : e.Ordinary) :
    Yields σ n m (.error e { m with heap, sink }) (.error e sink)

theorem Yields.of_agree {m : Machine} {r : Except Fault Value} {r' : Except Fault Datum}
    (h : Agree σ n m.heap r r') : Yields σ n m (Machine.liftFault r m) (lift r' m.sink) := by
  cases h with
  | ok h => exact .ok (.refl _) (.inr h)
  | error h => exact .error h

/-- A stored string stands for its text as long as there are handles. -/
theorem stands_allocString (heap : Heap) (s : String) :
    (heap.allocString s).2.Full ∨
      Stands σ n (heap.allocString s).2 (.string (heap.allocString s).1) (.text s) := by
  by_cases hroom : heap.strings.size < 2 ^ 32
  · exact .inr (.text (Heap.string?_allocString s hroom))
  · refine .inl ?_
    simp only [Heap.Full, handleCount, Heap.allocString_strings, Array.size_push]
    omega

theorem yields_allocString (m : Machine) (s : String) :
    Yields σ n m (Machine.allocString s m) (lift (.ok (.text s)) m.sink) :=
  .ok (Heap.addsStrings_allocString m.heap s) (stands_allocString m.heap s)

theorem agree_arithmetic (hop : Arithmetical op) (hv : Stands σ n heap v d)
    (hw : Stands σ n heap w e) (hs : Machine.bothStrings v w = false) :
    Agree σ n heap ((Machine.intOperands op v w).bind fun (x, y) => Machine.intResult op x y)
      (binary op d e) := by
  have hc : comparesOrder op = false := by
    cases op <;> first | rfl | exact hop.elim
  have heq : op ≠ .eq := by
    rintro rfl
    exact hop
  have hne : op ≠ .notEq := by
    rintro rfl
    exact hop
  unfold binary
  rw [intOperands_eq hv hw, if_neg heq, if_neg hne]
  rw [bothStrings_eq hv hw] at hs
  cases d with
  | int x =>
    cases e with
    | int y =>
      simp only [hc, Bool.false_eq_true, if_false]
      exact agree_intResult hop x y
    | _ => exact .error trivial
  | text s =>
    cases e with
    | text t => cases hs
    | _ => exact .error trivial
  | _ => exact .error trivial

theorem agree_order (hop : comparesOrder op = true) (hv : Stands σ n heap v d)
    (hw : Stands σ n heap w e) :
    Agree σ n heap ((Machine.order heap op v w).map fun o => .bool (Machine.holds op o))
      (binary op d e) := by
  have heq : op ≠ .eq := by
    rintro rfl
    cases hop
  have hne : op ≠ .notEq := by
    rintro rfl
    cases hop
  have hadd : op ≠ .add := by
    rintro rfl
    cases hop
  unfold binary Machine.order
  rw [if_neg heq, if_neg hne, bothStrings_eq hv hw, intOperands_eq hv hw]
  cases d with
  | text s =>
    cases e with
    | text t =>
      have hst : Machine.stringOperands heap v w = .ok (s, t) := by
        rw [Machine.stringOperands, hv.string_eq, hw.string_eq]
      simp only [if_true, hst, if_neg hadd, hop]
      exact .ok (.bool _)
    | _ => exact .error trivial
  | int x =>
    cases e with
    | int y =>
      simp only [hop, if_true]
      exact .ok (.bool _)
    | _ => exact .error trivial
  | _ => exact .error trivial

/-- An operator does to values what it does to the data that they stand for. -/
theorem yields_binary (hσ : σ.Distinct) (hop : Machine.Binary op) {m : Machine}
    (hv : Stands σ n m.heap v d) (hw : Stands σ n m.heap w e) :
    Yields σ n m (Machine.binaryResult op v w m) (lift (binary op d e) m.sink) := by
  -- two texts can be added and compared; all other arithmetic on them is a fault on both sides
  have harith : Arithmetical op → op ≠ .add →
      Yields σ n m (Machine.liftFault ((Machine.intOperands op v w).bind fun (x, y) =>
        Machine.intResult op x y) m) (lift (binary op d e) m.sink) := by
    intro hop' hadd
    by_cases hs : Machine.bothStrings v w = true
    · refine .of_agree ?_
      rw [bothStrings_eq hv hw] at hs
      rw [intOperands_eq hv hw]
      cases d with
      | text s =>
        cases e with
        | text t =>
          have hc : comparesOrder op = false := by
            cases op <;> first | rfl | exact hop'.elim
          have heq : op ≠ .eq := by
            rintro rfl
            exact hop'
          have hne : op ≠ .notEq := by
            rintro rfl
            exact hop'
          simp only [binary, if_neg heq, if_neg hne, if_neg hadd, hc, Bool.false_eq_true, if_false]
          exact .error trivial
        | _ => cases hs
      | _ => cases hs
    · exact .of_agree (agree_arithmetic hop' hv hw (by simpa using hs))
  cases op with
  | add =>
    show Yields σ n m (Machine.addValues v w m) _
    unfold Machine.addValues
    by_cases hs : Machine.bothStrings v w = true
    · rw [if_pos hs]
      rw [bothStrings_eq hv hw] at hs
      cases d with
      | text s =>
        cases e with
        | text t =>
          have hst : Machine.stringOperands m.heap v w = .ok (s, t) := by
            rw [Machine.stringOperands, hv.string_eq, hw.string_eq]
          simp only [hst]
          exact yields_allocString m (s ++ t)
        | _ => cases hs
      | _ => cases hs
    · rw [if_neg hs]
      exact .of_agree (agree_arithmetic trivial hv hw (by simpa using hs))
  | sub | mul | div | mod => exact harith trivial (by decide)
  | eq =>
    have hsame := hv.same_eq hσ hw
    show Yields σ n m (.ok (.bool (Machine.sameValue m.heap v w)) m) _
    rw [hsame]
    exact .ok (.refl _) (.inr (.bool _))
  | notEq =>
    have hsame := hv.same_eq hσ hw
    show Yields σ n m (.ok (.bool (!Machine.sameValue m.heap v w)) m) _
    rw [hsame]
    exact .ok (.refl _) (.inr (.bool _))
  | lt | le | gt | ge => exact .of_agree (agree_order rfl hv hw)
  | _ => exact hop.elim

theorem agree_unary (op : Source.UnaryOp) (hv : Stands σ n heap v d) :
    Agree σ n heap (Machine.unaryResult (unaryCode op) v) (unary op d) := by
  cases op with
  | not =>
    show Agree σ n heap (.ok (.bool v.isFalsey)) (.ok (.bool d.isFalsey))
    rw [hv.isFalsey_eq]
    exact .ok (.bool _)
  | neg =>
    show Agree σ n heap ((Machine.intOperands .neg v (.int 0)).bind _) _
    rw [intOperands_eq hv (.int (show Value.fits 0 = true by decide))]
    cases d with
    | int x => exact agree_exact _
    | _ => exact .error trivial

end Simulation
end ScriptMachine
