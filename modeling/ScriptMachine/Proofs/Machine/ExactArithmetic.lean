import ScriptMachine.Proofs.Machine.Operators
import ScriptMachine.Proofs.Machine.Stepping
import ScriptMachine.Proofs.Value.Tags
import ScriptMachine.Machine.Standard
import Mathlib.Data.Int.DivMod
import Mathlib.Data.List.Nodup

/-!
# Exact arithmetic

Arithmetic on integers gives the integer that it has in mathematics, or says that no word holds this
integer: nothing ever wraps. That the words have 64 bits is not noticed, since what overflows these
does not fit a payload either.
-/

namespace ScriptMachine

/-! ## Division -/

/-- A division toward zero: the remainder has the sign of the dividend and is smaller than the
divisor. -/
structure Truncated (x y q r : Int) : Prop where
  eq : x = q * y + r
  toward_zero : |q * y| ≤ |x|
  lt : |r| < |y|
  nonneg : 0 ≤ x → 0 ≤ r
  nonpos : x ≤ 0 → r ≤ 0

theorem truncated_tdiv {x y : Int} (hy : y ≠ 0) : Truncated x y (x.tdiv y) (x.tmod y) := by
  have heq := Int.mul_tdiv_add_tmod x y
  rw [Int.mul_comm] at heq
  have hmod := Int.natAbs_tmod x y
  have hlt := Nat.mod_lt x.natAbs (Int.natAbs_pos.2 hy)
  have hle := Nat.mod_le x.natAbs y.natAbs
  have hnonneg : 0 ≤ x → 0 ≤ x.tmod y := Int.tmod_nonneg y
  have hnonpos : x ≤ 0 → x.tmod y ≤ 0 := by
    intro hx
    have hneg := Int.tmod_nonneg y (Int.neg_nonneg_of_nonpos hx)
    rw [Int.neg_tmod] at hneg
    omega
  refine ⟨heq.symm, ?_, ?_, hnonneg, hnonpos⟩
  · rw [Int.abs_eq_natAbs, Int.abs_eq_natAbs]
    omega
  · rw [Int.abs_eq_natAbs, Int.abs_eq_natAbs, hmod]
    omega

namespace Truncated

variable {x y q r : Int}

theorem ne_zero (h : Truncated x y q r) : y ≠ 0 := by
  rintro rfl
  exact absurd h.lt (by simp)

/-- There is only one division toward zero. -/
theorem eq_tdiv (h : Truncated x y q r) : x.tdiv y = q ∧ x.tmod y = r := by
  have heq : r + y * q = x := by rw [h.eq, Int.mul_comm y, Int.add_comm]
  have hlt := h.lt
  rw [Int.abs_eq_natAbs, Int.abs_eq_natAbs] at hlt
  rcases Int.le_total 0 x with hx | hx
  · have hr := h.nonneg hx
    exact (Int.tdiv_tmod_unique hx h.ne_zero).2 ⟨heq, hr, by omega⟩
  · have hr := h.nonpos hx
    exact (Int.tdiv_tmod_unique' hx h.ne_zero).2 ⟨heq, by omega, hr⟩

end Truncated

namespace Machine

open Bytecode

/-! ## Results -/

/-- The integer that an operator has for a result, if it has one. -/
inductive Exact : Opcode → Int → Int → Int → Prop
  | add (x y : Int) : Exact .add x y (x + y)
  | sub (x y : Int) : Exact .sub x y (x - y)
  | mul (x y : Int) : Exact .mul x y (x * y)
  | div {x y q r : Int} (h : Truncated x y q r) : Exact .div x y q
  | mod {x y q r : Int} (h : Truncated x y q r) : Exact .mod x y r
  | neg (x y : Int) : Exact .neg x y (-x)

/-- What follows when an integer is to be held by a word: one of these is the case for the word that
reads back as the integer, or the other if there is no such word. -/
def Settles (n : Int) (held : Value → Prop) (overflow : Prop) : Prop :=
  if -2 ^ 59 ≤ n ∧ n ≤ 2 ^ 59 - 1 then ∃ r, r.asInt? = some n ∧ held r else overflow

theorem settles_of_int? {n : Int} {held : Value → Prop} {overflow : Prop}
    (h : match Value.int? n with
      | some r => held r
      | none => overflow) : Settles n held overflow := by
  have hrange : Value.fits n = true ↔ -2 ^ 59 ≤ n ∧ n ≤ 2 ^ 59 - 1 := by
    rw [Value.fits_iff]
    omega
  unfold Value.int? at h
  unfold Settles
  by_cases hn : Value.fits n = true
  · rw [if_pos hn] at h
    rw [if_pos (hrange.1 hn)]
    exact ⟨_, Value.asInt?_int hn, h⟩
  · rw [if_neg hn] at h
    rwa [if_neg (mt hrange.2 hn)]

variable {op : Opcode} {x y n : Int}

/-- Whether an operator divides. -/
def Divides (op : Opcode) : Prop :=
  op = .div ∨ op = .mod

/-- An operator has no result just if it divides by zero. -/
theorem exists_exact_iff (hop : Arithmetic op) : (∃ n, Exact op x y n) ↔ ¬(Divides op ∧ y = 0) := by
  constructor
  · rintro ⟨n, h⟩ ⟨hdivides, hy⟩
    cases h with
    | div h | mod h => exact h.ne_zero hy
    | _ => rcases hdivides with h | h <;> cases h
  · intro h
    cases op <;> simp only [Arithmetic] at hop
    case add => exact ⟨_, .add x y⟩
    case sub => exact ⟨_, .sub x y⟩
    case mul => exact ⟨_, .mul x y⟩
    case div => exact ⟨_, .div (truncated_tdiv fun hy => h ⟨.inl rfl, hy⟩)⟩
    case mod => exact ⟨_, .mod (truncated_tdiv fun hy => h ⟨.inr rfl, hy⟩)⟩
    case neg => exact ⟨_, .neg x y⟩

theorem intResult_of_exact (h : Exact op x y n) : intResult op x y = exactInt n := by
  cases h with
  | div h =>
    rw [← h.eq_tdiv.1]
    exact if_neg h.ne_zero
  | mod h =>
    rw [← h.eq_tdiv.2]
    exact if_neg h.ne_zero
  | _ => rfl

theorem intResult_of_zero (hdivides : Divides op) : intResult op x 0 = .error .divisionByZero := by
  rcases hdivides with rfl | rfl <;> rfl

/-! ## Words of 64 bits -/

/-- An integer is read by moving its payload up over the tag and back, which extends its sign. -/
theorem asInt?_eq_shift {v : Value} (h : v.kind = .int) :
    v.asInt? = some ((v.word.toInt64 <<< 4) >>> 4).toInt := by
  have hword : v.word.toNat = v.payload := by
    have htag := Value.tag_of_kind_int h
    simp only [Value.tag, Value.payload, Value.payloads] at *
    omega
  have hlt := Value.payload_lt v
  have hshift : ((v.word.toInt64 <<< 4) >>> 4).toInt =
      ((v.word.toBitVec <<< 4).sshiftRight 4).toInt := rfl
  rw [hshift, BitVec.toInt_sshiftRight, BitVec.toInt_shiftLeft, UInt64.toNat_toBitVec, hword,
    Value.asInt?, if_pos h, Option.some.injEq]
  simp only [Value.payloads, Nat.shiftLeft_eq, Int.shiftRight_eq_div_pow, Int.bmod] at *
  split <;> split <;> omega

/-- The operators as they are on words of 64 bits, with no result where this overflows. -/
def checked? (op : Opcode) (x y : Int64) : Option Int64 :=
  match op with
  | .add => if x.toBitVec.saddOverflow y.toBitVec then none else some (x + y)
  | .sub => if x.toBitVec.ssubOverflow y.toBitVec then none else some (x - y)
  | .mul => if x.toBitVec.smulOverflow y.toBitVec then none else some (x * y)
  | .div => if y = 0 ∨ x = .minValue ∧ y = -1 then none else some (x / y)
  | .mod => if y = 0 ∨ x = .minValue ∧ y = -1 then none else some (x % y)
  | .neg => if x = .minValue then none else some (-x)
  | _ => none

/-- What overflows a word of 64 bits fits no payload, and all else is as it is. -/
theorem int?_of_word {c : Prop} [Decidable c] {z : Int64}
    (hover : c ↔ ¬(-2 ^ 63 ≤ n ∧ n < 2 ^ 63)) (hz : z.toInt = n.bmod (2 ^ 64)) :
    ((if c then none else some z).bind fun z => Value.int? z.toInt) = Value.int? n := by
  by_cases hc : c
  · rw [if_pos hc, Option.bind_none, Value.int?, if_neg]
    rw [Value.fits_iff]
    have := hover.1 hc
    omega
  · have hn := not_not.1 (mt hover.2 hc)
    rw [if_neg hc, Option.bind_some, hz, Int.bmod_eq_of_le (by omega) (by omega)]

/-- On integers that fit payloads, an overflow of 64 bits and one of a payload come to the same. -/
theorem int?_checked {x y : Int64} (hx : Value.fits x.toInt = true) (hy : Value.fits y.toInt = true)
    (h : Exact op x.toInt y.toInt n) :
    ((checked? op x y).bind fun z => Value.int? z.toInt) = Value.int? n := by
  rw [Value.fits_iff] at hx hy
  have hmin : x ≠ .minValue := by
    rintro rfl
    exact absurd hx.1 (by decide)
  generalize hx' : x.toInt = x' at h hx
  generalize hy' : y.toInt = y' at h hy
  cases h with
  | add =>
    refine int?_of_word ?_ (by rw [Int64.toInt_add, hx', hy'])
    simp only [BitVec.saddOverflow, Int64.toInt_toBitVec, hx', hy', Bool.or_eq_true,
      decide_eq_true_iff]
    omega
  | sub =>
    refine int?_of_word ?_ (by rw [Int64.toInt_sub, hx', hy'])
    simp only [BitVec.ssubOverflow, Int64.toInt_toBitVec, hx', hy', Bool.or_eq_true,
      decide_eq_true_iff]
    omega
  | mul =>
    refine int?_of_word ?_ (by rw [Int64.toInt_mul, hx', hy'])
    simp only [BitVec.smulOverflow, Int64.toInt_toBitVec, hx', hy', Bool.or_eq_true,
      decide_eq_true_iff]
    omega
  | @div _ _ q r h =>
    obtain ⟨hq, -⟩ := h.eq_tdiv
    refine int?_of_word ?_ (by rw [Int64.toInt_div, hx', hy', hq])
    have hy0 : y ≠ 0 := fun hy0 => h.ne_zero (by rw [← hy', hy0]; rfl)
    have hle := Int.natAbs_tdiv_le_natAbs x' y'
    simp only [hy0, hmin, false_and, or_self, false_iff, not_not]
    omega
  | @mod _ _ q r h =>
    obtain ⟨-, hr⟩ := h.eq_tdiv
    have hlt := h.lt
    rw [Int.abs_eq_natAbs, Int.abs_eq_natAbs] at hlt
    have hy0 : y ≠ 0 := fun hy0 => h.ne_zero (by rw [← hy', hy0]; rfl)
    refine int?_of_word ?_ ?_
    · simp only [hy0, hmin, false_and, or_self, false_iff, not_not]
      omega
    · rw [Int64.toInt_mod, hx', hy', hr, Int.bmod_eq_of_le (by omega) (by omega)]
  | neg =>
    refine int?_of_word ?_ (by rw [Int64.toInt_neg, hx'])
    simp only [hmin, false_iff, not_not]
    omega

/-! ## Instructions -/

/-- The machine is about to execute an operator on these integers, and has fuel for it; the result
goes to a register of the running frame. -/
structure AboutToCompute (m : Machine) (frame : Frame) (rest : List Frame) (op : Opcode) (w : Word)
    (x y : Int) : Prop where
  frames : m.frames = frame :: rest
  instruction : ∃ f, m.heap.function? frame.function = some f ∧ f.code[frame.ip]? = some w
  opcode : w.opcode? = some op
  fuelled : m.Fuelled
  operator : Arithmetic op
  left : ∃ v, m.stack[frame.base + w.b]? = some v ∧ v.asInt? = some x
  right : op ≠ .neg → ∃ u, m.stack[frame.base + w.c]? = some u ∧ u.asInt? = some y
  target : frame.base + w.a < m.stack.size

theorem intOperands_of_asInt? {v u : Value} (hv : v.asInt? = some x) (hu : u.asInt? = some y) :
    intOperands op v u = .ok (x, y) := by
  simp only [intOperands, hv, hu]

theorem kind_of_asInt? {v : Value} (h : v.asInt? = some x) : v.kind = .int := by
  by_contra hkind
  rw [Value.asInt?_eq_none hkind] at h
  cases h

/-- Two integers are not joined as strings are. -/
theorem binaryResult_eq {v u : Value} (hop : Arithmetic op) (hneg : op ≠ .neg)
    (hv : v.asInt? = some x) (hu : u.asInt? = some y) :
    binaryResult op v u = liftFault (intResult op x y) := by
  funext m
  have hstrings : bothStrings v u = false := by
    rw [bothStrings, kind_of_asInt? hv]
    rfl
  cases op <;> simp only [Arithmetic] at hop
  case neg => exact absurd rfl hneg
  case add =>
    simp only [binaryResult, addValues, hstrings, intOperands_of_asInt? hv hu]
    rfl
  all_goals
    simp only [binaryResult, intOperands_of_asInt? hv hu]
    rfl

theorem unaryResult_neg {v : Value} (hv : v.asInt? = some x) :
    unaryResult .neg v = intResult .neg x y := by
  have hzero : (Value.int 0).asInt? = some 0 := Value.asInt?_int (by decide)
  simp only [unaryResult, intOperands_of_asInt? hv hzero]
  rfl

variable {m : Machine} {frame : Frame} {rest : List Frame} {w : Word}

/-- The step computes the result and stores it, or stops at a fault. -/
theorem AboutToCompute.step_eq (h : m.AboutToCompute frame rest op w x y) :
    step m = match intResult op x y with
      | .ok r => .ok none ((m.past frame rest).store (frame.base + w.a) r)
      | .error e => .error e (m.past frame rest) := by
  obtain ⟨f, hf, hw⟩ := h.instruction
  obtain ⟨v, hv, hx⟩ := h.left
  have hwrite : ∀ r, writeReg frame.base w.a r (m.past frame rest) =
      .ok () ((m.past frame rest).store (frame.base + w.a) r) := fun r => writeReg_eq h.target
  have hread : readReg frame.base w.b (m.past frame rest) = .ok v (m.past frame rest) :=
    readReg_eq hv
  rw [step_performs h.frames hf hw h.fuelled h.opcode]
  have hperform : perform f frame.base op w (m.past frame rest) =
      (do let r ← liftFault (intResult op x y); writeReg frame.base w.a r; return none :
        Action (Option Value)) (m.past frame rest) := by
    by_cases hneg : op = .neg
    · subst hneg
      rw [← unaryResult_neg hx]
      exact bind_of_ok hread
    · obtain ⟨u, hu, hy⟩ := h.right hneg
      have hread' : readReg frame.base w.c (m.past frame rest) = .ok u (m.past frame rest) :=
        readReg_eq hu
      rw [← binaryResult_eq h.operator hneg hx hy]
      have hop := h.operator
      cases op <;> simp only [Arithmetic] at hop
      case neg => exact absurd rfl hneg
      all_goals exact (bind_of_ok hread).trans (bind_of_ok hread')
  rw [hperform]
  cases intResult op x y with
  | error e => rfl
  | ok r => exact bind_of_ok (hwrite r)

namespace AboutToCompute

/-- The exact result is stored, or an overflow is reported. -/
theorem settles (h : m.AboutToCompute frame rest op w x y) (hn : Exact op x y n) :
    Settles n (fun r => step m = .ok none ((m.past frame rest).store (frame.base + w.a) r))
      (step m = .error .integerOverflow (m.past frame rest)) := by
  refine settles_of_int? ?_
  rw [h.step_eq, intResult_of_exact hn, exactInt]
  cases Value.int? n <;> rfl

theorem divisionByZero_iff (h : m.AboutToCompute frame rest op w x y) :
    step m = .error .divisionByZero (m.past frame rest) ↔ Divides op ∧ y = 0 := by
  rw [h.step_eq]
  constructor
  · intro hzero
    by_contra hdivides
    obtain ⟨n, hn⟩ := (exists_exact_iff h.operator).2 hdivides
    rw [intResult_of_exact hn, exactInt] at hzero
    cases hint : Value.int? n <;> simp [hint] at hzero
  · rintro ⟨hdivides, rfl⟩
    rw [intResult_of_zero hdivides]

end AboutToCompute

/-! ## Primitives -/

/-- Primitives with one name are one. -/
theorem eq_of_name {p q : Primitive} (hp : p ∈ Standard.primitives) (hq : q ∈ Standard.primitives)
    (hname : p.name = q.name) : p = q :=
  List.inj_on_of_nodup_map (by decide) hp hq hname

variable {v u : Value} {host : Host}

theorem settles_abs (hv : v.asInt? = some x) :
    Settles |x| (fun r => Standard.abs [v] host = .ok r host)
      (Standard.abs [v] host = .error .integerOverflow host) := by
  refine settles_of_int? ?_
  simp only [Standard.abs, Standard.oneArgument, pure_bind, hv, Int.abs_eq_natAbs]
  cases Value.int? x.natAbs <;> rfl

theorem lesser_eq (hv : v.asInt? = some x) (hu : u.asInt? = some y) :
    Standard.lesser [v, u] host = .ok (.int (min x y)) host := by
  simp only [Standard.lesser, Standard.twoInts, hv, hu, pure_bind]
  rfl

theorem greater_eq (hv : v.asInt? = some x) (hu : u.asInt? = some y) :
    Standard.greater [v, u] host = .ok (.int (max x y)) host := by
  simp only [Standard.greater, Standard.twoInts, hv, hu, pure_bind]
  rfl

theorem fits_of_asInt? (h : v.asInt? = some x) : Value.fits x = true := by
  obtain ⟨n, hn, hfits, -⟩ := Value.asInt?_of_kind (kind_of_asInt? h)
  rw [h] at hn
  cases hn
  exact hfits

/-- Integer arithmetic is exact, or says what is the matter. An operator on integers has its exact
result stored or an overflow reported; it has none if it divides by zero, and just this is reported as
such. The magnitude, the lesser and the greater of integers are exact in the same way. Nor does it
matter whether a word of 64 bits overflows or a payload alone. -/
theorem integer_arithmetic_exact :
    (∀ {m : Machine} {frame : Frame} {rest : List Frame} {op : Opcode} {w : Word} {x y : Int},
      m.AboutToCompute frame rest op w x y →
        (∀ n, Exact op x y n →
          Settles n (fun r => step m = .ok none ((m.past frame rest).store (frame.base + w.a) r))
            (step m = .error .integerOverflow (m.past frame rest))) ∧
        ((∃ n, Exact op x y n) ↔ ¬(Divides op ∧ y = 0)) ∧
        (step m = .error .divisionByZero (m.past frame rest) ↔ Divides op ∧ y = 0)) ∧
      (∀ p ∈ Standard.primitives, ∀ {v u : Value} {x y : Int} (host : Host),
        v.asInt? = some x → u.asInt? = some y →
          (p.name = "abs" → Settles |x| (fun r => p.run [v] host = .ok r host)
            (p.run [v] host = .error .integerOverflow host)) ∧
          (p.name = "min" →
            ∃ r, r.asInt? = some (min x y) ∧ p.run [v, u] host = .ok r host) ∧
          (p.name = "max" →
            ∃ r, r.asInt? = some (max x y) ∧ p.run [v, u] host = .ok r host)) ∧
      ∀ {op : Opcode} {x y : Int64} {n : Int},
        Value.fits x.toInt = true → Value.fits y.toInt = true → Exact op x.toInt y.toInt n →
          ((checked? op x y).bind fun z => Value.int? z.toInt) = Value.int? n := by
  refine ⟨fun h => ⟨fun n => h.settles, exists_exact_iff h.operator, h.divisionByZero_iff⟩, ?_,
    int?_checked⟩
  intro p hp v u x y host hv hu
  refine ⟨fun hname => ?_, fun hname => ?_, fun hname => ?_⟩
  · obtain rfl : p = ⟨"abs", 1, Standard.abs⟩ :=
      eq_of_name hp (by simp [Standard.primitives]) hname
    exact settles_abs hv
  · obtain rfl : p = ⟨"min", 2, Standard.lesser⟩ :=
      eq_of_name hp (by simp [Standard.primitives]) hname
    exact ⟨_, Value.asInt?_int (Value.fits_min (fits_of_asInt? hv) (fits_of_asInt? hu)),
      lesser_eq hv hu⟩
  · obtain rfl : p = ⟨"max", 2, Standard.greater⟩ :=
      eq_of_name hp (by simp [Standard.primitives]) hname
    exact ⟨_, Value.asInt?_int (Value.fits_max (fits_of_asInt? hv) (fits_of_asInt? hu)),
      greater_eq hv hu⟩

/-- A machine about to execute an operator on the integers in its two registers; the result goes to
the first of them. -/
def computing (op : Opcode) (x y : Int) : Machine :=
  let main := Function.mk "main" 0 2 #[] #[Word.abc op 0 0 1]
  { Machine.new ⟨#[], #[main], 0⟩ .empty .standard .unbounded (some 1) with
    stack := #[.int x, .int y]
    frames := [⟨0, 0, 0, 0⟩] }

theorem computing_about (hop : Arithmetic op) (hx : Value.fits x = true) (hy : Value.fits y = true) :
    (computing op x y).AboutToCompute ⟨0, 0, 0, 0⟩ [] op (Word.abc op 0 0 1) x y where
  frames := rfl
  instruction := ⟨_, rfl, rfl⟩
  opcode := by cases op <;> rfl
  fuelled := by
    rintro limit ⟨⟩
    exact Nat.one_pos
  operator := hop
  left := ⟨.int x, by cases op <;> rfl, Value.asInt?_int hx⟩
  right := fun _ => ⟨.int y, by cases op <;> rfl, Value.asInt?_int hy⟩
  target := by cases op <;> exact Nat.two_pos

/-- The least integer divided by minus one fits no payload, but the remainder does; it cannot be
divided by zero. -/
theorem least_integer_divided :
    (computing .div (-2 ^ 59) (-1)).AboutToCompute ⟨0, 0, 0, 0⟩ [] .div (Word.abc .div 0 0 1)
        (-2 ^ 59) (-1) ∧
      step (computing .div (-2 ^ 59) (-1)) =
        .error .integerOverflow ((computing .div (-2 ^ 59) (-1)).past ⟨0, 0, 0, 0⟩ []) ∧
      (∃ (r : Value) (m : Machine), r.asInt? = some 0 ∧
        step (computing .mod (-2 ^ 59) (-1)) = .ok none m ∧ m.stack[0]? = some r) ∧
      step (computing .div (-2 ^ 59) 0) =
        .error .divisionByZero ((computing .div (-2 ^ 59) 0).past ⟨0, 0, 0, 0⟩ []) := by
  have hdivision : Truncated (-2 ^ 59) (-1) (2 ^ 59) 0 := truncated_tdiv (by decide)
  have hleast : Value.fits (-2 ^ 59) = true := by decide
  have hdiv := @computing_about .div _ (-1) trivial hleast (by decide)
  have hmod := @computing_about .mod _ (-1) trivial hleast (by decide)
  have hzero := @computing_about .div _ 0 trivial hleast (by decide)
  have hquotient := (integer_arithmetic_exact.1 hdiv).1 _ (.div hdivision)
  have hremainder := (integer_arithmetic_exact.1 hmod).1 _ (.mod hdivision)
  rw [Settles, if_neg (by decide)] at hquotient
  rw [Settles, if_pos (by decide)] at hremainder
  obtain ⟨r, hr, hstep⟩ := hremainder
  refine ⟨hdiv, hquotient, ⟨r, _, hr, hstep, store_self (by decide)⟩, ?_⟩
  exact (integer_arithmetic_exact.1 hzero).2.2.2 ⟨.inl rfl, rfl⟩

end Machine
end ScriptMachine
