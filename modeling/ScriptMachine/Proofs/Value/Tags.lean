import ScriptMachine.Value.Heap
import Mathlib.Data.Int.ModEq
import Mathlib.Tactic.IntervalCases

/-!
# Tags and payloads

A word is put together from a tag and a payload, and both can be read back. So each constructor of
values has a kind of its own, an integer that fits is read back as itself, and a handle is read back
as itself.

Shifts and masks do the same. A word is marked with its tag by a shift; an integer is cut to its payload
by a mask and gets its sign back by two shifts. What comes out is the integer that was put in, up to
multiples of the number of payloads, and no two things that a value can be made of share a word.
-/

namespace ScriptMachine.Value

/-! ## Words -/

theorem toNat_tagged {t p : Nat} (ht : t < 16) (hp : p < payloads) :
    (tagged t p).word.toNat = t * payloads + p := by
  unfold tagged
  simp only [payloads] at *
  rw [UInt64.toNat_ofNat']
  omega

theorem tag_tagged {t p : Nat} (ht : t < 16) (hp : p < payloads) : (tagged t p).tag = t := by
  rw [tag, toNat_tagged ht hp]
  simp only [payloads] at *
  omega

theorem payload_tagged {t p : Nat} (ht : t < 16) (hp : p < payloads) :
    (tagged t p).payload = p := by
  rw [payload, toNat_tagged ht hp]
  simp only [payloads] at *
  omega

theorem handle_lt_payloads (h : UInt32) : h.toNat < payloads := by
  have := h.toNat_lt
  simp only [payloads, Nat.reducePow] at *
  omega

theorem handle_tagged {t : Nat} (ht : t < 16) (h : UInt32) : (tagged t h.toNat).handle = h := by
  apply UInt32.toNat_inj.1
  rw [handle, UInt64.toNat_toUInt32, toNat_tagged ht (handle_lt_payloads h)]
  have := h.toNat_lt
  simp only [payloads, Nat.reducePow] at *
  omega

theorem int_payload_lt (n : Int) : (n % (payloads : Int)).toNat < payloads := by
  simp only [payloads]
  omega

/-- A word is its tag and its payload. -/
theorem eq_tagged (v : Value) : v = tagged v.tag v.payload := by
  obtain ⟨w⟩ := v
  have hw := w.toNat_lt
  simp only [tagged, tag, payload, payloads, Value.mk.injEq]
  apply UInt64.toNat_inj.1
  rw [UInt64.toNat_ofNat']
  omega

theorem tag_lt (v : Value) : v.tag < 16 := by
  have := v.word.toNat_lt
  simp only [tag, payloads]
  omega

theorem payload_lt (v : Value) : v.payload < payloads := by
  simp only [payload, payloads]
  omega

/-! ## Kinds -/

@[simp] theorem kind_int (n : Int) : (int n).kind = .int := by
  rw [kind, int, tag_tagged (by decide) (int_payload_lt n)]
  rfl

@[simp] theorem kind_nil : nil.kind = .nil := by decide

@[simp] theorem kind_bool (b : Bool) : (bool b).kind = if b then .yes else .no := by
  cases b <;> decide

@[simp] theorem kind_empty : empty.kind = .empty := by decide

@[simp] theorem kind_string (h : UInt32) : (string h).kind = .string := by
  rw [kind, string, tag_tagged (by decide) (handle_lt_payloads h)]
  rfl

@[simp] theorem kind_function (h : UInt32) : (function h).kind = .function := by
  rw [kind, function, tag_tagged (by decide) (handle_lt_payloads h)]
  rfl

@[simp] theorem kind_primitive (i : UInt32) : (primitive i).kind = .primitive := by
  rw [kind, primitive, tag_tagged (by decide) (handle_lt_payloads i)]
  rfl

/-- A word with the integer tag is an integer. -/
theorem tag_of_kind_int {v : Value} (h : v.kind = .int) : v.tag = 0 := by
  have hlt := tag_lt v
  unfold kind at h
  interval_cases v.tag <;> simp_all

/-! ## Reading back -/

@[simp] theorem handle_string (h : UInt32) : (string h).handle = h :=
  handle_tagged (by decide) h

@[simp] theorem handle_function (h : UInt32) : (function h).handle = h :=
  handle_tagged (by decide) h

@[simp] theorem handle_primitive (i : UInt32) : (primitive i).handle = i :=
  handle_tagged (by decide) i

@[simp] theorem asString?_string (h : UInt32) : (string h).asString? = some h := by
  simp [asString?]

theorem fits_iff (n : Int) : fits n = true ↔ -0x800000000000000 ≤ n ∧ n ≤ 0x7ffffffffffffff := by
  rw [fits, Bool.and_eq_true, decide_eq_true_iff, decide_eq_true_iff, minInt, maxInt]

theorem fits_min {x y : Int} (hx : fits x = true) (hy : fits y = true) :
    fits (min x y) = true := by
  rcases min_choice x y with h | h <;> rw [h] <;> assumption

theorem fits_max {x y : Int} (hx : fits x = true) (hy : fits y = true) :
    fits (max x y) = true := by
  rcases max_choice x y with h | h <;> rw [h] <;> assumption

/-- An integer that fits is read back as itself. -/
theorem asInt?_int {n : Int} (h : fits n = true) : (int n).asInt? = some n := by
  rw [fits_iff] at h
  have hp : (int n).payload = (n % (payloads : Int)).toNat :=
    payload_tagged (by decide) (int_payload_lt n)
  rw [asInt?, if_pos (kind_int n), hp, Option.some.injEq]
  simp only [payloads] at *
  omega

/-- What a word with the integer tag is read back as. -/
theorem asInt?_of_kind {v : Value} (h : v.kind = .int) :
    ∃ n, v.asInt? = some n ∧ fits n = true ∧ v = int n := by
  have hp := payload_lt v
  refine ⟨_, if_pos h, ?_, ?_⟩
  · rw [fits_iff]
    simp only [payloads] at *
    split <;> omega
  · rw [int, ← tag_of_kind_int h]
    conv_lhs => rw [eq_tagged v]
    congr 1
    simp only [payloads] at *
    split <;> omega

theorem asInt?_eq_none {v : Value} (h : v.kind ≠ .int) : v.asInt? = none :=
  if_neg h

@[simp] theorem asInt?_nil : nil.asInt? = none := asInt?_eq_none (by simp)

@[simp] theorem asInt?_bool (b : Bool) : (bool b).asInt? = none :=
  asInt?_eq_none (by cases b <;> simp)

@[simp] theorem asInt?_string (h : UInt32) : (string h).asInt? = none := asInt?_eq_none (by simp)

@[simp] theorem asInt?_function (h : UInt32) : (function h).asInt? = none :=
  asInt?_eq_none (by simp)

@[simp] theorem asInt?_primitive (i : UInt32) : (primitive i).asInt? = none :=
  asInt?_eq_none (by simp)

/-! ## Distinct values -/

theorem int_inj {m n : Int} (hm : fits m = true) (hn : fits n = true) (h : int m = int n) :
    m = n := by
  have := congrArg asInt? h
  rwa [asInt?_int hm, asInt?_int hn, Option.some.injEq] at this

theorem function_inj {g h : UInt32} (e : function g = function h) : g = h := by
  simpa using congrArg handle e

theorem primitive_inj {i j : UInt32} (e : primitive i = primitive j) : i = j := by
  simpa using congrArg handle e

/-! ## Shifts and masks -/

/-- A payload below its tag. -/
def marked (tag payload : UInt64) : UInt64 :=
  tag <<< 60 ||| payload

/-- The lower sixty bits of an integer in two's complement. -/
def lowerBits (n : Int64) : UInt64 :=
  n.toUInt64 &&& 0x0fffffffffffffff

/-- The payload of a word, shifted up to the sign and down again with it. -/
def signExtended (w : UInt64) : Int64 :=
  (w <<< 4).toInt64 >>> 4

theorem toNat_lowerBits (n : Int64) :
    (lowerBits n).toNat = (n.toInt % (payloads : Int)).toNat := by
  have hmask : (0x0fffffffffffffff : UInt64).toNat = 2 ^ 60 - 1 := by decide
  have hsigned : n.toInt = n.toBitVec.toInt := rfl
  have hunsigned : n.toUInt64.toNat = n.toBitVec.toNat := rfl
  have hlt := n.toBitVec.isLt
  rw [lowerBits, UInt64.toNat_and, hmask, Nat.and_two_pow_sub_one_eq_mod, hsigned, hunsigned,
    BitVec.toInt_eq_toNat_cond]
  simp only [payloads, Nat.reducePow] at *
  split <;> omega

/-- A tag and a payload have no bit in common, so it does not matter whether they are added. -/
theorem word_tagged {t : Nat} {p : UInt64} (ht : t < 16) (hp : p.toNat < payloads) :
    (tagged t p.toNat).word = marked (UInt64.ofNat t) p := by
  apply UInt64.toNat_inj.1
  have hshift : (UInt64.ofNat t <<< 60).toNat = t <<< 60 := by
    have hplaces : (60 : UInt64).toNat % 64 = 60 := by decide
    rw [UInt64.toNat_shiftLeft, UInt64.toNat_ofNat', hplaces, Nat.shiftLeft_eq, Nat.shiftLeft_eq]
    omega
  rw [toNat_tagged ht hp, marked, UInt64.toNat_or, hshift, ← Nat.shiftLeft_add_eq_or_of_lt hp,
    Nat.shiftLeft_eq]
  rfl

theorem word_int (n : Int64) : (int n.toInt).word = marked 0 (lowerBits n) := by
  have hlt := int_payload_lt n.toInt
  rw [← toNat_lowerBits] at hlt
  rw [int, ← toNat_lowerBits, word_tagged (by decide) hlt]
  rfl

theorem word_handle {t : Nat} (ht : t < 16) (h : UInt32) :
    (tagged t h.toNat).word = marked (UInt64.ofNat t) h.toUInt64 := by
  rw [← UInt32.toNat_toUInt64]
  exact word_tagged ht (by rw [UInt32.toNat_toUInt64]; exact handle_lt_payloads h)

/-- A shift takes the payload off the tag. -/
theorem tag_eq_shiftRight (v : Value) : v.tag = (v.word >>> 60).toNat := by
  have hplaces : (60 : UInt64).toNat % 64 = 60 := by decide
  rw [tag, UInt64.toNat_shiftRight, hplaces, Nat.shiftRight_eq_div_pow]
  rfl

/-- Only the payload matters to the sign. -/
theorem toInt_signExtended (w : UInt64) :
    (signExtended w).toInt = ((w.toNat % payloads : Nat) : Int).bmod payloads := by
  have hdown : (signExtended w).toInt = (w <<< 4).toInt64.toInt >>> (4 : Nat) := by
    have hbits : (signExtended w).toBitVec = (w <<< 4).toInt64.toBitVec.sshiftRight 4 := by
      rw [signExtended, Int64.toBitVec_shiftRight]
      rfl
    show (signExtended w).toBitVec.toInt = _
    rw [hbits, BitVec.toInt_sshiftRight]
    rfl
  have hup : (w <<< 4).toInt64.toInt = ((w <<< 4).toNat : Int).bmod (2 ^ 64) :=
    BitVec.toInt_eq_toNat_bmod _
  have hgone : (w <<< 4).toNat = w.toNat * 16 % 2 ^ 64 := by
    rw [UInt64.toNat_shiftLeft, Nat.shiftLeft_eq]
    rfl
  rw [hdown, hup, hgone, Int.shiftRight_eq_div_pow]
  simp only [Int.bmod_def, payloads]
  omega

/-! ## Integers read back -/

/-- The payload of an integer stands for the number next to zero that is congruent to it. -/
theorem asInt?_eq_bmod {v : Value} (h : v.kind = .int) :
    v.asInt? = some ((v.payload : Int).bmod payloads) := by
  have hlt := payload_lt v
  rw [asInt?, if_pos h, Option.some.injEq, Int.bmod_def]
  simp only [payloads] at *
  split_ifs <;> omega

/-- A word with the integer tag is read by giving its payload the sign back. -/
theorem asInt?_eq_signExtended {v : Value} (h : v.kind = .int) :
    v.asInt? = some (signExtended v.word).toInt := by
  rw [asInt?_eq_bmod h, toInt_signExtended, payload]

/-- The integers that fit a payload. -/
def InRange (n : Int) : Prop :=
  -2 ^ 59 ≤ n ∧ n ≤ 2 ^ 59 - 1

theorem fits_iff_inRange (n : Int) : fits n = true ↔ InRange n :=
  fits_iff n

/-- What an integer is read back as, whether it fits or not. -/
theorem asInt?_int_bmod (n : Int) : (int n).asInt? = some (n.bmod payloads) := by
  have hpayload : ((int n).payload : Int) = n % (payloads : Int) := by
    rw [int, payload_tagged (by decide) (int_payload_lt n)]
    exact Int.toNat_of_nonneg (Int.emod_nonneg n (by decide))
  rw [asInt?_eq_bmod (kind_int n), hpayload, Int.emod_bmod]

example : (int (2 ^ 59)).asInt? = some (-2 ^ 59) := by decide

/-- Of the integers in range just one is congruent to it. -/
theorem inRange_and_modEq_iff (n k : Int) :
    InRange k ∧ k ≡ n [ZMOD 2 ^ 60] ↔ k = n.bmod payloads := by
  unfold InRange Int.ModEq
  rw [Int.bmod_def]
  simp only [payloads]
  constructor
  · rintro ⟨hrange, hmod⟩
    split_ifs <;> omega
  · rintro rfl
    split_ifs <;> omega

theorem int?_eq_some_iff {n : Int} {v : Value} :
    int? n = some v ↔ fits n = true ∧ int n = v := by
  rw [int?, Option.ite_none_right_eq_some, Option.some.injEq]

theorem isSome_int?_iff (n : Int) : (int? n).isSome = true ↔ InRange n := by
  rw [← fits_iff_inRange, Option.isSome_iff_exists]
  simp only [int?_eq_some_iff, exists_and_left, exists_eq', and_true]

/-! ## Contents -/

/-- What a value can be made of. -/
inductive Content
  | int (n : Int) (fits : fits n = true)
  | nil
  | empty
  | bool (b : Bool)
  | string (handle : UInt32)
  | function (handle : UInt32)
  | primitive (index : UInt32)
deriving DecidableEq

/-- The tests on the kind of a value; both truth values pass the same one. -/
inductive KindTest
  | int
  | nil
  | empty
  | bool
  | string
  | function
  | primitive
deriving DecidableEq

/-- Whether a value passes a test. -/
def KindTest.passes : KindTest → Value → Bool
  | .int, v => v.kind == .int
  | .nil, v => v.kind == .nil
  | .empty, v => v.kind == .empty
  | .bool, v => v.asBool?.isSome
  | .string, v => v.kind == .string
  | .function, v => v.kind == .function
  | .primitive, v => v.kind == .primitive

namespace Content

/-- The value made of a content. -/
def value : Content → Value
  | .int n _ => Value.int n
  | .nil => Value.nil
  | .empty => Value.empty
  | .bool b => Value.bool b
  | .string h => Value.string h
  | .function h => Value.function h
  | .primitive i => Value.primitive i

/-- The word of that value, put together by shifts and masks. -/
def word : Content → UInt64
  | .int n _ => marked 0 (lowerBits (Int64.ofInt n))
  | .nil => marked 1 0
  | .empty => marked 4 0
  | .bool b => marked (if b then 3 else 2) 0
  | .string h => marked 5 h.toUInt64
  | .function h => marked 6 h.toUInt64
  | .primitive i => marked 7 i.toUInt64

/-- The test that the value passes. -/
def test : Content → KindTest
  | .int _ _ => .int
  | .nil => .nil
  | .empty => .empty
  | .bool _ => .bool
  | .string _ => .string
  | .function _ => .function
  | .primitive _ => .primitive

theorem word_value (c : Content) : c.value.word = c.word := by
  cases c with
  | int n hfits =>
    have hn : (Int64.ofInt n).toInt = n := by
      rw [fits_iff] at hfits
      rw [Int64.toInt_ofInt]
      exact Int.bmod_eq_of_le (by simp [Int64.size]; omega) (by simp [Int64.size]; omega)
    have hword := word_int (Int64.ofInt n)
    rwa [hn] at hword
  | nil => decide
  | empty => decide
  | bool b => cases b <;> decide
  | string h => exact word_handle (by decide) h
  | function h => exact word_handle (by decide) h
  | primitive i => exact word_handle (by decide) i

/-- A value passes its own test and no other. -/
theorem passes_iff (c : Content) (t : KindTest) : t.passes c.value = true ↔ t = c.test := by
  cases c with
  | bool b => cases b <;> cases t <;> simp [KindTest.passes, value, test, asBool?]
  | _ => cases t <;> simp [KindTest.passes, value, test, asBool?]

/-- Different contents make different values. -/
theorem value_injective : Function.Injective value := by
  intro c c' h
  -- values of different kinds do not pass the same test
  have htest : c.test = c'.test := (c'.passes_iff c.test).1 (h ▸ (c.passes_iff c.test).2 rfl)
  cases c with
  | int n hn =>
    cases c' with
    | int m hm =>
      obtain rfl : n = m := int_inj hn hm h
      rfl
    | _ => cases htest
  | nil => cases c' <;> first | rfl | cases htest
  | empty => cases c' <;> first | rfl | cases htest
  | bool b =>
    cases c' with
    | bool b' =>
      have hb := congrArg asBool? h
      cases b <;> cases b' <;> first | rfl | simp [value, asBool?] at hb
    | _ => cases htest
  | string g =>
    cases c' with
    | string g' =>
      have hg : g = g' := by simpa [value] using congrArg handle h
      rw [hg]
    | _ => cases htest
  | function g =>
    cases c' with
    | function g' => rw [function_inj h]
    | _ => cases htest
  | primitive i =>
    cases c' with
    | primitive i' => rw [primitive_inj h]
    | _ => cases htest

theorem word_eq_iff (c c' : Content) : c.value.word = c'.value.word ↔ c = c' := by
  refine ⟨fun h => value_injective ?_, fun h => h ▸ rfl⟩
  generalize c.value = v at h
  generalize c'.value = v' at h
  cases v
  exact congrArg Value.mk h

end Content

/-- Words are put together and read by shifts and masks. An integer is read back as the one integer in
range that is congruent to it, and is refused if that is another one; a handle is read back as itself.
Words are equal just if what they are made of is the same, and each passes one test. -/
theorem words_without_collision :
    (∀ v : Value, v.tag = (v.word >>> 60).toNat ∧
      (v.kind = .int → v.asInt? = some (signExtended v.word).toInt)) ∧
    (∀ n : Int64, (int n.toInt).word = marked 0 (lowerBits n) ∧
      ∃ m : Int, (int n.toInt).asInt? = some m ∧
        ∀ k : Int, InRange k ∧ k ≡ n.toInt [ZMOD 2 ^ 60] ↔ k = m) ∧
    (∀ n : Int64, ((int? n.toInt).isSome = true ↔ InRange n.toInt) ∧
      ∀ v, int? n.toInt = some v → v = int n.toInt ∧ v.asInt? = some n.toInt) ∧
    (∀ h : UInt32, (string h).asHandle? = some h ∧ (function h).asHandle? = some h ∧
      (primitive h).asHandle? = some h) ∧
    (∀ c : Content, c.value.word = c.word) ∧
    (∀ c c' : Content, c.value.word = c'.value.word ↔ c = c') ∧
    ∀ (c : Content) (t : KindTest), t.passes c.value = true ↔ t = c.test := by
  refine ⟨fun v => ⟨tag_eq_shiftRight v, asInt?_eq_signExtended⟩, fun n => ⟨word_int n, ?_⟩,
    fun n => ⟨isSome_int?_iff _, fun v hv => ?_⟩, fun h => ?_, Content.word_value,
    Content.word_eq_iff, Content.passes_iff⟩
  · exact ⟨_, asInt?_int_bmod n.toInt, inRange_and_modEq_iff n.toInt⟩
  · obtain ⟨hfits, rfl⟩ := int?_eq_some_iff.1 hv
    exact ⟨rfl, asInt?_int hfits⟩
  · simp [asHandle?]

end ScriptMachine.Value
