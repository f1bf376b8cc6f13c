import ScriptMachine.Bytecode.Encoding
import Mathlib.Data.Char
import Mathlib.Data.List.Lex
import Mathlib.Data.UInt
import Mathlib.Order.Monotone.Basic
import Mathlib.Tactic.SplitIfs

/-!
# The order of texts and of their bytes

Texts are ordered by their characters, and characters by their code points. The order of the bytes that
encode them is the same: the bytes of a character are digits of its code point after a first byte that
grows with the number of digits, so the greater of two characters has the greater byte where they first
differ, and neither is the beginning of the other.
-/

namespace ScriptMachine.Bytecode

/-! ## Digits -/

/-- A number as a first byte, counted from `lead`, and `k` digits to the base 64, each marked as one that
goes on. -/
def digitBytes (lead : Nat) : (k : Nat) → Nat → Bytes
  | 0, n => [UInt8.ofNat (lead + n)]
  | k + 1, n => digitBytes lead k (n / 64) ++ [UInt8.ofNat (n % 64 + 128)]

theorem exists_digitBytes_eq_cons (lead k n : Nat) :
    ∃ rest, digitBytes lead k n = UInt8.ofNat (lead + n / 64 ^ k) :: rest := by
  induction k generalizing n with
  | zero => exact ⟨[], by rw [digitBytes, Nat.pow_zero, Nat.div_one]⟩
  | succ k ih =>
    obtain ⟨rest, hrest⟩ := ih (n / 64)
    refine ⟨rest ++ [UInt8.ofNat (n % 64 + 128)], ?_⟩
    rw [digitBytes, hrest, Nat.div_div_eq_div_mul, ← Nat.pow_succ']
    rfl

theorem ofNat_lt_ofNat {m n : Nat} (h : m < n) (hn : n < 256) : UInt8.ofNat m < UInt8.ofNat n := by
  rw [UInt8.lt_iff_toNat_lt, UInt8.toNat_ofNat_of_lt' (Nat.lt_trans h hn),
    UInt8.toNat_ofNat_of_lt' hn]
  exact h

/-- Where the first byte is greater, what follows does not matter. -/
theorem digitBytes_lt_of_lead {lead lead' k k' m n : Nat} (h : lead + m / 64 ^ k < lead' + n / 64 ^ k')
    (hn : lead' + n / 64 ^ k' < 256) (x y : Bytes) :
    digitBytes lead k m ++ x < digitBytes lead' k' n ++ y := by
  obtain ⟨rest, hrest⟩ := exists_digitBytes_eq_cons lead k m
  obtain ⟨rest', hrest'⟩ := exists_digitBytes_eq_cons lead' k' n
  rw [hrest, hrest', List.cons_append, List.cons_append, List.cons_lt_cons_iff]
  exact .inl (ofNat_lt_ofNat h hn)

/-- The greater of two numbers has the greater digit where they first differ. -/
theorem digitBytes_lt {lead k m n : Nat} (h : m < n) (hn : lead + n / 64 ^ k < 256) (x y : Bytes) :
    digitBytes lead k m ++ x < digitBytes lead k n ++ y := by
  induction k generalizing m n x y with
  | zero =>
    refine digitBytes_lt_of_lead ?_ hn x y
    rwa [Nat.pow_zero, Nat.div_one, Nat.div_one, Nat.add_lt_add_iff_left]
  | succ k ih =>
    rw [digitBytes, digitBytes, List.append_assoc, List.append_assoc]
    rcases Nat.lt_or_eq_of_le (Nat.div_le_div_right (c := 64) (Nat.le_of_lt h)) with hlt | heq
    · refine ih hlt ?_ _ _
      rwa [Nat.div_div_eq_div_mul, ← Nat.pow_succ']
    · rw [heq]
      refine List.append_left_lt ?_
      rw [List.singleton_append, List.singleton_append, List.cons_lt_cons_iff]
      exact .inl (ofNat_lt_ofNat (by omega) (by omega))

/-! ## Characters -/

/-- The bytes of a character are digits of its code point, at most three after the first. -/
theorem utf8EncodeChar_cases (c : Char) :
    (c.toNat < 128 ∧ String.utf8EncodeChar c = digitBytes 0 0 c.toNat) ∨
    (128 ≤ c.toNat ∧ c.toNat < 2048 ∧ String.utf8EncodeChar c = digitBytes 192 1 c.toNat) ∨
    (2048 ≤ c.toNat ∧ c.toNat < 65536 ∧ String.utf8EncodeChar c = digitBytes 224 2 c.toNat) ∨
    65536 ≤ c.toNat ∧ c.toNat < 1114112 ∧ String.utf8EncodeChar c = digitBytes 240 3 c.toNat := by
  have hmax : c.toNat < 1114112 := by
    have hvalid := c.valid
    unfold UInt32.isValidChar Nat.isValidChar at hvalid
    unfold Char.toNat
    omega
  have hval : c.val.toNat = c.toNat := rfl
  simp only [digitBytes, List.cons_append, List.nil_append, Nat.div_div_eq_div_mul,
    String.utf8EncodeChar, hval]
  split_ifs with h1 h2 h3
  · exact .inl ⟨by omega, by simp⟩
  · refine .inr (.inl ⟨by omega, by omega, ?_⟩)
    rw [Nat.mod_eq_of_lt (by omega : c.toNat / 64 < 32), Nat.add_comm 192]
  · refine .inr (.inr (.inl ⟨by omega, by omega, ?_⟩))
    rw [Nat.mod_eq_of_lt (by omega : c.toNat / 4096 < 16), Nat.add_comm 224]
  · refine .inr (.inr (.inr ⟨by omega, hmax, ?_⟩))
    rw [Nat.mod_eq_of_lt (by omega : c.toNat / 262144 < 8), Nat.add_comm 240]

/-- The greater of two characters has the greater bytes, whatever follows them. -/
theorem utf8EncodeChar_lt {c d : Char} (h : c < d) (x y : Bytes) :
    String.utf8EncodeChar c ++ x < String.utf8EncodeChar d ++ y := by
  have hcd : c.toNat < d.toNat := h
  rcases utf8EncodeChar_cases c with ⟨hc, heq⟩ | ⟨hc, hc', heq⟩ | ⟨hc, hc', heq⟩ | ⟨hc, hc', heq⟩ <;>
  rcases utf8EncodeChar_cases d with ⟨hd, heq'⟩ | ⟨hd, hd', heq'⟩ | ⟨hd, hd', heq'⟩ | ⟨hd, hd', heq'⟩
  all_goals first | omega | rw [heq, heq']
  all_goals
    first
    | exact digitBytes_lt hcd (by omega) x y
    | exact digitBytes_lt_of_lead (by omega) (by omega) x y

/-! ## Texts -/

theorem flatMap_utf8EncodeChar_lt {cs ds : List Char} (h : cs < ds) :
    cs.flatMap String.utf8EncodeChar < ds.flatMap String.utf8EncodeChar := by
  induction h with
  | @nil d ds =>
    obtain ⟨b, rest, hd⟩ := List.exists_cons_of_ne_nil (String.utf8EncodeChar_ne_nil (c := d))
    rw [List.flatMap_nil, List.flatMap_cons, hd]
    exact List.nil_lt_cons b _
  | rel h =>
    rw [List.flatMap_cons, List.flatMap_cons]
    exact utf8EncodeChar_lt h _ _
  | cons _ ih =>
    rw [List.flatMap_cons, List.flatMap_cons]
    exact List.append_left_lt ih

theorem utf8_eq (s : String) : utf8 s = s.toList.flatMap String.utf8EncodeChar := by
  rw [utf8, String.toUTF8, ← String.utf8Encode_toList, List.utf8Encode, List.toList_data_toByteArray]

/-- A text is less than another just if its bytes are. -/
theorem utf8_lt_iff {s t : String} : utf8 s < utf8 t ↔ s < t := by
  rw [utf8_eq, utf8_eq, String.lt_iff]
  refine ⟨fun h => ?_, flatMap_utf8EncodeChar_lt⟩
  rcases lt_trichotomy s.toList t.toList with hlt | heq | hgt
  · exact hlt
  · rw [heq] at h
    exact absurd h (List.lt_irrefl _)
  · exact absurd h (List.lt_asymm (flatMap_utf8EncodeChar_lt hgt))

/-- A character of four bytes is greater than one of three; its two units of 16 bits would come first. -/
example : utf8 "\uffff" < utf8 "𐀀" := by
  decide

/-- A text is less than another just if its code points are. -/
theorem codePoints_lt_iff {s t : String} :
    s.toList.map Char.toNat < t.toList.map Char.toNat ↔ s < t := by
  rw [String.lt_iff]
  have hmono : StrictMono fun cs : List Char => cs.map Char.toNat :=
    fun _ _ => List.map_lt fun _ _ h => h
  exact hmono.lt_iff_lt

end ScriptMachine.Bytecode
