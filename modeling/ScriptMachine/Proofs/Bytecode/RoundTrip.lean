import ScriptMachine.Bytecode.Decoding
import Mathlib.Algebra.Group.Nat.Defs

/-!
# Reading back what was written

A file that was written from a program is read back as that program, unless one of its parts is
longer than a reader accepts. Each reader takes back what its writer wrote and leaves what follows.
-/

namespace ScriptMachine.Bytecode

/-- What may become of reading something that was written: it is read as `x`, or turned down for
its length. -/
inductive Reads {α : Type} (x : α) : Except LoadError α → Prop
  | ok : Reads x (.ok x)
  | refused {e : LoadError} (h : e.kind = .security) : Reads x (.error e)

/-- A reader takes back what was written of `x` and leaves whatever follows. -/
def TakesBack {α : Type} (read : Reader α) (bytes : Bytes) (x : α) : Prop :=
  ∀ rest, Reads (x, rest) (read (bytes ++ rest))

/-- One reader after another. -/
theorem Reads.bind {α β : Type} {x : α} {y : β} {r : Except LoadError α}
    {next : α → Except LoadError β} (h : Reads x r) (hnext : Reads y (next x)) :
    Reads y (r >>= next) := by
  cases h with
  | ok => exact hnext
  | refused he => exact .refused he

/-! ## Numbers and texts -/

theorem readNumber_littleEndian (w n : Nat) (rest : Bytes) (h : n < 256 ^ w) :
    readNumber w (littleEndian w n ++ rest) = .ok (n, rest) := by
  induction w generalizing n with
  | zero =>
    have hn : n = 0 := by
      rw [Nat.pow_zero] at h
      omega
    rw [hn]
    rfl
  | succ w ih =>
    have hdiv : n / 256 < 256 ^ w := by
      rw [Nat.pow_succ] at h
      exact Nat.div_lt_of_lt_mul (by rwa [Nat.mul_comm] at h)
    show readNumber (w + 1) (UInt8.ofNat n :: (littleEndian w (n / 256) ++ rest)) = _
    simp only [readNumber, ih (n / 256) hdiv]
    rw [UInt8.toNat_ofNat', Nat.mod_add_div]

theorem reads_number (w n : Nat) (h : n < 256 ^ w) :
    TakesBack (readNumber w) (littleEndian w n) n := by
  intro rest
  rw [readNumber_littleEndian w n rest h]
  exact .ok

theorem reads_bytes (bytes : Bytes) : TakesBack (readBytes bytes.length) bytes bytes := by
  intro rest
  unfold readBytes
  rw [List.take_left, List.drop_left]
  simp only [if_true]
  exact .ok

theorem length_utf8 (s : String) : (utf8 s).length = s.utf8ByteSize := by
  show s.toByteArray.data.toList.length = s.toByteArray.size
  rw [Array.length_toList]
  rfl

theorem ofUtf8?_utf8 (s : String) : ofUtf8? (utf8 s) = some s := by
  unfold ofUtf8? utf8
  rw [Array.toArray_toList]
  show String.fromUTF8? s.toByteArray = some s
  rw [String.fromUTF8?, dif_pos s.isValidUTF8]
  rfl

theorem reads_text (role : TextRole) (s : String) (h : s.utf8ByteSize < 256 ^ 4) :
    TakesBack (readText role) (encodeText s) s := by
  intro rest
  unfold encodeText readText
  rw [List.append_assoc]
  refine (reads_number 4 _ h _).bind ?_
  dsimp only
  split
  · exact .refused rfl
  · refine Reads.bind (x := (utf8 s, rest)) ?_ ?_
    · rw [← length_utf8]
      exact reads_bytes (utf8 s) rest
    · simp only [ofUtf8?_utf8]
      exact .ok

/-! ## Tables -/

theorem reads_items {α : Type} {read : Reader α} {encode : α → Bytes} (xs done : List α)
    (hread : ∀ x ∈ xs, TakesBack read (encode x) x) (rest : Bytes) :
    Reads (done.reverse ++ xs, rest) (readItems read xs.length done (xs.flatMap encode ++ rest)) := by
  induction xs generalizing done with
  | nil =>
    rw [List.append_nil]
    exact .ok
  | cons x xs ih =>
    have hx := hread x (List.mem_cons_self ..) (xs.flatMap encode ++ rest)
    have hxs := ih (x :: done) fun y hy => hread y (List.mem_cons_of_mem x hy)
    rw [List.flatMap_cons, List.append_assoc, List.length_cons, readItems]
    generalize read (encode x ++ (xs.flatMap encode ++ rest)) = r at hx
    cases hx with
    | ok =>
      rw [List.reverse_cons, List.append_assoc] at hxs
      exact hxs
    | refused he => exact .refused he

theorem reads_table {α : Type} {read : Reader α} {encode : α → Bytes} (role : TableRole)
    (xs : Array α) (hlen : xs.size < 256 ^ 4)
    (hread : ∀ x ∈ xs.toList, TakesBack read (encode x) x) :
    TakesBack (readTable role read) (encodeTable encode xs.toList) xs := by
  intro rest
  unfold encodeTable readTable
  rw [List.append_assoc, Array.length_toList]
  refine (reads_number 4 _ hlen _).bind ?_
  dsimp only
  split
  · exact .refused rfl
  · refine Reads.bind (x := (xs.toList, rest)) ?_ ?_
    · have h := reads_items xs.toList [] hread rest
      rwa [Array.length_toList] at h
    · exact .ok

/-! ## Constants and functions -/

theorem reads_index (i : UInt32) : TakesBack readIndex (encodeU32 i.toNat) i := by
  intro rest
  refine (reads_number 4 _ i.toNat_lt _).bind ?_
  dsimp only
  rw [UInt32.ofNat_toNat]
  exact .ok

theorem reads_constant (c : Constant) : TakesBack readConstant c.encode c := by
  intro rest
  cases c with
  | int n =>
    refine (reads_number 8 _ n.toUInt64.toNat_lt _).bind ?_
    dsimp only
    rw [UInt64.ofNat_toNat]
    exact .ok
  | str i => exact (reads_index i rest).bind .ok
  | bool b => cases b <;> exact .ok
  | nil => exact .ok
  | fn i => exact (reads_index i rest).bind .ok

/-- No part of a function is too long for its length to be written. -/
structure Prototype.Measured (p : Prototype) : Prop where
  name : p.name.utf8ByteSize < 256 ^ 4
  constants : p.constants.size < 256 ^ 4
  code : p.code.size < 256 ^ 4

theorem reads_prototype (p : Prototype) (h : p.Measured) :
    TakesBack readPrototype p.encode p := by
  intro rest
  have harity : TakesBack (readNumber 1) [p.arity] p.arity.toNat := by
    have hnumber := reads_number 1 p.arity.toNat p.arity.toNat_lt
    rwa [littleEndian, littleEndian, UInt8.ofNat_toNat] at hnumber
  unfold Prototype.encode readPrototype
  simp only [List.append_assoc]
  refine (reads_text _ _ h.name _).bind ?_
  refine (harity _).bind ?_
  refine (reads_number 2 _ p.slots.toNat_lt _).bind ?_
  refine (reads_table .constants _ h.constants (fun c _ => reads_constant c) _).bind ?_
  refine (reads_table .code _ h.code (fun w _ => reads_index w) _).bind ?_
  dsimp only
  rw [UInt8.ofNat_toNat, UInt16.ofNat_toNat]
  exact .ok

/-! ## Programs -/

/-- No part of a program is too long for its length to be written. -/
structure Program.Measured (p : Program) : Prop where
  strings : p.strings.size < 256 ^ 4
  texts : ∀ s ∈ p.strings.toList, s.utf8ByteSize < 256 ^ 4
  prototypes : p.prototypes.size < 256 ^ 4
  bodies : ∀ b ∈ p.bodies, b.Measured

theorem reads_magic : TakesBack readMagic magic () := by
  intro rest
  refine (reads_bytes magic rest).bind ?_
  dsimp only
  rw [if_pos rfl]
  exact .ok

theorem reads_program {p : Program} (h : p.Measured) : Reads p (Program.decode p.encode) := by
  have hmain : p.main.Measured := h.bodies _ (List.mem_append_right _ (List.mem_singleton.2 rfl))
  have hparts : ∀ b ∈ p.prototypes.toList, TakesBack readPrototype b.encode b := fun b hb =>
    reads_prototype b (h.bodies b (List.mem_append_left _ hb))
  have htexts : ∀ s ∈ p.strings.toList, TakesBack (readText .string) (encodeText s) s :=
    fun s hs => reads_text .string s (h.texts s hs)
  unfold Program.encode Program.decode
  simp only [List.append_assoc]
  refine (reads_magic _).bind ?_
  refine (reads_table .strings _ h.strings htexts _).bind ?_
  refine (reads_table .prototypes _ h.prototypes hparts _).bind ?_
  have hlast := reads_prototype p.main hmain []
  rw [List.append_nil] at hlast
  exact hlast.bind .ok

/-! ## Lengths -/

theorem length_le_flatMap {α : Type} {encode : α → Bytes} {xs : List α}
    (h : ∀ x ∈ xs, 0 < (encode x).length) : xs.length ≤ (xs.flatMap encode).length := by
  induction xs with
  | nil => exact Nat.le_refl _
  | cons x xs ih =>
    have hx := h x (List.mem_cons_self ..)
    have hxs := ih fun y hy => h y (List.mem_cons_of_mem x hy)
    rw [List.flatMap_cons, List.length_append, List.length_cons]
    omega

theorem length_encode_le {α : Type} (encode : α → Bytes) {xs : List α} {x : α} (h : x ∈ xs) :
    (encode x).length ≤ (encodeTable encode xs).length := by
  have hx := (List.sublist_flatten_of_mem (List.mem_map_of_mem (f := encode) h)).length_le
  rw [encodeTable, List.length_append, List.flatMap_def]
  omega

theorem length_le_encodeTable {α : Type} {encode : α → Bytes} (xs : List α)
    (h : ∀ x ∈ xs, 0 < (encode x).length) : xs.length ≤ (encodeTable encode xs).length := by
  have hxs := length_le_flatMap h
  rw [encodeTable, List.length_append]
  omega

theorem utf8ByteSize_le_encodeText (s : String) : s.utf8ByteSize ≤ (encodeText s).length := by
  rw [encodeText, List.length_append, length_utf8]
  omega

theorem length_encodeText_pos (s : String) : 0 < (encodeText s).length := by
  rw [encodeText, List.length_append, encodeU32, length_littleEndian]
  omega

theorem length_encodeConstant_pos (c : Constant) : 0 < c.encode.length := by
  cases c with
  | bool b => cases b <;> exact Nat.zero_lt_succ _
  | _ => exact Nat.zero_lt_succ _

theorem length_encodeWord_pos (w : Word) : 0 < (Word.encode w).length := by
  rw [Word.encode, encodeU32, length_littleEndian]
  omega

theorem Prototype.measured_of_length {p : Prototype} (h : p.encode.length < 256 ^ 4) :
    p.Measured := by
  have hname := utf8ByteSize_le_encodeText p.name
  have hconstants := length_le_encodeTable p.constants.toList fun c _ =>
    length_encodeConstant_pos c
  have hcode := length_le_encodeTable p.code.toList fun w _ => length_encodeWord_pos w
  rw [Array.length_toList] at hconstants hcode
  simp only [Prototype.encode, List.length_append] at h
  exact ⟨by omega, by omega, by omega⟩

theorem Prototype.length_encode_pos (p : Prototype) : 0 < p.encode.length := by
  have h := length_encodeText_pos p.name
  simp only [Prototype.encode, List.length_append]
  omega

theorem Program.measured_of_length {p : Program} (h : p.encode.length < 256 ^ 4) :
    p.Measured := by
  have hstrings := length_le_encodeTable p.strings.toList fun s _ =>
    length_encodeText_pos s
  have hprototypes := length_le_encodeTable p.prototypes.toList fun b _ =>
    b.length_encode_pos
  rw [Array.length_toList] at hstrings hprototypes
  simp only [Program.encode, List.length_append] at h
  refine ⟨by omega, fun s hs => ?_, by omega, fun b hb => ?_⟩
  · have htable := length_encode_le encodeText hs
    have htext := utf8ByteSize_le_encodeText s
    omega
  · apply Prototype.measured_of_length
    rcases List.mem_append.1 hb with hb | hb
    · have htable := length_encode_le Prototype.encode hb
      omega
    · rw [List.mem_singleton.1 hb]
      omega

/-- What was written of a program is read as that program, unless a part of it is longer than a
reader takes. -/
theorem decode_encode {p : Program} (h : p.encode.length < 256 ^ 4) :
    Reads p (Program.decode p.encode) :=
  reads_program (Program.measured_of_length h)

end ScriptMachine.Bytecode
