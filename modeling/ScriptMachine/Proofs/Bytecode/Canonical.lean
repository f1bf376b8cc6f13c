import ScriptMachine.Proofs.Bytecode.RoundTrip

/-!
# One encoding for each program

A reader accepts exactly what its writer writes of the things within its caps, and leaves what
follows. This holds of every reader, from a number to a whole file, so the files that are accepted
are the encodings of the programs within the caps, and a program outside them is turned down for its
length.
-/

namespace ScriptMachine.Bytecode

/-- A reader accepts what a writer writes of the things that satisfy `fits`, and nothing else. -/
def Inverts {α : Type} (read : Reader α) (encode : α → Bytes) (fits : α → Prop) : Prop :=
  ∀ bytes x rest, read bytes = .ok (x, rest) ↔ bytes = encode x ++ rest ∧ fits x

theorem bind_ok_iff {α β : Type} {r : Except LoadError α} {next : α → Except LoadError β} {y : β} :
    (r >>= next) = .ok y ↔ ∃ x, r = .ok x ∧ next x = .ok y := by
  cases r with
  | error e =>
    constructor
    · intro h
      cases h
    · rintro ⟨_, h, _⟩
      cases h
  | ok x =>
    constructor
    · exact fun h => ⟨x, rfl, h⟩
    · rintro ⟨_, hx, h⟩
      cases hx
      exact h

/-- One reader after another accepts what one writer writes after another. -/
theorem bind_iff {α β : Type} {read : Reader α} {encode : α → Bytes} {fits : α → Prop}
    (h : Inverts read encode fits) {next : α × Bytes → Except LoadError β} {bytes : Bytes} {y : β} :
    (read bytes >>= next) = .ok y ↔
      ∃ x rest, bytes = encode x ++ rest ∧ fits x ∧ next (x, rest) = .ok y := by
  rw [bind_ok_iff]
  constructor
  · rintro ⟨⟨x, rest⟩, hread, hnext⟩
    obtain ⟨hbytes, hfits⟩ := (h bytes x rest).1 hread
    exact ⟨x, rest, hbytes, hfits, hnext⟩
  · rintro ⟨x, rest, hbytes, hfits, hnext⟩
    exact ⟨(x, rest), (h bytes x rest).2 ⟨hbytes, hfits⟩, hnext⟩

/-! ## Numbers and texts -/

theorem inverts_number (w : Nat) : Inverts (readNumber w) (littleEndian w) (· < 256 ^ w) := by
  intro bytes n rest
  constructor
  · intro h
    induction w generalizing bytes n with
    | zero =>
      cases h
      exact ⟨rfl, Nat.one_pos⟩
    | succ w ih =>
      cases bytes with
      | nil => cases h
      | cons b bytes =>
        rw [readNumber] at h
        cases hread : readNumber w bytes with
        | error e =>
          rw [hread] at h
          cases h
        | ok r =>
          obtain ⟨k, tail⟩ := r
          rw [hread] at h
          cases h
          obtain ⟨rfl, hk⟩ := ih _ _ hread
          have hb := b.toNat_lt
          have hdiv : (b.toNat + 256 * k) / 256 = k := by omega
          refine ⟨?_, by rw [Nat.pow_succ]; omega⟩
          rw [littleEndian, hdiv, ← UInt8.ofNat_toNat (x := b)]
          simp
  · rintro ⟨rfl, hn⟩
    exact readNumber_littleEndian w n rest hn

theorem inverts_bytes (n : Nat) : Inverts (readBytes n) id (·.length = n) := by
  intro bytes taken rest
  unfold readBytes
  constructor
  · intro h
    dsimp only at h
    split at h
    · next hlength =>
      cases h
      exact ⟨(List.take_append_drop n bytes).symm, hlength⟩
    · cases h
  · rintro ⟨rfl, rfl⟩
    simp

theorem ofUtf8?_eq_some_iff {bytes : Bytes} {s : String} :
    ofUtf8? bytes = some s ↔ bytes = utf8 s := by
  constructor
  · intro h
    unfold ofUtf8? String.fromUTF8? at h
    split at h
    · cases h
      rfl
    · cases h
  · rintro rfl
    exact ofUtf8?_utf8 s

theorem inverts_text (role : TextRole) :
    Inverts (readText role) encodeText (·.utf8ByteSize ≤ 4096) := by
  intro bytes s rest
  unfold readText
  rw [bind_iff (inverts_number 4)]
  constructor
  · rintro ⟨n, tail, rfl, -, h⟩
    dsimp only at h
    split at h
    · cases h
    · next hcap =>
      obtain ⟨taken, tail, rfl, hlength, h⟩ := (bind_iff (inverts_bytes n)).1 h
      dsimp only at h
      split at h
      · cases h
      · next heq =>
        cases h
        rw [ofUtf8?_eq_some_iff] at heq
        subst heq
        rw [length_utf8] at hlength
        subst hlength
        exact ⟨(List.append_assoc ..).symm, Nat.le_of_not_lt hcap⟩
  · rintro ⟨rfl, hcap⟩
    refine ⟨s.utf8ByteSize, utf8 s ++ rest, List.append_assoc .., by omega, ?_⟩
    have hcap' : ¬s.utf8ByteSize > maxTextLength := Nat.not_lt.2 hcap
    dsimp only
    rw [if_neg hcap', bind_iff (inverts_bytes _)]
    refine ⟨utf8 s, rest, rfl, length_utf8 s, ?_⟩
    dsimp only
    rw [ofUtf8?_utf8]

/-! ## Tables -/

section Tables

variable {α : Type} {read : Reader α} {encode : α → Bytes} {fits : α → Prop}

theorem readItems_iff (h : Inverts read encode fits) (n : Nat) (done ys : List α)
    (bytes rest : Bytes) : readItems read n done bytes = .ok (ys, rest) ↔
      ∃ xs, ys = done.reverse ++ xs ∧ xs.length = n ∧ bytes = xs.flatMap encode ++ rest ∧
        ∀ x ∈ xs, fits x := by
  -- the reader gathers items in reverse, so what is `done` is general
  induction n generalizing done bytes with
  | zero =>
    constructor
    · intro hread
      cases hread
      exact ⟨[], (List.append_nil _).symm, rfl, rfl, fun x hx => by cases hx⟩
    · rintro ⟨xs, rfl, hlength, rfl, -⟩
      rw [List.length_eq_zero_iff] at hlength
      subst hlength
      rw [List.append_nil]
      rfl
  | succ n ih =>
    constructor
    · intro hread
      rw [readItems] at hread
      cases hfirst : read bytes with
      | error e =>
        rw [hfirst] at hread
        cases hread
      | ok r =>
        obtain ⟨x, tail⟩ := r
        rw [hfirst] at hread
        obtain ⟨rfl, hx⟩ := (h _ _ _).1 hfirst
        obtain ⟨xs, rfl, rfl, rfl, hxs⟩ := (ih _ _).1 hread
        refine ⟨x :: xs, by simp, rfl, by simp, ?_⟩
        exact fun y hy => (List.mem_cons.1 hy).elim (fun he => he ▸ hx) (hxs y)
    · rintro ⟨xs, rfl, hlength, rfl, hxs⟩
      obtain ⟨x, xs, rfl⟩ := List.exists_cons_of_length_eq_add_one hlength
      have hfirst := (h _ x (xs.flatMap encode ++ rest)).2 ⟨rfl, hxs x (List.mem_cons_self ..)⟩
      rw [List.flatMap_cons, List.append_assoc, readItems, hfirst]
      exact (ih _ _).2 ⟨xs, by simp, by simpa using hlength, rfl,
        fun y hy => hxs y (List.mem_cons_of_mem x hy)⟩

theorem inverts_table (role : TableRole) (h : Inverts read encode fits) :
    Inverts (readTable role read) (fun xs => encodeTable encode xs.toList)
      fun xs => xs.size ≤ role.cap ∧ ∀ x ∈ xs.toList, fits x := by
  intro bytes xs rest
  have hcap : role.cap < 256 ^ 4 := by cases role <;> decide
  unfold readTable
  rw [bind_iff (inverts_number 4)]
  constructor
  · rintro ⟨n, tail, rfl, -, hread⟩
    dsimp only at hread
    split at hread
    · cases hread
    · next hn =>
      obtain ⟨⟨items, rest⟩, hitems, hread⟩ := bind_ok_iff.1 hread
      cases hread
      obtain ⟨xs, rfl, rfl, rfl, hxs⟩ := (readItems_iff h ..).1 hitems
      exact ⟨(List.append_assoc ..).symm, by simpa using hn, by simpa using hxs⟩
  · rintro ⟨rfl, hsize, hxs⟩
    refine ⟨xs.toList.length, _, List.append_assoc .., by simp; omega, ?_⟩
    have hn : ¬xs.toList.length > role.cap := by simpa using hsize
    dsimp only
    rw [if_neg hn, bind_ok_iff]
    exact ⟨(xs.toList, rest), (readItems_iff h ..).2 ⟨_, rfl, rfl, rfl, hxs⟩, rfl⟩

end Tables

/-! ## Constants and functions -/

theorem inverts_index : Inverts readIndex (fun i => encodeU32 i.toNat) fun _ => True := by
  intro bytes i rest
  unfold readIndex
  rw [bind_iff (inverts_number 4)]
  constructor
  · rintro ⟨n, tail, rfl, hn, h⟩
    cases h
    have hn' : (UInt32.ofNat n).toNat = n := UInt32.toNat_ofNat_of_lt' hn
    exact ⟨by simp only [encodeU32, hn'], trivial⟩
  · rintro ⟨rfl, -⟩
    exact ⟨i.toNat, rest, rfl, i.toNat_lt, by simp⟩

theorem inverts_constant : Inverts readConstant Constant.encode fun _ => True := by
  intro bytes c rest
  constructor
  · intro h
    unfold readConstant at h
    split at h
    · cases h
    · obtain ⟨n, tail, rfl, hn, h⟩ := (bind_iff (inverts_number 8)).1 h
      cases h
      refine ⟨?_, trivial⟩
      have hn' : (UInt64.ofNat n).toNat = n := UInt64.toNat_ofNat_of_lt' hn
      simp [Constant.encode, hn']
    · obtain ⟨i, tail, rfl, -, h⟩ := (bind_iff inverts_index).1 h
      cases h
      exact ⟨rfl, trivial⟩
    · cases h
      exact ⟨rfl, trivial⟩
    · cases h
      exact ⟨rfl, trivial⟩
    · obtain ⟨i, tail, rfl, -, h⟩ := (bind_iff inverts_index).1 h
      cases h
      exact ⟨rfl, trivial⟩
    · cases h
      exact ⟨rfl, trivial⟩
    · cases h
  · rintro ⟨rfl, -⟩
    cases c with
    | int n =>
      exact (bind_iff (inverts_number 8)).2 ⟨n.toUInt64.toNat, rest, rfl, n.toUInt64.toNat_lt, by simp⟩
    | str i => exact (bind_iff inverts_index).2 ⟨i, rest, rfl, trivial, rfl⟩
    | bool b => cases b <;> rfl
    | nil => rfl
    | fn i => exact (bind_iff inverts_index).2 ⟨i, rest, rfl, trivial, rfl⟩

/-- The parts of a function are within the caps of a reader. -/
structure Prototype.WithinCaps (p : Prototype) : Prop where
  name : p.name.utf8ByteSize ≤ 4096
  constants : p.constants.size ≤ 65536
  code : p.code.size ≤ 1000000

theorem inverts_prototype : Inverts readPrototype Prototype.encode Prototype.WithinCaps := by
  intro bytes p rest
  have hconstants := inverts_table .constants inverts_constant
  have hwords : Inverts readIndex Word.encode fun _ => True := inverts_index
  have hcode := inverts_table .code hwords
  unfold readPrototype
  rw [bind_iff (inverts_text .functionName)]
  constructor
  · rintro ⟨name, tail, rfl, hname, h⟩
    obtain ⟨arity, tail, rfl, harity, h⟩ := (bind_iff (inverts_number 1)).1 h
    obtain ⟨slots, tail, rfl, hslots, h⟩ := (bind_iff (inverts_number 2)).1 h
    obtain ⟨constants, tail, rfl, hconstants, h⟩ := (bind_iff hconstants).1 h
    obtain ⟨code, tail, rfl, hcode, h⟩ := (bind_iff hcode).1 h
    cases h
    have hslots' : (UInt16.ofNat slots).toNat = slots := UInt16.toNat_ofNat_of_lt' hslots
    refine ⟨?_, hname, hconstants.1, hcode.1⟩
    unfold Prototype.encode
    dsimp only
    rw [hslots']
    simp [littleEndian]
  · rintro ⟨rfl, hcaps⟩
    have harity : littleEndian 1 p.arity.toNat = [p.arity] := by
      simp [littleEndian]
    refine ⟨p.name, [p.arity] ++ (littleEndian 2 p.slots.toNat ++
      (encodeTable Constant.encode p.constants.toList ++
        (encodeTable Word.encode p.code.toList ++ rest))), by simp [Prototype.encode], hcaps.name, ?_⟩
    refine (bind_iff (inverts_number 1)).2 ⟨_, _, by rw [harity], p.arity.toNat_lt, ?_⟩
    refine (bind_iff (inverts_number 2)).2 ⟨_, _, rfl, p.slots.toNat_lt, ?_⟩
    refine (bind_iff hconstants).2 ⟨_, _, rfl, ⟨hcaps.constants, fun _ _ => trivial⟩, ?_⟩
    refine (bind_iff hcode).2 ⟨_, _, rfl, ⟨hcaps.code, fun _ _ => trivial⟩, ?_⟩
    simp

/-! ## Programs -/

/-- The parts of a program are within the caps of a reader. -/
structure Program.WithinCaps (p : Program) : Prop where
  strings : p.strings.size ≤ 1000000
  texts : ∀ s ∈ p.strings.toList, s.utf8ByteSize ≤ 4096
  prototypes : p.prototypes.size ≤ 65535
  bodies : ∀ b ∈ p.bodies, b.WithinCaps

theorem inverts_magic : Inverts readMagic (fun _ => magic) fun _ => True := by
  intro bytes x rest
  unfold readMagic
  rw [bind_iff (inverts_bytes _)]
  constructor
  · rintro ⟨taken, tail, rfl, -, h⟩
    dsimp only at h
    split at h
    · next heq =>
      cases h
      exact ⟨by rw [← heq]; rfl, trivial⟩
    · cases h
  · rintro ⟨rfl, -⟩
    exact ⟨magic, rest, rfl, rfl, if_pos rfl⟩

/-- The files that are read are the encodings of the programs within the caps. -/
theorem decode_eq_ok_iff {bytes : Bytes} {p : Program} :
    Program.decode bytes = .ok p ↔ bytes = p.encode ∧ p.WithinCaps := by
  have hstrings := inverts_table .strings (inverts_text .string)
  have hprototypes := inverts_table .prototypes inverts_prototype
  unfold Program.decode
  rw [bind_iff inverts_magic]
  constructor
  · rintro ⟨_, tail, rfl, -, h⟩
    obtain ⟨strings, tail, rfl, hstrings, h⟩ := (bind_iff hstrings).1 h
    obtain ⟨prototypes, tail, rfl, hprototypes, h⟩ := (bind_iff hprototypes).1 h
    obtain ⟨main, tail, rfl, hmain, h⟩ := (bind_iff inverts_prototype).1 h
    dsimp only at h
    split at h
    · next hempty =>
      cases h
      rw [List.isEmpty_iff] at hempty
      subst hempty
      refine ⟨by simp [Program.encode], hstrings.1, hstrings.2, hprototypes.1, fun b hb => ?_⟩
      rcases List.mem_append.1 hb with hb | hb
      · exact hprototypes.2 b hb
      · rwa [List.mem_singleton.1 hb]
    · cases h
  · rintro ⟨rfl, hcaps⟩
    have hmain := hcaps.bodies p.main (List.mem_append_right _ (List.mem_singleton.2 rfl))
    have hparts : ∀ b ∈ p.prototypes.toList, b.WithinCaps := fun b hb =>
      hcaps.bodies b (List.mem_append_left _ hb)
    refine ⟨(), encodeTable encodeText p.strings.toList ++
      (encodeTable Prototype.encode p.prototypes.toList ++ (p.main.encode ++ [])),
      by simp [Program.encode], trivial, ?_⟩
    refine (bind_iff hstrings).2 ⟨_, _, rfl, ⟨hcaps.strings, hcaps.texts⟩, ?_⟩
    refine (bind_iff hprototypes).2 ⟨_, _, rfl, ⟨hcaps.prototypes, hparts⟩, ?_⟩
    exact (bind_iff inverts_prototype).2 ⟨_, _, rfl, hmain, rfl⟩

/-- A program with a part beyond its cap is turned down for a length, as long as its lengths can be
written. -/
theorem decode_encode_of_not_withinCaps {p : Program} (hp : p.Measured) (h : ¬p.WithinCaps) :
    ∃ e, Program.decode p.encode = .error e ∧ e.kind = .security := by
  have hread := reads_program hp
  generalize hr : Program.decode p.encode = r at hread
  cases hread with
  | ok => exact absurd (decode_eq_ok_iff.1 hr).2 h
  | refused he => exact ⟨_, rfl, he⟩

/-- Writing and reading are inverse to each other between the programs within the caps and the files
that are accepted, and a program beyond a cap is turned down for it. -/
theorem codec_bijective :
    (∀ bytes p, Program.decode bytes = .ok p ↔ bytes = p.encode ∧ p.WithinCaps) ∧
    (∀ p : Program, p.WithinCaps → Program.decode p.encode = .ok p) ∧
    (∀ bytes p, Program.decode bytes = .ok p → p.encode = bytes) ∧
    ∀ p : Program, p.Measured → ¬p.WithinCaps →
      ∃ e, Program.decode p.encode = .error e ∧ e.kind = .security :=
  ⟨fun _ _ => decode_eq_ok_iff, fun _ h => decode_eq_ok_iff.2 ⟨rfl, h⟩,
    fun _ _ h => (decode_eq_ok_iff.1 h).1.symm, fun _ => decode_encode_of_not_withinCaps⟩

/-- A program with one word of code more than a reader takes. -/
def crowdedProgram : Program :=
  ⟨#[], #[], ⟨"main", 0, 1, #[], .replicate 1000001 0⟩⟩

/-- A program with a part of each kind. -/
def smallProgram : Program :=
  ⟨#["text"], #[⟨"f", 1, 2, #[.int (-1), .bool true], #[7]⟩], ⟨"main", 0, 1, #[.str 0, .fn 0, .nil], #[0, 1]⟩⟩

theorem smallProgram_withinCaps : smallProgram.WithinCaps where
  strings := by decide
  texts := by decide
  prototypes := by decide
  bodies b hb := by
    have hcases : b = smallProgram.prototypes[0] ∨ b = smallProgram.main := by
      simpa [Program.bodies, smallProgram] using hb
    rcases hcases with rfl | rfl
    · exact ⟨by decide, by decide, by decide⟩
    · exact ⟨by decide, by decide, by decide⟩

theorem crowdedProgram_measured : crowdedProgram.Measured where
  strings := by decide
  texts s hs := by cases hs
  prototypes := by decide
  bodies b hb := by
    rw [List.mem_singleton.1 hb]
    exact ⟨by decide, by decide, by simp [crowdedProgram]⟩

theorem crowdedProgram_not_withinCaps : ¬crowdedProgram.WithinCaps := by
  intro h
  have hcode := (h.bodies crowdedProgram.main (List.mem_singleton.2 rfl)).code
  simp [crowdedProgram] at hcode

theorem codec_bijective_applied :
    Program.decode smallProgram.encode = .ok smallProgram ∧
      ∃ e, Program.decode crowdedProgram.encode = .error e ∧ e.kind = .security :=
  ⟨codec_bijective.2.1 _ smallProgram_withinCaps,
    codec_bijective.2.2.2 _ crowdedProgram_measured crowdedProgram_not_withinCaps⟩

end ScriptMachine.Bytecode
