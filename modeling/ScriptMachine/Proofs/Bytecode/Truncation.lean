import ScriptMachine.Proofs.Bytecode.Canonical

/-!
# Files that are cut off or run on

No field of a file is optional and every table says how long it is, so a file shows where it ends. A
reader that is given only the first bytes of what was written runs out of bytes, wherever the cut
falls, and whatever stands after the main body is too much.
-/

namespace ScriptMachine.Bytecode

/-- A reader runs out of bytes on all that begins what was written, but is not the whole of it. -/
def CutShort {β : Type} (read : Bytes → Except LoadError β) (bytes : Bytes) : Prop :=
  ∀ cut, cut <+: bytes → cut ≠ bytes → read cut = .error .truncated

namespace CutShort

variable {α β : Type} {read : Reader α} {encode : α → Bytes} {fits : α → Prop}
  {next : α × Bytes → Except LoadError β} {first second : Bytes} {x : α}

/-- Nothing begins an empty text but itself. -/
theorem nil (read : Bytes → Except LoadError β) : CutShort read [] :=
  fun _ hcut hne => absurd (List.prefix_nil.1 hcut) hne

/-- What is too short for a reader does not reach it whole. -/
theorem of_length {read : Bytes → Except LoadError β}
    (h : ∀ cut : Bytes, cut.length < first.length → read cut = .error .truncated) :
    CutShort read first := by
  intro cut hcut hne
  refine h cut (Nat.lt_of_le_of_ne hcut.length_le fun hlength => ?_)
  exact hne (hcut.eq_of_length hlength)

/-- The tail of a tagged text is cut short where the whole is, unless not even the tag is left. -/
theorem cons {read : Bytes → Except LoadError β} {b : UInt8} (hnil : read [] = .error .truncated)
    (htail : CutShort (fun bytes => read (b :: bytes)) second) : CutShort read (b :: second) := by
  intro cut hcut hne
  cases cut with
  | nil => exact hnil
  | cons c cut =>
    obtain ⟨rfl, htaken⟩ := List.cons_prefix_cons.1 hcut
    exact htail cut htaken fun heq => hne (by rw [heq])

/-- What a reader misses it also misses when more is done afterwards. -/
theorem last (h : CutShort read first) : CutShort (fun bytes => read bytes >>= next) first := by
  intro cut hcut hne
  simp only [h cut hcut hne]
  rfl

/-- Of two texts the cut falls into the first, or behind it and into the second. -/
theorem bind (h : CutShort read first) (hread : ∀ rest, read (first ++ rest) = .ok (x, rest))
    (hnext : CutShort (fun bytes => next (x, bytes)) second) :
    CutShort (fun bytes => read bytes >>= next) (first ++ second) := by
  have hbehind : ∀ rest, rest <+: second → rest ≠ second →
      (read (first ++ rest) >>= next) = .error .truncated := by
    intro rest hrest hne
    rw [hread rest]
    exact hnext rest hrest hne
  intro cut hcut hne
  rcases List.prefix_or_prefix_of_prefix hcut (List.prefix_append first second) with
    hinside | ⟨rest, rfl⟩
  · by_cases hfirst : cut = first
    · subst hfirst
      have hempty : [] ≠ second := fun heq => hne (by rw [← heq, List.append_nil])
      simpa using hbehind [] (List.nil_prefix) hempty
    · exact last h cut hinside hfirst
  · have hrest : rest <+: second := (List.prefix_append_right_inj first).1 hcut
    exact hbehind rest hrest fun heq => hne (by rw [heq])

/-- So it is when a reader takes just what its writer writes. -/
theorem bind_inverts (hread : Inverts read encode fits) (hx : fits x)
    (h : CutShort read (encode x)) (hnext : CutShort (fun bytes => next (x, bytes)) second) :
    CutShort (fun bytes => read bytes >>= next) (encode x ++ second) :=
  h.bind (fun rest => (hread _ x rest).2 ⟨rfl, hx⟩) hnext

end CutShort

/-! ## Numbers and texts -/

theorem readNumber_of_short {w : Nat} {bytes : Bytes} (h : bytes.length < w) :
    readNumber w bytes = .error .truncated := by
  induction w generalizing bytes with
  | zero => exact absurd h (Nat.not_lt_zero _)
  | succ w ih =>
    cases bytes with
    | nil => rfl
    | cons b bytes =>
      rw [readNumber, ih (Nat.lt_of_succ_lt_succ h)]

theorem cutShort_number (w n : Nat) : CutShort (readNumber w) (littleEndian w n) :=
  .of_length fun cut hcut => readNumber_of_short (by rwa [length_littleEndian] at hcut)

theorem cutShort_bytes (bytes : Bytes) : CutShort (readBytes bytes.length) bytes := by
  refine .of_length fun cut hcut => ?_
  have hshort : (cut.take bytes.length).length ≠ bytes.length := by
    rw [List.length_take]
    omega
  unfold readBytes
  exact if_neg hshort

theorem cutShort_text (role : TextRole) {s : String} (hs : s.utf8ByteSize ≤ 4096) :
    CutShort (readText role) (encodeText s) := by
  have hcap : ¬s.utf8ByteSize > maxTextLength := Nat.not_lt.2 hs
  have hcontent := cutShort_bytes (utf8 s)
  rw [length_utf8] at hcontent
  refine .bind_inverts (inverts_number 4) (by omega) (cutShort_number 4 _) ?_
  simp only [if_neg hcap]
  exact hcontent.last

/-! ## Tables -/

section Tables

variable {α : Type} {read : Reader α} {encode : α → Bytes} {fits : α → Prop}

theorem readItems_succ (read : Reader α) (n : Nat) (done : List α) :
    readItems read (n + 1) done =
      fun bytes => read bytes >>= fun r => readItems read n (r.1 :: done) r.2 := by
  funext bytes
  rw [readItems]
  cases read bytes <;> rfl

theorem cutShort_items (h : Inverts read encode fits) (xs done : List α)
    (hxs : ∀ x ∈ xs, fits x ∧ CutShort read (encode x)) :
    CutShort (readItems read xs.length done) (xs.flatMap encode) := by
  induction xs generalizing done with
  | nil => exact .nil _
  | cons x xs ih =>
    obtain ⟨hfits, hcut⟩ := hxs x List.mem_cons_self
    rw [List.length_cons, readItems_succ, List.flatMap_cons]
    refine .bind_inverts h hfits hcut ?_
    exact ih (x :: done) fun y hy => hxs y (List.mem_cons_of_mem x hy)

theorem cutShort_table (role : TableRole) (h : Inverts read encode fits) {xs : Array α}
    (hsize : xs.size ≤ role.cap) (hxs : ∀ x ∈ xs.toList, fits x ∧ CutShort read (encode x)) :
    CutShort (readTable role read) (encodeTable encode xs.toList) := by
  have hcap : role.cap < 256 ^ 4 := by cases role <;> decide
  have hlength : ¬xs.toList.length > role.cap := by simpa using hsize
  refine .bind_inverts (inverts_number 4) (by omega) (cutShort_number 4 _) ?_
  simp only [if_neg hlength]
  exact (cutShort_items h xs.toList [] hxs).last

end Tables

/-! ## Constants and functions -/

theorem cutShort_index (i : UInt32) : CutShort readIndex (encodeU32 i.toNat) :=
  (cutShort_number 4 _).last

theorem cutShort_constant (c : Constant) : CutShort readConstant c.encode := by
  cases c with
  | int n => exact .cons rfl (cutShort_number 8 _).last
  | str i => exact .cons rfl (cutShort_index i).last
  | bool b => cases b <;> exact .cons rfl (.nil _)
  | nil => exact .cons rfl (.nil _)
  | fn i => exact .cons rfl (cutShort_index i).last

theorem cutShort_prototype {p : Prototype} (hp : p.WithinCaps) :
    CutShort readPrototype p.encode := by
  have hencode : p.encode = encodeText p.name ++ (littleEndian 1 p.arity.toNat ++
      (littleEndian 2 p.slots.toNat ++ (encodeTable Constant.encode p.constants.toList ++
        encodeTable Word.encode p.code.toList))) := by
    simp [Prototype.encode, littleEndian]
  have hconstants := cutShort_table .constants inverts_constant hp.constants
    fun c _ => ⟨trivial, cutShort_constant c⟩
  have hword : Inverts readIndex Word.encode fun _ => True := inverts_index
  have hcode := cutShort_table .code hword hp.code fun w _ => ⟨trivial, cutShort_index w⟩
  rw [hencode]
  refine .bind_inverts (inverts_text .functionName) hp.name (cutShort_text .functionName hp.name) ?_
  refine .bind_inverts (inverts_number 1) p.arity.toNat_lt (cutShort_number 1 _) ?_
  refine .bind_inverts (inverts_number 2) p.slots.toNat_lt (cutShort_number 2 _) ?_
  refine .bind_inverts (inverts_table .constants inverts_constant)
    ⟨hp.constants, fun _ _ => trivial⟩ hconstants ?_
  exact hcode.last

/-! ## Programs -/

theorem cutShort_magic : CutShort readMagic magic :=
  (cutShort_bytes magic).last

variable {p q : Program}

/-- A program is written as its magic word, its two tables and its main body. -/
theorem Program.encode_append (p : Program) (rest : Bytes) :
    p.encode ++ rest = magic ++ (encodeTable encodeText p.strings.toList ++
      (encodeTable Prototype.encode p.prototypes.toList ++ (p.main.encode ++ rest))) := by
  simp [Program.encode]

theorem Program.WithinCaps.main (h : p.WithinCaps) : p.main.WithinCaps :=
  h.bodies p.main (List.mem_append_right _ (List.mem_singleton.2 rfl))

theorem Program.WithinCaps.parts (h : p.WithinCaps) : ∀ b ∈ p.prototypes.toList, b.WithinCaps :=
  fun b hb => h.bodies b (List.mem_append_left _ hb)

/-- A file that is cut off is refused for the bytes that are missing. -/
theorem cutShort_program (h : p.WithinCaps) : CutShort Program.decode p.encode := by
  have hstrings := cutShort_table .strings (inverts_text .string) h.strings
    fun s hs => ⟨h.texts s hs, cutShort_text .string (h.texts s hs)⟩
  have hprototypes := cutShort_table .prototypes inverts_prototype h.prototypes
    fun b hb => ⟨h.parts b hb, cutShort_prototype (h.parts b hb)⟩
  rw [← List.append_nil p.encode, Program.encode_append, List.append_nil]
  refine .bind_inverts (x := ()) inverts_magic trivial cutShort_magic ?_
  refine .bind_inverts (inverts_table .strings (inverts_text .string)) ⟨h.strings, h.texts⟩ hstrings ?_
  refine .bind_inverts (inverts_table .prototypes inverts_prototype) ⟨h.prototypes, h.parts⟩
    hprototypes ?_
  exact (cutShort_prototype h.main).last

/-- Bytes after a file are too many. -/
theorem decode_encode_append (h : p.WithinCaps) {extra : Bytes} (hextra : extra ≠ []) :
    Program.decode (p.encode ++ extra) = .error .trailingBytes := by
  have hstrings := (inverts_table .strings (inverts_text .string) _ p.strings
    (encodeTable Prototype.encode p.prototypes.toList ++ (p.main.encode ++ extra))).2
    ⟨rfl, h.strings, h.texts⟩
  have hprototypes := (inverts_table .prototypes inverts_prototype _ p.prototypes
    (p.main.encode ++ extra)).2 ⟨rfl, h.prototypes, h.parts⟩
  have hmain := (inverts_prototype _ p.main extra).2 ⟨rfl, h.main⟩
  have hmagic := (inverts_magic _ () (encodeTable encodeText p.strings.toList ++
    (encodeTable Prototype.encode p.prototypes.toList ++ (p.main.encode ++ extra)))).2 ⟨rfl, trivial⟩
  have hleft : extra.isEmpty = false := by simpa using hextra
  rw [Program.encode_append]
  unfold Program.decode
  simp only [bind, Except.bind, hmagic, hstrings, hprototypes, hmain, hleft]
  rfl

/-- A file shows where it ends: one that is cut off, wherever that is, is refused for the bytes that are
missing, and one that runs on for the bytes that are too many. So no file begins another one. -/
theorem encoding_delimits_itself {p : Program} (h : p.WithinCaps) :
    (∀ cut, cut <+: p.encode → cut ≠ p.encode →
      ∃ e, Program.decode cut = .error e ∧ e.kind = .io) ∧
    (∀ extra, extra ≠ [] → Program.decode (p.encode ++ extra) = .error .trailingBytes ∧
      LoadError.trailingBytes.kind = .format) ∧
    ∀ q : Program, q.WithinCaps → p.encode <+: q.encode → p = q := by
  refine ⟨fun cut hcut hne => ⟨.truncated, cutShort_program h cut hcut hne, rfl⟩,
    fun extra hextra => ⟨decode_encode_append h hextra, rfl⟩, fun q hq hprefix => ?_⟩
  have hp : Program.decode p.encode = .ok p := decode_eq_ok_iff.2 ⟨rfl, h⟩
  by_cases heq : p.encode = q.encode
  · rw [heq, decode_eq_ok_iff.2 ⟨rfl, hq⟩] at hp
    exact (Except.ok.inj hp).symm
  · rw [cutShort_program hq _ hprefix heq] at hp
    cases hp

/-- The small program's file without its last byte, without all but its magic word, and with a byte
more. -/
theorem smallProgram_delimited :
    smallProgram.WithinCaps ∧
      (∃ e, Program.decode smallProgram.encode.dropLast = .error e ∧ e.kind = .io) ∧
      (∃ e, Program.decode magic = .error e ∧ e.kind = .io) ∧
      Program.decode (smallProgram.encode ++ [0]) = .error .trailingBytes := by
  have h := encoding_delimits_itself smallProgram_withinCaps
  refine ⟨smallProgram_withinCaps, h.1 _ (List.dropLast_prefix _) (by decide), h.1 _ ?_ (by decide),
    (h.2.1 [0] (by decide)).1⟩
  exact ⟨_, (Program.encode_append smallProgram []).symm.trans (List.append_nil _)⟩

end ScriptMachine.Bytecode
