import ScriptMachine.Proofs.Session.CompiledFiles
import ScriptMachine.Proofs.CommandLine.CompleteTexts

/-!
# Programs in one piece

A turn takes a line for a directive if its first character that is not blank is a hash, wherever the
line stands. No token and no gap between tokens has a hash in it, so in a program such a line begins in
a string literal or in a block comment. A program without such lines is compiled in one piece.
-/

namespace ScriptMachine.Session

open Text Source

/-! ## Lines that begin with a hash -/

/-- The first character that is not blank is a hash, and stands in the first line. -/
def BeginsWithHash (s : List Char) : Prop :=
  ∃ blanks rest, s = blanks ++ '#' :: rest ∧ ∀ c ∈ blanks, isBlank c = true ∧ c ≠ '\n'

/-- A line that begins with a hash stands in a text after the lines before it. -/
def HashedAt (source before : List Char) : Prop :=
  (before = [] ∨ ∃ u, before = u ++ ['\n']) ∧ ∃ s, source = before ++ s ∧ BeginsWithHash s

theorem BeginsWithHash.append {s : List Char} (h : BeginsWithHash s) (r : List Char) :
    BeginsWithHash (s ++ r) := by
  obtain ⟨blanks, rest, rfl, hblanks⟩ := h
  exact ⟨blanks, rest ++ r, by simp, hblanks⟩

theorem HashedAt.after_line {s before : List Char} (h : HashedAt s before) (l : List Char) :
    HashedAt (l ++ '\n' :: s) (l ++ '\n' :: before) := by
  obtain ⟨hstart, r, rfl, hr⟩ := h
  refine ⟨.inr ?_, r, by simp, hr⟩
  rcases hstart with rfl | ⟨u, rfl⟩
  · exact ⟨l, rfl⟩
  · exact ⟨l ++ '\n' :: u, by simp⟩

/-- A directive is a line of blanks, a hash and anything more. -/
theorem beginsWithHash_of_isDirectiveLine {l : Line} (hl : '\n' ∉ l) (h : isDirectiveLine l = true) :
    BeginsWithHash l := by
  rw [isDirectiveLine, beq_iff_eq] at h
  obtain ⟨rest, hrest⟩ := List.head?_eq_some_iff.1 h
  have hsplit : l = l.takeWhile isBlank ++ '#' :: rest := by
    rw [← hrest, trimStart, List.takeWhile_append_dropWhile]
  refine ⟨l.takeWhile isBlank, rest, hsplit, fun c hc => ⟨?_, ?_⟩⟩
  · exact List.all_eq_true.1 List.all_takeWhile c hc
  · rintro rfl
    exact hl (List.takeWhile_sublist isBlank |>.subset hc)

theorem isDirectiveLine_of_blanks {blanks : List Char} (h : ∀ c ∈ blanks, isBlank c = true)
    (rest : List Char) : isDirectiveLine (blanks ++ '#' :: rest) = true := by
  rw [isDirectiveLine, trimStart, List.dropWhile_append_of_pos h]
  rfl

/-- A directive among the lines of a text is a line of it that begins with a hash. -/
theorem hashedAt_of_mem_linesFrom {l : Line} (hdirective : isDirectiveLine l = true) (r line : List Char)
    (hline : '\n' ∉ line) (hl : l ∈ linesFrom line r) :
    ∃ before, HashedAt (line.reverse ++ r) before := by
  have hfirst : ∀ {m tail : List Char}, '\n' ∉ m → isDirectiveLine m = true →
      HashedAt (m ++ tail) [] := fun hm h =>
    ⟨.inl rfl, _, rfl, (beginsWithHash_of_isDirectiveLine hm h).append _⟩
  induction r generalizing line with
  | nil =>
    unfold linesFrom at hl
    split at hl
    · cases hl
    · obtain rfl := List.mem_singleton.1 hl
      exact ⟨[], hfirst (by simpa using hline) hdirective⟩
  | cons c r ih =>
    by_cases hc : c = '\n'
    · subst hc
      have hnext : l ∈ linesFrom [] r → ∃ before, HashedAt (line.reverse ++ '\n' :: r) before := by
        intro hmem
        obtain ⟨before, h⟩ := ih [] (by simp) hmem
        exact ⟨_, h.after_line line.reverse⟩
      rcases linesFrom_newline line r with ⟨l', rfl, heq⟩ | heq
      · rw [heq] at hl
        rcases List.mem_cons.1 hl with rfl | hmem
        · refine ⟨[], ?_⟩
          rw [List.reverse_cons, List.append_assoc]
          exact hfirst (by simpa using fun h => hline (List.mem_cons_of_mem _ h)) hdirective
        · exact hnext hmem
      · rw [heq] at hl
        rcases List.mem_cons.1 hl with rfl | hmem
        · exact ⟨[], hfirst (by simpa using hline) hdirective⟩
        · exact hnext hmem
    · rw [linesFrom_char hc] at hl
      have hnext := ih (c :: line) (by simpa using ⟨Ne.symm hc, hline⟩) hl
      simpa using hnext

/-- A line that has begun with a hash is a directive, however it goes on. -/
theorem linesFrom_hash {blanks : List Char} (hblanks : ∀ c ∈ blanks, isBlank c = true)
    (r more : List Char) : ∃ l ls, linesFrom (more ++ '#' :: blanks) r = l :: ls ∧
      isDirectiveLine l = true := by
  have hwhole : ∀ more : List Char, isDirectiveLine (more ++ '#' :: blanks).reverse = true := by
    intro more
    have hreverse : ∀ c ∈ blanks.reverse, isBlank c = true := by simpa using hblanks
    simpa using isDirectiveLine_of_blanks hreverse more.reverse
  induction r generalizing more with
  | nil =>
    unfold linesFrom
    rw [if_neg (by simp)]
    exact ⟨_, _, rfl, hwhole more⟩
  | cons c r ih =>
    by_cases hc : c = '\n'
    · subst hc
      rcases linesFrom_newline (more ++ '#' :: blanks) r with ⟨l, hl, heq⟩ | heq
      · -- The carriage return that is dropped does not stand before the hash.
        refine ⟨_, _, heq, ?_⟩
        cases more with
        | nil => exact absurd (List.cons.inj hl).1 (by decide)
        | cons d more =>
          rw [← (List.cons.inj hl).2]
          exact hwhole more
      · exact ⟨_, _, heq, hwhole more⟩
    · rw [linesFrom_char hc]
      exact ih (c :: more)

theorem exists_directive_of_blanks {blanks : List Char} (rest line : List Char)
    (hblanks : ∀ c ∈ blanks, isBlank c = true ∧ c ≠ '\n') (hline : ∀ c ∈ line, isBlank c = true) :
    ∃ l ∈ linesFrom line (blanks ++ '#' :: rest), isDirectiveLine l = true := by
  induction blanks generalizing line with
  | nil =>
    obtain ⟨l, ls, heq, hl⟩ := linesFrom_hash hline rest []
    refine ⟨l, ?_, hl⟩
    rw [List.nil_append, linesFrom_char (by decide)]
    exact heq ▸ List.mem_cons_self
  | cons c blanks ih =>
    obtain ⟨hc, hnewline⟩ := hblanks c List.mem_cons_self
    rw [List.cons_append, linesFrom_char hnewline]
    refine ih (c :: line) (fun d hd => hblanks d (List.mem_cons_of_mem _ hd)) fun d hd => ?_
    rcases List.mem_cons.1 hd with rfl | hd
    · exact hc
    · exact hline d hd

/-- The lines after a newline are lines of the text. -/
theorem mem_linesFrom_append {l : Line} {s : List Char} (hl : l ∈ linesFrom [] s) (u line : List Char) :
    l ∈ linesFrom line (u ++ '\n' :: s) := by
  induction u generalizing line with
  | nil =>
    rcases linesFrom_newline line s with ⟨_, _, heq⟩ | heq
    · exact heq ▸ List.mem_cons_of_mem _ hl
    · exact heq ▸ List.mem_cons_of_mem _ hl
  | cons c u ih =>
    by_cases hc : c = '\n'
    · subst hc
      rcases linesFrom_newline line (u ++ '\n' :: s) with ⟨_, _, heq⟩ | heq
      · exact heq ▸ List.mem_cons_of_mem _ (ih [])
      · exact heq ▸ List.mem_cons_of_mem _ (ih [])
    · rw [List.cons_append, linesFrom_char hc]
      exact ih (c :: line)

/-- A text has a directive just if a line of it begins with a hash. -/
theorem exists_directive_iff {source : List Char} :
    (∃ l ∈ lines source, isDirectiveLine l = true) ↔ ∃ before, HashedAt source before := by
  constructor
  · rintro ⟨l, hl, hdirective⟩
    exact hashedAt_of_mem_linesFrom hdirective source [] (by simp) hl
  · rintro ⟨before, hstart, s, rfl, blanks, rest, rfl, hblanks⟩
    obtain ⟨l, hl, hdirective⟩ := exists_directive_of_blanks rest [] hblanks (by simp)
    refine ⟨l, ?_, hdirective⟩
    rcases hstart with rfl | ⟨u, rfl⟩
    · exact hl
    · rw [List.append_assoc]
      exact mem_linesFrom_append hl u []

/-! ## Directives among the segments -/

theorem exists_directive_segment {l : Line} (hdirective : isDirectiveLine l = true) (ls pending : List Line)
    (index : Nat) (hl : l ∈ ls) : .directive (trim l) ∈ segmentsFrom index pending ls := by
  induction ls generalizing index pending with
  | nil => cases hl
  | cons m ls ih =>
    rw [segmentsFrom]
    rcases List.mem_cons.1 hl with rfl | hl
    · rw [if_pos hdirective]
      simp
    · split
      · exact List.mem_append_right _ (List.mem_cons_of_mem _ (ih _ _ hl))
      · split
        · split
          · exact ih _ _ hl
          · exact ih _ _ hl
        · exact ih _ _ hl

/-- A directive is a segment of its own. -/
theorem segments_of_directive {source : List Char} {l : Line} (hl : l ∈ lines source)
    (hdirective : isDirectiveLine l = true) : .directive (trim l) ∈ segments source := by
  have hmem := exists_directive_segment hdirective (lines source) [] 0 hl
  unfold segments
  split
  · next hnone => rw [hnone] at hmem; cases hmem
  · exact hmem

/-! ## Programs -/

/-- A scan sees a hash at the beginning of a line, unless it stands in a string or in a block comment. -/
theorem hash_mem_outside {source before : List Char} (h : HashedAt source before)
    (hclosed : (Region.code.after before).isClosed = true) : '#' ∈ outside .code source := by
  obtain ⟨hstart, s, rfl, blanks, rest, rfl, hblanks⟩ := h
  have hhash : '#' ∈ outside .code (blanks ++ '#' :: rest) := by
    have hscan := Scan.unmarked blanks (fun c hc => notMem_marks_of_isBlank (hblanks c hc).1)
      ('#' :: rest)
    have hcode := Scan.plain ['#'] (by simp) rest
    rw [hscan.outside_eq]
    exact List.mem_append_right _ (hcode.outside_eq ▸ List.mem_cons_self)
  rcases hstart with rfl | ⟨u, rfl⟩
  · exact hhash
  · obtain ⟨seen, next, hline⟩ := exists_endsLine .code u
    have hnext : next.isClosed = true := by
      have hend := (hline.scan []).closed_eq
      rw [hclosed, Region.after] at hend
      exact hend.symm
    have hcode : next = .code := by
      cases next with
      | code => rfl
      | string => cases hnext
      | lineComment => exact absurd rfl hline.notLine
      | blockComment star => cases hnext
    rw [List.append_assoc, List.singleton_append, (hline.scan _).outside_eq, hcode]
    exact List.mem_append_right _ hhash

/-- In a program only strings and block comments have lines that begin with a hash. -/
theorem not_isClosed_of_parse {source : String} {f : Fragment} (h : Fragment.parse source = .ok f)
    {before : List Char} (hat : HashedAt source.toList before) :
    (Region.code.after before).isClosed = false := by
  obtain ⟨stream, hlex, -⟩ := surplus_of_parse h
  have hscan := scan_of_lexFrom [] .start source.toList
  rw [← lex, hlex] at hscan
  obtain ⟨-, -, -, hhash, -⟩ := hscan
  exact Bool.eq_false_iff.2 fun hclosed => hhash (hash_mem_outside hat hclosed)

/-- A program is cut apart just where a line that begins with a hash stands in a string literal or in
a block comment. Without such lines it is one segment, the whole program but for its line ends, and a
turn compiles it in one piece. -/
theorem program_in_one_piece {source : String} {f : Fragment} (h : Fragment.parse source = .ok f) :
    ((∃ line, Segment.directive line ∈ segments source.toList) ↔
      ∃ before, HashedAt source.toList before ∧ (Region.code.after before).isClosed = false) ∧
    ((∀ before, HashedAt source.toList before → (Region.code.after before).isClosed = true) →
      ∃ t, segments source.toList = [.code t] ∧ Rebuilt source.toList t ∧
        ∀ s : Session, s.runTurn source = s.runSource t) := by
  have hnone : (¬ ∃ before, HashedAt source.toList before) →
      ∀ l ∈ lines source.toList, isDirectiveLine l = false := fun hat l hl =>
    Bool.eq_false_iff.2 fun hl' => hat (exists_directive_iff.1 ⟨l, hl, hl'⟩)
  refine ⟨⟨fun ⟨line, hline⟩ => ?_, fun ⟨before, hat, _⟩ => ?_⟩, fun hclosed => ?_⟩
  · by_cases hat : ∃ before, HashedAt source.toList before
    · obtain ⟨before, hat⟩ := hat
      exact ⟨before, hat, not_isClosed_of_parse h hat⟩
    · obtain ⟨t, ht, -⟩ := segments_rebuilt (hnone hat)
      rw [ht] at hline
      simp at hline
  · obtain ⟨l, hl, hdirective⟩ := exists_directive_iff.2 ⟨before, hat⟩
    exact ⟨_, segments_of_directive hl hdirective⟩
  · have hat : ¬ ∃ before, HashedAt source.toList before := fun ⟨before, hat⟩ =>
      absurd (hclosed before hat) (by simp [not_isClosed_of_parse h hat])
    obtain ⟨t, ht, hrebuilt⟩ := segments_rebuilt (hnone hat)
    refine ⟨t, ht, hrebuilt, fun s => ?_⟩
    unfold runTurn
    rw [runSegments_eq, ht]
    exact runPiece_code _ _ s t

/-- A program with hashes in strings and comments, but not at the beginning of a line. -/
def hashesText : String :=
  "let a = \"#\n-#\" // #\n/* # */ print(a)"

theorem hashesText_in_one_piece :
    ∃ t, segments hashesText.toList = [.code t] ∧ Rebuilt hashesText.toList t ∧
      ∀ s : Session, s.runTurn hashesText = s.runSource t := by
  have hparses : (Fragment.parse hashesText).toOption.isSome = true := by decide +kernel
  cases h : Fragment.parse hashesText with
  | error => rw [h] at hparses; cases hparses
  | ok f =>
    exact (program_in_one_piece h).2 fun before hat =>
      absurd (exists_directive_iff.2 ⟨before, hat⟩) (by decide +kernel)

/-- A program whose string goes on in a line that begins with a hash. -/
def hashedString : String :=
  "print(\"a\n#b\")"

/-- A program with a block comment that has such a line. -/
def hashedComment : String :=
  "/*\n# a\n*/ 1"

/-- Both are cut apart, and a turn fails on them. -/
theorem hashed_programs_cut :
    (Fragment.parse hashedString).toOption.isSome = true ∧
      segments hashedString.toList = [.code "print(\"a\n".toList, .directive "#b\")".toList] ∧
      ((Session.new standardCompiler (FileTree.empty []).toFiles ⟨some 100, 0⟩).runTurn
        hashedString).1.isSuccess = false ∧
      (Fragment.parse hashedComment).toOption.isSome = true ∧
      segments hashedComment.toList =
        [.code "/*\n".toList, .directive "# a".toList, .code "\n\n*/ 1\n".toList] ∧
      ((Session.new standardCompiler (FileTree.empty []).toFiles ⟨some 100, 0⟩).runTurn
        hashedComment).1.isSuccess = false := by
  decide +kernel

end ScriptMachine.Session
