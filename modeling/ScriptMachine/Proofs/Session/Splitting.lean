import ScriptMachine.Proofs.Scoping.ErrorPlaces
import ScriptMachine.Proofs.Session.CompiledFiles

/-!
# Where the segments of a fragment stand

A fragment is made of directives and of the runs of lines between them. Its segments are those parts,
in their order, without the runs that hold nothing; and what a code segment has in a line is what the
fragment has in that line, or nothing. The loop over the lines is cut at each directive: up to there it
skips blank lines, opens a segment at the first other line, and closes it.
-/

namespace ScriptMachine.Session

open Text Source Compile

/-! ## Lines of a text -/

/-- A newline ends the first line of a text. -/
theorem splitOn_line {l : Line} (hl : '\n' ∉ l) (t : List Char) :
    (l ++ '\n' :: t).splitOn '\n' = l :: t.splitOn '\n' :=
  List.splitOnP_append_cons_of_forall_mem
    (fun c hc => by simpa using fun h : c = '\n' => hl (h ▸ hc)) '\n' (by simp) t

/-- Lines that are put together are cut apart again. -/
theorem splitOn_unlines {ls : List Line} (hls : ∀ l ∈ ls, '\n' ∉ l) (t : List Char) :
    (unlines ls ++ t).splitOn '\n' = ls ++ t.splitOn '\n' := by
  induction ls with
  | nil => rfl
  | cons l ls ih =>
    obtain ⟨hl, hrest⟩ := List.forall_mem_cons.1 hls
    rw [unlines_cons, List.append_assoc, List.cons_append, splitOn_line hl, ih hrest,
      List.cons_append]

/-- A text is made of lines that have ended and of one that has not. -/
theorem exists_unlines (s : List Char) : ∃ ls last, s = unlines ls ++ last ∧
    (∀ l ∈ ls, '\n' ∉ l) ∧ '\n' ∉ last := by
  induction s with
  | nil => exact ⟨[], [], rfl, by simp, by simp⟩
  | cons c s ih =>
    obtain ⟨ls, last, rfl, hls, hlast⟩ := ih
    by_cases hc : c = '\n'
    · subst hc
      refine ⟨[] :: ls, last, by rw [unlines_cons]; rfl, ?_, hlast⟩
      exact List.forall_mem_cons.2 ⟨List.not_mem_nil, hls⟩
    · have hne : '\n' ≠ c := fun h => hc h.symm
      cases ls with
      | nil =>
        exact ⟨[], c :: last, rfl, by simp, List.not_mem_cons_of_ne_of_not_mem hne hlast⟩
      | cons l ls =>
        obtain ⟨hl, hrest⟩ := List.forall_mem_cons.1 hls
        refine ⟨(c :: l) :: ls, last, by rw [unlines_cons, unlines_cons]; rfl, ?_, hlast⟩
        exact List.forall_mem_cons.2 ⟨List.not_mem_cons_of_ne_of_not_mem hne hl, hrest⟩

/-- The lines of a text are made of its characters. -/
theorem mem_of_mem_splitOn {text : List Char} {piece : Line} (h : piece ∈ text.splitOn '\n') {c : Char}
    (hc : c ∈ piece) : c ∈ text := by
  obtain ⟨ls, last, rfl, hls, hlast⟩ := exists_unlines text
  rw [splitOn_unlines hls, List.splitOn_eq_singleton hlast] at h
  rcases List.mem_append.1 h with h | h
  · exact List.mem_append_left _
      (List.mem_flatMap.2 ⟨piece, h, List.mem_append_left _ hc⟩)
  · rw [List.mem_singleton.1 h] at hc
    exact List.mem_append_right _ hc

theorem newline_notMem_of_mem_linesFrom {line r : List Char} (hline : '\n' ∉ line) :
    ∀ l ∈ linesFrom line r, '\n' ∉ l := by
  induction r generalizing line with
  | nil =>
    unfold linesFrom
    split
    · simp
    · simpa using hline
  | cons c r ih =>
    by_cases hc : c = '\n'
    · subst hc
      have hrest : ∀ l ∈ linesFrom [] r, '\n' ∉ l := ih List.not_mem_nil
      rcases linesFrom_newline line r with ⟨l, rfl, heq⟩ | heq
      · rw [heq]
        refine List.forall_mem_cons.2 ⟨?_, hrest⟩
        simpa using fun h => hline (List.mem_cons_of_mem _ h)
      · rw [heq]
        exact List.forall_mem_cons.2 ⟨by simpa using hline, hrest⟩
    · rw [linesFrom_char hc]
      exact ih (List.not_mem_cons_of_ne_of_not_mem (fun h => hc h.symm) hline)

theorem newline_notMem_of_mem_lines (source : List Char) : ∀ l ∈ lines source, '\n' ∉ l :=
  newline_notMem_of_mem_linesFrom List.not_mem_nil

/-- Where all lines are blank, so is the text. -/
theorem isBlank_of_linesFrom {line r : List Char}
    (h : ∀ l ∈ linesFrom line r, isBlankLine l = true) : ∀ c ∈ line.reverse ++ r, isBlank c = true := by
  induction r generalizing line with
  | nil =>
    cases line with
    | nil => simp
    | cons c line =>
      have hline := h (c :: line).reverse (by simp [linesFrom])
      rw [List.append_nil]
      exact List.all_eq_true.1 hline
  | cons c r ih =>
    by_cases hc : c = '\n'
    · subst hc
      -- what ends the line is blank too
      have hends : ∀ l, (∀ d ∈ l, isBlank d = true) → (∀ d ∈ r, isBlank d = true) →
          ∀ d ∈ l ++ '\n' :: r, isBlank d = true := fun l hl hr d hd => by
        rcases List.mem_append.1 hd with hd | hd
        · exact hl d hd
        · rcases List.mem_cons.1 hd with rfl | hd
          · decide
          · exact hr d hd
      rcases linesFrom_newline line r with ⟨l, rfl, heq⟩ | heq
      · rw [heq] at h
        obtain ⟨hl, hrest⟩ := List.forall_mem_cons.1 h
        have hline : ∀ d ∈ ('\r' :: l).reverse, isBlank d = true := fun d hd => by
          rcases List.mem_cons.1 (List.mem_reverse.1 hd) with rfl | hd
          · decide
          · exact List.all_eq_true.1 hl d (List.mem_reverse.2 hd)
        exact hends _ hline (by simpa using ih hrest)
      · rw [heq] at h
        obtain ⟨hl, hrest⟩ := List.forall_mem_cons.1 h
        exact hends _ (List.all_eq_true.1 hl) (by simpa using ih hrest)
    · rw [linesFrom_char hc] at h
      simpa using ih h

/-- A blank line is no directive. -/
theorem isDirectiveLine_of_isBlankLine {l : Line} (h : isBlankLine l = true) :
    isDirectiveLine l = false := by
  have htrim : trimStart l = [] := by
    rw [trimStart, List.dropWhile_eq_nil_iff]
    exact List.all_eq_true.1 h
  rw [isDirectiveLine, htrim]
  rfl

/-! ## Places in a text -/

theorem after_of_newline_notMem {l : Line} (hl : '\n' ∉ l) (p : Position) :
    p.after l = ⟨p.line, p.col + l.length⟩ := by
  induction l generalizing p with
  | nil => rfl
  | cons c l ih =>
    have hc : c ≠ '\n' := fun h => hl (h ▸ List.mem_cons_self)
    rw [Position.after_cons, ih (fun h => hl (List.mem_cons_of_mem c h)), Position.next, if_neg hc,
      List.length_cons, Nat.add_right_comm, Nat.add_assoc]

theorem line_after_unlines {ls : List Line} (hls : ∀ l ∈ ls, '\n' ∉ l) (n : Nat) :
    (⟨n, 1⟩ : Position).after (unlines ls) = ⟨n + ls.length, 1⟩ := by
  induction ls generalizing n with
  | nil => rfl
  | cons l ls ih =>
    obtain ⟨hl, hrest⟩ := List.forall_mem_cons.1 hls
    rw [unlines_cons, Position.after_append, after_of_newline_notMem hl, Position.after_cons,
      Position.next, if_pos rfl, ih hrest, List.length_cons, Nat.add_right_comm, Nat.add_assoc]

/-- A place of a text is in one of its lines, or right after it. -/
theorem exists_line_of_isPlaceOf {text : List Char} {p : Position} (h : IsPlaceOf text p) :
    1 ≤ p.line ∧ ∃ piece, (text.splitOn '\n')[p.line - 1]? = some piece ∧
      1 ≤ p.col ∧ p.col ≤ piece.length + 1 := by
  obtain ⟨before, ⟨after, rfl⟩, rfl⟩ := h
  obtain ⟨ls, last, rfl, hls, hlast⟩ := exists_unlines before
  have hplace : Position.start.after (unlines ls ++ last) = ⟨1 + ls.length, 1 + last.length⟩ := by
    rw [Position.after_append, Position.start, line_after_unlines hls, after_of_newline_notMem hlast]
  have hpieces : ∃ u rest, (unlines ls ++ last ++ after).splitOn '\n' = ls ++ (last ++ u) :: rest := by
    obtain ⟨ms, end', rfl, hms, hend⟩ := exists_unlines after
    rw [List.append_assoc, splitOn_unlines hls]
    cases ms with
    | nil =>
      refine ⟨end', [], congrArg _ (List.splitOn_eq_singleton ?_)⟩
      simpa [unlines] using ⟨hlast, hend⟩
    | cons m ms =>
      obtain ⟨hm, hms⟩ := List.forall_mem_cons.1 hms
      have hline : '\n' ∉ last ++ m := by simpa using ⟨hlast, hm⟩
      refine ⟨m, (unlines ms ++ end').splitOn '\n', congrArg _ ?_⟩
      rw [← splitOn_line hline, unlines_cons]
      simp
  obtain ⟨u, rest, hpieces⟩ := hpieces
  rw [hplace, hpieces]
  refine ⟨Nat.le_add_right 1 _, last ++ u, ?_, Nat.le_add_right 1 _, ?_⟩
  · simp
  · simp
    omega

/-! ## Parts of a fragment -/

/-- A part of a fragment: a line that is a directive, or the lines from `first` up to `stop`. -/
inductive Part
  | directive (index : Nat)
  | run (first stop : Nat)
deriving DecidableEq, Repr

namespace Part

/-- The number of the first line of a part. -/
def first : Part → Nat
  | directive i => i
  | run a _ => a

/-- The number of the line after a part. -/
def stop : Part → Nat
  | directive i => i + 1
  | run _ b => b

/-- A part ends before the other begins. -/
def Precedes (p q : Part) : Prop :=
  p.stop ≤ q.first

end Part

/-- The lines from `first` up to `stop` are all that stands between two directives, or between one and
an end of the fragment. -/
structure IsRun (ls : List Line) (first stop : Nat) : Prop where
  le_length : stop ≤ ls.length
  code : ∀ i l, first ≤ i → i < stop → ls[i]? = some l → isDirectiveLine l = false
  begins : first = 0 ∨ ∃ i l, first = i + 1 ∧ ls[i]? = some l ∧ isDirectiveLine l = true
  ends : stop = ls.length ∨ ∃ l, ls[stop]? = some l ∧ isDirectiveLine l = true

/-- One of the lines from `first` up to `stop` is not blank. -/
def HoldsText (ls : List Line) (first stop : Nat) : Prop :=
  ∃ i l, first ≤ i ∧ i < stop ∧ ls[i]? = some l ∧ isBlankLine l = false

/-- The fragment with these lines has this part: a directive, or a run that is not blank. -/
def Part.IsOf (ls : List Line) : Part → Prop
  | .directive i => ∃ l, ls[i]? = some l ∧ isDirectiveLine l = true
  | .run first stop => IsRun ls first stop ∧ HoldsText ls first stop

/-- A text has in each of its lines what the lines from `first` up to `stop` have there, or nothing,
and misses none of them that is not blank. -/
structure KeepsLines (ls : List Line) (first stop : Nat) (text : List Char) : Prop where
  blank_or_line : ∀ i piece, (text.splitOn '\n')[i]? = some piece →
    isBlankLine piece = true ∨ first ≤ i ∧ i < stop ∧ ls[i]? = some piece
  line : ∀ i l, first ≤ i → i < stop → ls[i]? = some l → isBlankLine l = false →
    (text.splitOn '\n')[i]? = some l

/-- The segment that is made of a part. -/
inductive Yields (ls : List Line) : Part → Segment → Prop
  | directive {i : Nat} {l : Line} (h : ls[i]? = some l) : Yields ls (.directive i) (.directive (trim l))
  | run {first stop : Nat} {text : List Char} (h : KeepsLines ls first stop text) :
    Yields ls (.run first stop) (.code text)

theorem Part.IsOf.first_lt {ls : List Line} {p : Part} (h : p.IsOf ls) : p.first < ls.length := by
  cases p with
  | directive i =>
    obtain ⟨l, hl, -⟩ := h
    exact (List.getElem?_eq_some_iff.1 hl).1
  | run first stop =>
    obtain ⟨hrun, i, l, hi, hstop, -, -⟩ := h
    exact Nat.lt_of_le_of_lt hi (Nat.lt_of_lt_of_le hstop hrun.le_length)

/-! ## Runs -/

section

variable {ls : List Line} {a b : Nat}

/-- From the beginning of a run on, there is the run, the directive that ends it, and what stands after
that. -/
theorem Part.IsOf.cases {p : Part} (h : p.IsOf ls) (hbegins : a ≤ p.first) (hab : a ≤ b)
    (hb : b ≤ ls.length)
    (hcode : ∀ i l, a ≤ i → i < b → ls[i]? = some l → isDirectiveLine l = false)
    (hends : b = ls.length ∨ ∃ l, ls[b]? = some l ∧ isDirectiveLine l = true) :
    p = .run a b ∨ p = .directive b ∨ b + 1 ≤ p.first := by
  have hdirective : ∀ i l, a ≤ i → ls[i]? = some l → isDirectiveLine l = true → b ≤ i := by
    intro i l hi hl hd
    by_contra hlt
    rw [hcode i l hi (Nat.lt_of_not_le hlt) hl] at hd
    cases hd
  cases p with
  | directive i =>
    obtain ⟨l, hl, hd⟩ := h
    rcases Nat.eq_or_lt_of_le (hdirective i l hbegins hl hd) with rfl | hlt
    · exact .inr (.inl rfl)
    · exact .inr (.inr hlt)
  | run c d =>
    obtain ⟨hrun, k, l, hk, hkd, hl, -⟩ := h
    by_cases hac : c = a
    · subst hac
      -- both runs end at the first directive after the line that they begin at
      have hdb : d ≤ b := by
        by_contra hlt
        rcases hends with rfl | ⟨l', hl', hd⟩
        · exact hlt hrun.le_length
        · rw [hrun.code b l' hab (Nat.lt_of_not_le hlt) hl'] at hd
          cases hd
      have hbd : b ≤ d := by
        rcases hrun.ends with rfl | ⟨l', hl', hd⟩
        · exact hb
        · exact hdirective d l' (Nat.le_of_lt (Nat.lt_of_le_of_lt hk hkd)) hl' hd
      exact .inl (by rw [Nat.le_antisymm hdb hbd])
    · have hlt : a < c := Nat.lt_of_le_of_ne hbegins fun h => hac h.symm
      rcases hrun.begins with rfl | ⟨i, l', rfl, hl', hd⟩
      · cases hlt
      · exact .inr (.inr (Nat.succ_le_succ (hdirective i l' (Nat.le_of_lt_succ hlt) hl' hd)))

/-- Lines are cut at the first directive. -/
theorem exists_code (rest : List Line) : ∃ code after, rest = code ++ after ∧
    (∀ l ∈ code, isDirectiveLine l = false) ∧ ∀ d ∈ after.head?, isDirectiveLine d = true := by
  refine ⟨rest.takeWhile (!isDirectiveLine ·), rest.dropWhile (!isDirectiveLine ·),
    List.takeWhile_append_dropWhile.symm, fun l hl => by simpa using List.mem_takeWhile_imp hl,
    fun d hd => ?_⟩
  have hnot := List.head?_dropWhile_not (!isDirectiveLine ·) rest
  rw [Option.mem_def.1 hd] at hnot
  simpa using hnot

variable {code : List Line}

theorem isDirectiveLine_of_code (before after : List Line)
    (hcode : ∀ l ∈ code, isDirectiveLine l = false) (i : Nat) (l : Line) (hi : before.length ≤ i)
    (hlt : i < before.length + code.length) (hl : (before ++ (code ++ after))[i]? = some l) :
    isDirectiveLine l = false := by
  rw [List.getElem?_append_right hi, List.getElem?_append_left (by omega)] at hl
  exact hcode l (List.mem_of_getElem? hl)

theorem ends_of_code (before code : List Line) {after : List Line}
    (hafter : ∀ d ∈ after.head?, isDirectiveLine d = true) :
    before.length + code.length = (before ++ (code ++ after)).length ∨
      ∃ l, (before ++ (code ++ after))[before.length + code.length]? = some l ∧
        isDirectiveLine l = true := by
  cases after with
  | nil => exact .inl (by simp)
  | cons d after => exact .inr ⟨d, by simp [← List.append_assoc], hafter d rfl⟩

/-- A run that goes on with a line has begun before it. -/
theorem exists_begins (ls : List Line) (i : Nat) : ∃ first, first ≤ i ∧
    (first = 0 ∨ ∃ j l, first = j + 1 ∧ ls[j]? = some l ∧ isDirectiveLine l = true) ∧
    ∀ j l, first ≤ j → j < i → ls[j]? = some l → isDirectiveLine l = false := by
  induction i with
  | zero => exact ⟨0, Nat.le_refl 0, .inl rfl, fun _ _ _ hj => absurd hj (Nat.not_lt_zero _)⟩
  | succ i ih =>
    by_cases hd : ∃ l, ls[i]? = some l ∧ isDirectiveLine l = true
    · obtain ⟨l, hl, hd⟩ := hd
      exact ⟨i + 1, Nat.le_refl _, .inr ⟨i, l, rfl, hl, hd⟩, fun _ _ hj hji => by omega⟩
    · obtain ⟨first, hfirst, hbegins, hcode⟩ := ih
      refine ⟨first, Nat.le_succ_of_le hfirst, hbegins, fun j l hj hji hl => ?_⟩
      rcases Nat.eq_or_lt_of_le (Nat.le_of_lt_succ hji) with rfl | hlt
      · simpa using fun h => hd ⟨l, hl, h⟩
      · exact hcode j l hj hlt hl

/-- Each line that is no directive stands in a run. -/
theorem exists_isRun {i : Nat} {l : Line} (hl : ls[i]? = some l) (hline : isDirectiveLine l = false) :
    ∃ first stop, IsRun ls first stop ∧ first ≤ i ∧ i < stop := by
  obtain ⟨first, hfirst, hbegins, hbefore⟩ := exists_begins ls i
  obtain ⟨hi, -⟩ := List.getElem?_eq_some_iff.1 hl
  obtain ⟨code, after, hrest, hcode, hafter⟩ := exists_code (ls.drop i)
  have hls : ls = ls.take i ++ (code ++ after) := by rw [← hrest, List.take_append_drop]
  have hlength : (ls.take i).length = i := List.length_take_of_le (Nat.le_of_lt hi)
  have hends := ends_of_code (ls.take i) code hafter
  rw [← hls, hlength] at hends
  have hcode' : ∀ j l, i ≤ j → j < i + code.length → ls[j]? = some l →
      isDirectiveLine l = false := fun j l' hj hlt hl' => by
    rw [hls] at hl'
    exact isDirectiveLine_of_code (ls.take i) after hcode j l' (hlength.symm ▸ hj)
      (hlength.symm ▸ hlt) hl'
  have hstop : i + code.length ≤ ls.length := by
    rw [hls]
    simp only [List.length_append, hlength]
    omega
  refine ⟨first, i + code.length, ⟨hstop, fun j l' hj hlt hl' => ?_, hbegins, hends⟩, hfirst, ?_⟩
  · rcases Nat.lt_or_ge j i with hji | hij
    · exact hbefore j l' hj hji hl'
    · exact hcode' j l' hij hlt hl'
  · -- the line itself is no directive, so the cut is behind it
    rcases Nat.eq_zero_or_pos code.length with hzero | hpos
    · rw [hzero, Nat.add_zero] at hends
      rcases hends with heq | ⟨l', hl', hd⟩
      · omega
      · rw [Option.some.inj (hl.symm.trans hl'), hd] at hline
        cases hline
    · omega

end

/-! ## The loop over the lines -/

/-- Blank lines before any other are passed over. -/
theorem segmentsFrom_blanks {blanks : List Line} (h : ∀ l ∈ blanks, isBlankLine l = true)
    (index : Nat) (rest : List Line) :
    segmentsFrom index [] (blanks ++ rest) = segmentsFrom (index + blanks.length) [] rest := by
  induction blanks generalizing index with
  | nil => rfl
  | cons l blanks ih =>
    obtain ⟨hl, hrest⟩ := List.forall_mem_cons.1 h
    have hstep : segmentsFrom index [] (l :: (blanks ++ rest)) =
        segmentsFrom (index + 1) [] (blanks ++ rest) := by
      simp [segmentsFrom, isDirectiveLine_of_isBlankLine hl, hl]
    rw [List.cons_append, hstep, ih hrest, List.length_cons, Nat.add_right_comm, Nat.add_assoc]

/-- An open segment takes all lines up to a directive. -/
theorem segmentsFrom_code {code pending : List Line} (hpending : pending ≠ [])
    (h : ∀ l ∈ code, isDirectiveLine l = false) (index : Nat) (rest : List Line) :
    segmentsFrom index pending (code ++ rest) =
      segmentsFrom (index + code.length) (code.reverse ++ pending) rest := by
  induction code generalizing index pending with
  | nil => rfl
  | cons l code ih =>
    obtain ⟨hl, hrest⟩ := List.forall_mem_cons.1 h
    have hstep : segmentsFrom index pending (l :: (code ++ rest)) =
        segmentsFrom (index + 1) (l :: pending) (code ++ rest) := by
      simp [segmentsFrom, hl, hpending]
    rw [List.cons_append, hstep, ih (List.cons_ne_nil l pending) hrest, List.length_cons,
      Nat.add_right_comm, Nat.add_assoc]
    simp

/-- Before a directive and at the end, the open segment is closed. -/
theorem segmentsFrom_close {after : List Line} (h : ∀ d ∈ after.head?, isDirectiveLine d = true)
    (index : Nat) (pending : List Line) :
    segmentsFrom index pending after = closeCode pending ++ segmentsFrom index [] after := by
  cases after with
  | nil => simp [segmentsFrom, closeCode]
  | cons d after => simp [segmentsFrom, h d rfl, closeCode]

/-- Padding and lines of a text keep the lines. -/
theorem keepsLines_unlines (before after : List Line) {blanks body : List Line}
    (hblanks : ∀ l ∈ blanks, isBlankLine l = true) (hbody : ∀ l ∈ body, '\n' ∉ l) :
    KeepsLines (before ++ (blanks ++ body ++ after)) before.length
      (before.length + (blanks ++ body).length)
      (unlines (List.replicate (before.length + blanks.length) [] ++ body)) := by
  have hempty : ∀ l ∈ List.replicate (before.length + blanks.length) ([] : Line) ++ body,
      '\n' ∉ l := by
    intro l hl
    rcases List.mem_append.1 hl with hl | hl
    · rw [List.eq_of_mem_replicate hl]
      exact List.not_mem_nil
    · exact hbody l hl
  have hpieces := splitOn_unlines hempty []
  rw [List.append_nil, List.splitOn_nil, List.append_assoc] at hpieces
  have hlines : before ++ (blanks ++ body ++ after) = (before ++ blanks) ++ (body ++ after) := by
    simp
  have hlength : (before ++ blanks).length = before.length + blanks.length := List.length_append
  constructor
  · intro i piece hpiece
    rw [hpieces] at hpiece
    rcases Nat.lt_or_ge i (before.length + blanks.length) with hi | hi
    · rw [List.getElem?_append_left (by simpa using hi)] at hpiece
      rw [List.eq_of_mem_replicate (List.mem_of_getElem? hpiece)]
      exact .inl rfl
    · rw [List.getElem?_append_right (by simpa using hi), List.length_replicate] at hpiece
      rcases Nat.lt_or_ge (i - (before.length + blanks.length)) body.length with hlt | hge
      · refine .inr ⟨by omega, by simp only [List.length_append]; omega, ?_⟩
        rw [hlines, List.getElem?_append_right (hlength ▸ hi), hlength,
          List.getElem?_append_left hlt]
        rwa [List.getElem?_append_left hlt] at hpiece
      · rw [List.getElem?_append_right hge] at hpiece
        rw [List.mem_singleton.1 (List.mem_of_getElem? hpiece)]
        exact .inl rfl
  · intro i l hi hlt hl hblank
    simp only [List.length_append] at hlt
    rcases Nat.lt_or_ge i (before.length + blanks.length) with hpad | hge
    · rw [List.getElem?_append_right hi, List.append_assoc,
        List.getElem?_append_left (by omega)] at hl
      rw [hblanks l (List.mem_of_getElem? hl)] at hblank
      cases hblank
    · rw [hlines, List.getElem?_append_right (hlength ▸ hge), hlength,
        List.getElem?_append_left (by omega)] at hl
      rwa [hpieces, List.getElem?_append_right (by simpa using hge), List.length_replicate,
        List.getElem?_append_left (by omega)]

/-- A run makes a segment that keeps its lines, or none if it is blank. -/
theorem segmentsFrom_run {before code after : List Line}
    (hcode : ∀ l ∈ code, isDirectiveLine l = false)
    (hafter : ∀ d ∈ after.head?, isDirectiveLine d = true) (hnewline : ∀ l ∈ code, '\n' ∉ l) :
    (¬HoldsText (before ++ (code ++ after)) before.length (before.length + code.length) ∧
      segmentsFrom before.length [] (code ++ after) =
        segmentsFrom (before.length + code.length) [] after) ∨
    ∃ text, HoldsText (before ++ (code ++ after)) before.length (before.length + code.length) ∧
      KeepsLines (before ++ (code ++ after)) before.length (before.length + code.length) text ∧
      segmentsFrom before.length [] (code ++ after) =
        .code text :: segmentsFrom (before.length + code.length) [] after := by
  obtain ⟨blanks, body, rfl, hblanks, hbody⟩ : ∃ blanks body, code = blanks ++ body ∧
      (∀ l ∈ blanks, isBlankLine l = true) ∧ ∀ l ∈ body.head?, isBlankLine l = false := by
    refine ⟨code.takeWhile isBlankLine, code.dropWhile isBlankLine,
      List.takeWhile_append_dropWhile.symm, fun l hl => List.mem_takeWhile_imp hl,
      fun l hl => ?_⟩
    have hnot := List.head?_dropWhile_not isBlankLine code
    rwa [Option.mem_def.1 hl] at hnot
  cases body with
  | nil =>
    refine .inl ⟨?_, ?_⟩
    · rintro ⟨i, l, hi, hlt, hl, hblank⟩
      simp only [List.append_nil] at hl hlt
      rw [List.getElem?_append_right hi, List.getElem?_append_left (by omega)] at hl
      rw [hblanks l (List.mem_of_getElem? hl)] at hblank
      cases hblank
    · rw [List.append_nil, segmentsFrom_blanks hblanks]
  | cons l body =>
    have hl : isBlankLine l = false := hbody l rfl
    have hrest : ∀ l' ∈ body, isDirectiveLine l' = false := fun l' h => hcode l' (by simp [h])
    have hkeeps := keepsLines_unlines before after hblanks
      fun l' h => hnewline l' (List.mem_append_right _ h)
    have hfirst : (before ++ (blanks ++ l :: body ++ after))[before.length + blanks.length]? =
        some l := by
      rw [List.append_assoc, List.getElem?_append_right (Nat.le_add_right _ _),
        Nat.add_sub_cancel_left, List.getElem?_append_right (Nat.le_refl _), Nat.sub_self]
      rfl
    refine .inr ⟨_, ⟨before.length + blanks.length, l, Nat.le_add_right _ _, by simp, hfirst, hl⟩,
      hkeeps, ?_⟩
    · have hopen : segmentsFrom (before.length + blanks.length) [] (l :: (body ++ after)) =
          segmentsFrom (before.length + blanks.length + 1)
            (l :: List.replicate (before.length + blanks.length) []) (body ++ after) := by
        simp [segmentsFrom, hcode l (by simp), hl]
      rw [List.append_assoc, List.cons_append, segmentsFrom_blanks hblanks, hopen,
        segmentsFrom_code (List.cons_ne_nil _ _) hrest, segmentsFrom_close hafter]
      simp [closeCode, Nat.add_assoc, Nat.add_comm 1]

/-- Where a run is, the part for it and its segment come first, or neither if the run is blank. -/
theorem exists_runPart (before : List Line) {code after : List Line}
    (hcode : ∀ l ∈ code, isDirectiveLine l = false)
    (hafter : ∀ d ∈ after.head?, isDirectiveLine d = true) (hnewline : ∀ l ∈ code, '\n' ∉ l) :
    ∃ (runs : List Part) (texts : List Segment),
      (runs = [] ∨ runs = [.run before.length (before.length + code.length)]) ∧
      (.run before.length (before.length + code.length) ∈ runs ↔
        HoldsText (before ++ (code ++ after)) before.length (before.length + code.length)) ∧
      List.Forall₂ (Yields (before ++ (code ++ after))) runs texts ∧
      segmentsFrom before.length [] (code ++ after) =
        texts ++ segmentsFrom (before.length + code.length) [] after := by
  rcases segmentsFrom_run hcode hafter hnewline with ⟨hblank, heq⟩ | ⟨text, hholds, hkeeps, heq⟩
  · exact ⟨[], [], .inl rfl, by simpa using hblank, .nil, heq⟩
  · exact ⟨_, [.code text], .inr rfl, by simpa using hholds, .cons (.run hkeeps) .nil, heq⟩

/-- From after a directive on, the segments are made of the parts from there on. -/
theorem exists_parts (before : List Line) {ls rest : List Line} (hls : ls = before ++ rest)
    (hnewline : ∀ l ∈ ls, '\n' ∉ l)
    (hbegins : before.length = 0 ∨
      ∃ i l, before.length = i + 1 ∧ ls[i]? = some l ∧ isDirectiveLine l = true) :
    ∃ parts : List Part, parts.Pairwise Part.Precedes ∧
      (∀ p, p ∈ parts ↔ p.IsOf ls ∧ before.length ≤ p.first) ∧
      List.Forall₂ (Yields ls) parts (segmentsFrom before.length [] rest) := by
  induction hn : rest.length using Nat.strongRecOn generalizing before rest with
  | ind n ih =>
    obtain ⟨code, after, rfl, hcode, hafter⟩ := exists_code rest
    have hcode' := isDirectiveLine_of_code before after hcode
    have hends := ends_of_code before code hafter
    have hstop : before.length + code.length ≤ (before ++ (code ++ after)).length := by
      simp only [List.length_append]
      omega
    have hrun : IsRun (before ++ (code ++ after)) before.length (before.length + code.length) :=
      ⟨hstop, hcode', hls ▸ hbegins, hends⟩
    obtain ⟨runs, texts, hruns, hmem, hyields, hsegments⟩ := exists_runPart before hcode hafter
      (fun l h => hnewline l (hls ▸ by simp [h]))
    have hruns' : ∀ p ∈ runs, p = .run before.length (before.length + code.length) := by
      rcases hruns with rfl | rfl <;> simp
    rw [← hls] at hcode' hends hstop hrun hmem hyields
    rw [hsegments]
    have hfirst : ∀ p ∈ runs, p.IsOf ls ∧ before.length ≤ p.first := fun p hp => by
      obtain rfl := hruns' p hp
      exact ⟨⟨hrun, hmem.1 hp⟩, Nat.le_refl _⟩
    have hcases := fun (p : Part) (h : p.IsOf ls) (hp : before.length ≤ p.first) =>
      h.cases hp (Nat.le_add_right _ _) hstop hcode' hends
    cases after with
    | nil =>
      have hlength : before.length + code.length = ls.length := by rw [hls]; simp
      refine ⟨runs, hruns.elim (· ▸ .nil) (· ▸ List.pairwise_singleton _ _),
        fun p => ⟨hfirst p, fun ⟨h, hp⟩ => ?_⟩, by simpa [segmentsFrom, closeCode] using hyields⟩
      have hlt := h.first_lt
      rcases hcases p h hp with rfl | rfl | hbehind
      · exact hmem.2 h.2
      · exact absurd hlt (by simp [Part.first, hlength])
      · omega
    | cons d after =>
      have hd : isDirectiveLine d = true := hafter d rfl
      have hat : ls[before.length + code.length]? = some d := by
        rw [hls]
        simp [← List.append_assoc]
      have hbefore : (before ++ (code ++ [d])).length = before.length + code.length + 1 := by
        simp [Nat.add_assoc]
      obtain ⟨parts, horder, hparts, hrest⟩ := ih after.length (by rw [← hn]; simp; omega)
        (before ++ (code ++ [d])) (by rw [hls]; simp) (.inr ⟨_, d, hbefore, hat, hd⟩) rfl
      rw [hbefore] at hparts hrest
      refine ⟨runs ++ .directive (before.length + code.length) :: parts, ?_, fun p => ?_, ?_⟩
      · refine List.pairwise_append.2 ⟨hruns.elim (· ▸ .nil) (· ▸ List.pairwise_singleton _ _),
          List.pairwise_cons.2 ⟨fun p hp => ((hparts p).1 hp).2, horder⟩, fun p hp q hq => ?_⟩
        obtain rfl := hruns' p hp
        rcases List.mem_cons.1 hq with rfl | hq
        · exact Nat.le_refl _
        · exact Nat.le_of_succ_le ((hparts q).1 hq).2
      · constructor
        · intro hp
          rcases List.mem_append.1 hp with hp | hp
          · exact hfirst p hp
          · rcases List.mem_cons.1 hp with rfl | hp
            · exact ⟨⟨d, hat, hd⟩, Nat.le_add_right _ _⟩
            · obtain ⟨h, hp⟩ := (hparts p).1 hp
              exact ⟨h, by omega⟩
        · rintro ⟨h, hp⟩
          rcases hcases p h hp with rfl | rfl | hbehind
          · exact List.mem_append_left _ (hmem.2 h.2)
          · simp
          · exact List.mem_append_right _ (List.mem_cons_of_mem _ ((hparts p).2 ⟨h, hbehind⟩))
      · have hdirective : segmentsFrom (before.length + code.length) [] (d :: after) =
            .directive (trim d) :: segmentsFrom (before.length + code.length + 1) [] after := by
          simp [segmentsFrom, hd, closeCode]
        rw [hdirective]
        exact List.rel_append hyields (.cons (.directive hat) hrest)

/-! ## Fragments -/

/-- A fragment with a line that is not blank has a part there. -/
theorem exists_part {ls : List Line} {i : Nat} {l : Line} (hl : ls[i]? = some l)
    (hblank : isBlankLine l = false) : ∃ p : Part, p.IsOf ls := by
  by_cases hd : isDirectiveLine l = true
  · exact ⟨.directive i, l, hl, hd⟩
  · obtain ⟨first, stop, hrun, hi, hstop⟩ := exists_isRun hl (by simpa using hd)
    exact ⟨.run first stop, hrun, i, l, hi, hstop, hl, hblank⟩

/-- A part has a line that is not blank. -/
theorem Part.IsOf.exists_line {ls : List Line} {p : Part} (h : p.IsOf ls) :
    ∃ l ∈ ls, isBlankLine l = false := by
  cases p with
  | directive i =>
    obtain ⟨l, hl, hd⟩ := h
    refine ⟨l, List.mem_of_getElem? hl, ?_⟩
    by_contra hblank
    rw [isDirectiveLine_of_isBlankLine (by simpa using hblank)] at hd
    cases hd
  | run first stop =>
    obtain ⟨-, i, l, -, -, hl, hblank⟩ := h
    exact ⟨l, List.mem_of_getElem? hl, hblank⟩

/-- A blank fragment is one segment. -/
theorem segments_of_blank {source : List Char} (h : ∀ l ∈ lines source, isBlankLine l = true) :
    segments source = [.code source] := by
  obtain ⟨parts, -, hparts, hyields⟩ := exists_parts [] (List.nil_append _).symm
    (newline_notMem_of_mem_lines source) (.inl rfl)
  have hnone : parts = [] := List.eq_nil_iff_forall_not_mem.2 fun p hp => by
    obtain ⟨l, hl, hblank⟩ := ((hparts p).1 hp).1.exists_line
    rw [h l hl] at hblank
    cases hblank
  rw [hnone] at hyields
  have hsegments : segmentsFrom 0 [] (lines source) = [] := List.forall₂_nil_left_iff.1 hyields
  rw [segments, hsegments]

/-- Any other fragment is cut into its parts. -/
theorem segments_of_parts {source : List Char} (h : ∃ l ∈ lines source, isBlankLine l = false) :
    ∃ parts : List Part, parts.Pairwise Part.Precedes ∧
      (∀ p, p ∈ parts ↔ p.IsOf (lines source)) ∧
      List.Forall₂ (Yields (lines source)) parts (segments source) := by
  obtain ⟨parts, horder, hparts, hyields⟩ := exists_parts [] (List.nil_append _).symm
    (newline_notMem_of_mem_lines source) (.inl rfl)
  have hparts' : ∀ p, p ∈ parts ↔ p.IsOf (lines source) := fun p =>
    (hparts p).trans (and_iff_left (Nat.zero_le _))
  have hyields' : List.Forall₂ (Yields (lines source)) parts (segmentsFrom 0 [] (lines source)) :=
    hyields
  have hsome : segmentsFrom 0 [] (lines source) ≠ [] := fun hnil => by
    rw [hnil, List.forall₂_nil_right_iff] at hyields'
    obtain ⟨l, hl, hblank⟩ := h
    obtain ⟨i, hi⟩ := List.mem_iff_getElem?.1 hl
    obtain ⟨p, hp⟩ := exists_part hi hblank
    rw [← hparts', hyields'] at hp
    cases hp
  refine ⟨parts, horder, hparts', ?_⟩
  have hsegments : segments source = segmentsFrom 0 [] (lines source) := by
    unfold segments
    split
    · next hnil => exact absurd hnil hsome
    · rfl
  rwa [hsegments]

/-- Segments and the parts that they are made of have the same numbers. -/
theorem exists_yields {ls : List Line} {parts : List Part} {segments : List Segment}
    (h : List.Forall₂ (Yields ls) parts segments) :
    (∀ (k : Nat) segment, segments[k]? = some segment →
      ∃ p, parts[k]? = some p ∧ Yields ls p segment) ∧
    ∀ (k : Nat) p, parts[k]? = some p →
      ∃ segment, segments[k]? = some segment ∧ Yields ls p segment := by
  obtain ⟨hlength, hall⟩ := List.forall₂_iff_get.1 h
  constructor
  · intro k segment hk
    obtain ⟨hlt, rfl⟩ := List.getElem?_eq_some_iff.1 hk
    exact ⟨_, List.getElem?_eq_getElem (hlength.symm ▸ hlt), hall k _ hlt⟩
  · intro k p hk
    obtain ⟨hlt, rfl⟩ := List.getElem?_eq_some_iff.1 hk
    exact ⟨_, List.getElem?_eq_getElem (hlength ▸ hlt), hall k hlt _⟩

/-- A code segment is the whole of a blank fragment, or made of a run. -/
theorem code_cases {source text : List Char} (h : .code text ∈ segments source) :
    (∀ piece ∈ text.splitOn '\n', isBlankLine piece = true) ∨
      ∃ first stop, KeepsLines (lines source) first stop text := by
  by_cases hblank : ∀ l ∈ lines source, isBlankLine l = true
  · left
    rw [segments_of_blank hblank, List.mem_singleton] at h
    obtain rfl := Segment.code.inj h
    have htext : ∀ c ∈ text, isBlank c = true := isBlank_of_linesFrom hblank
    exact fun piece hpiece => List.all_eq_true.2 fun c hc => htext c (mem_of_mem_splitOn hpiece hc)
  · right
    have hsome : ∃ l ∈ lines source, isBlankLine l = false := by simpa using hblank
    obtain ⟨parts, -, -, hyields⟩ := segments_of_parts hsome
    obtain ⟨k, hk⟩ := List.mem_iff_getElem?.1 h
    obtain ⟨p, -, hp⟩ := (exists_yields hyields).1 k _ hk
    cases hp with
    | run hkeeps => exact ⟨_, _, hkeeps⟩

/-- A code segment has in each line what the fragment has there, or nothing. -/
theorem piece_of_code {source text : List Char} (h : .code text ∈ segments source) {i : Nat}
    {piece : Line} (hpiece : (text.splitOn '\n')[i]? = some piece) :
    isBlankLine piece = true ∨ (lines source)[i]? = some piece := by
  rcases code_cases h with hblank | ⟨first, stop, hkeeps⟩
  · exact .inl (hblank piece (List.mem_of_getElem? hpiece))
  · exact (hkeeps.blank_or_line i piece hpiece).imp_right fun hline => hline.2.2

/-- A line of code is in one segment only. -/
theorem code_of_line {source : List Char} {i : Nat} {l : Line} (hl : (lines source)[i]? = some l)
    (hblank : isBlankLine l = false) (hcode : isDirectiveLine l = false) :
    ∃! k : Nat, ∃ text, (segments source)[k]? = some (.code text) ∧
      (text.splitOn '\n')[i]? = some l := by
  obtain ⟨parts, horder, hparts, hyields⟩ :=
    segments_of_parts ⟨l, List.mem_of_getElem? hl, hblank⟩
  obtain ⟨hpart, hsegment⟩ := exists_yields hyields
  -- a segment with this line is made of a run that the line is in
  have hrun : ∀ (k : Nat) text, (segments source)[k]? = some (.code text) →
      (text.splitOn '\n')[i]? = some l →
      ∃ p, parts[k]? = some p ∧ p.first ≤ i ∧ i < p.stop := by
    intro k text hk hpiece
    obtain ⟨p, hp, hyield⟩ := hpart k _ hk
    cases hyield with
    | run hkeeps =>
      rcases hkeeps.blank_or_line i l hpiece with hb | ⟨hfirst, hstop, -⟩
      · rw [hb] at hblank
        cases hblank
      · exact ⟨_, hp, hfirst, hstop⟩
  have hunique : ∀ (k k' : Nat) p p', parts[k]? = some p → parts[k']? = some p' →
      p.first ≤ i → i < p.stop → p'.first ≤ i → i < p'.stop → ¬k < k' := by
    intro k k' p p' hp hp' hfirst hstop hfirst' hstop' hlt
    obtain ⟨hk, rfl⟩ := List.getElem?_eq_some_iff.1 hp
    obtain ⟨hk', rfl⟩ := List.getElem?_eq_some_iff.1 hp'
    have hprecedes : parts[k].stop ≤ parts[k'].first :=
      List.pairwise_iff_getElem.1 horder k k' hk hk' hlt
    omega
  obtain ⟨first, stop, hisRun, hfirst, hstop⟩ := exists_isRun hl hcode
  have hmem : Part.run first stop ∈ parts :=
    (hparts _).2 ⟨hisRun, i, l, hfirst, hstop, hl, hblank⟩
  obtain ⟨k, hk⟩ := List.mem_iff_getElem?.1 hmem
  obtain ⟨segment, hsegment, hyield⟩ := hsegment k _ hk
  cases hyield with
  | @run _ _ text hkeeps =>
    refine ⟨k, ⟨text, hsegment, hkeeps.line i l hfirst hstop hl hblank⟩, ?_⟩
    rintro k' ⟨text', hk', hpiece'⟩
    obtain ⟨p, hp, hfirst', hstop'⟩ := hrun k' text' hk' hpiece'
    exact Nat.le_antisymm
      (Nat.le_of_not_lt (hunique k k' _ p hk hp hfirst hstop hfirst' hstop'))
      (Nat.le_of_not_lt (hunique k' k p _ hp hk hfirst' hstop' hfirst hstop))

/-- No line is lost and none is moved. A blank fragment is one code segment. Any other has, in the
order of the text, a segment for each directive and each run between directives that is not blank, and
no more; the first is the directive without the blanks around it, and the second has each line of the
run, in the same line. Each line that is neither blank nor a directive is in one code segment, and in
the same line of it. So the line that an error of the compiler names in a segment is blank, or it is the
line of that number in the fragment. -/
theorem segments_keep_lines (source : List Char) :
    ((∀ l ∈ lines source, isBlankLine l = true) → segments source = [.code source]) ∧
    ((∃ l ∈ lines source, isBlankLine l = false) → ∃ parts : List Part,
      parts.Pairwise Part.Precedes ∧ (∀ p, p ∈ parts ↔ p.IsOf (lines source)) ∧
        List.Forall₂ (Yields (lines source)) parts (segments source)) ∧
    (∀ text, .code text ∈ segments source → ∀ (i : Nat) piece,
      (text.splitOn '\n')[i]? = some piece →
        isBlankLine piece = true ∨ (lines source)[i]? = some piece) ∧
    (∀ (i : Nat) l, (lines source)[i]? = some l → isBlankLine l = false → isDirectiveLine l = false →
      ∃! k : Nat, ∃ text, (segments source)[k]? = some (.code text) ∧
        (text.splitOn '\n')[i]? = some l) ∧
    ∀ text, .code text ∈ segments source → ∀ names d p,
      standardCompiler names (String.ofList text) = .error d → d.pos = some p →
        1 ≤ p.line ∧ ∃ piece, (text.splitOn '\n')[p.line - 1]? = some piece ∧
          1 ≤ p.col ∧ p.col ≤ piece.length + 1 ∧
            (isBlankLine piece = true ∨ (lines source)[p.line - 1]? = some piece) := by
  refine ⟨segments_of_blank, segments_of_parts, fun _ htext _ _ => piece_of_code htext,
    fun _ _ => code_of_line, fun text htext names d p hd hp => ?_⟩
  have hplace : IsPlaceOf text p := by
    unfold standardCompiler at hd
    split at hd
    · next e he =>
      cases hd
      simpa using Scoping.isPlaceOf_compileError he hp
    · cases hd
  obtain ⟨hline, piece, hpiece, hcol, hend⟩ := exists_line_of_isPlaceOf hplace
  exact ⟨hline, piece, hpiece, hcol, hend, piece_of_code htext hpiece⟩

/-- A blank line before a directive is dropped, and one inside of code is kept. -/
example : segments "\n #libs \nf(\n\n1)\n#quit".toList =
    [.directive "#libs".toList, .code "\n\nf(\n\n1)\n".toList, .directive "#quit".toList] := by
  decide +kernel

end ScriptMachine.Session
