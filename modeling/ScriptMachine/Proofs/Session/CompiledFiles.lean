import ScriptMachine.CommandLine.Execution
import ScriptMachine.Proofs.Session.Soundness
import ScriptMachine.Proofs.Source.LineEnds

/-!
# Compiled files

A source text can be run as a turn, or compiled to a file that is run in another session. A turn cuts
its text into lines first and compiles what it puts together from them; the compiler of files takes
the text as it is. Both come to the same, unless a string literal runs over a line end with a
carriage return: the turn loses that character.
-/

namespace ScriptMachine.Session

open Text Source Bytecode Compile Link

/-! ## Rebuilt texts -/

theorem unlines_cons (l : Line) (ls : List Line) :
    unlines (l :: ls) = l ++ '\n' :: unlines ls := by
  simp [unlines]

theorem unlines_replicate (n : Nat) (ls : List Line) :
    unlines (List.replicate n [] ++ ls) = List.replicate n '\n' ++ unlines ls := by
  induction n with
  | zero => rfl
  | succ n ih => simp [List.replicate_succ, unlines_cons, ih]

theorem linesFrom_char {c : Char} (hc : c ≠ '\n') (line r : List Char) :
    linesFrom line (c :: r) = linesFrom (c :: line) r := by
  conv => lhs; unfold linesFrom
  split <;> simp_all

/-- A line ends at a newline, or at a carriage return before it. -/
theorem linesFrom_newline (line r : List Char) :
    (∃ l, line = '\r' :: l ∧ linesFrom line ('\n' :: r) = l.reverse :: linesFrom [] r) ∨
      linesFrom line ('\n' :: r) = line.reverse :: linesFrom [] r := by
  cases line with
  | nil => exact .inr rfl
  | cons c l =>
    by_cases hc : c = '\r'
    · subst hc
      exact .inl ⟨l, rfl, rfl⟩
    · right
      conv => lhs; unfold linesFrom
      split
      · simp_all
      · split <;> simp_all
      · exact absurd (List.cons.inj ‹_›).1.symm ‹_›

/-- A text put together from its lines has rebuilt line ends. -/
theorem reflows_linesFrom (line r : List Char) :
    Reflows (line.reverse ++ r) (unlines (linesFrom line r)) := by
  induction r generalizing line with
  | nil =>
    unfold linesFrom
    cases line with
    | nil => exact .nil
    | cons c line =>
      rw [if_neg (by simp), unlines_cons]
      exact Reflows.ended.append_left _
  | cons c r ih =>
    by_cases hc : c = '\n'
    · subst hc
      have hrest : Reflows r (unlines (linesFrom [] r)) := ih []
      rcases linesFrom_newline line r with ⟨l, rfl, heq⟩ | heq
      · rw [heq, unlines_cons, List.reverse_cons, List.append_assoc]
        exact (Reflows.crlf hrest).append_left _
      · rw [heq, unlines_cons]
        exact (Reflows.char '\n' hrest).append_left _
    · rw [linesFrom_char hc]
      simpa using ih (c :: line)

/-- A character that is not blank stays in its line. -/
theorem mem_linesFrom {c : Char} (hc : isBlank c = false) {line : List Char} (hline : c ∈ line)
    (r : List Char) : ∃ l ls, linesFrom line r = l :: ls ∧ c ∈ l := by
  induction r generalizing line with
  | nil =>
    unfold linesFrom
    rw [if_neg (by simpa using List.ne_nil_of_mem hline)]
    exact ⟨_, _, rfl, List.mem_reverse.2 hline⟩
  | cons d r ih =>
    by_cases hd : d = '\n'
    · subst hd
      rcases linesFrom_newline line r with ⟨l, rfl, heq⟩ | heq
      · refine ⟨_, _, heq, List.mem_reverse.2 ?_⟩
        rcases List.mem_cons.1 hline with rfl | hmem
        · exact absurd hc (by decide)
        · exact hmem
      · exact ⟨_, _, heq, List.mem_reverse.2 hline⟩
    · rw [linesFrom_char hd]
      exact ih (List.mem_cons_of_mem _ hline)

/-! ## Segments -/

/-- Without directives all lines belong to the open segment. -/
theorem segmentsFrom_open (ls : List Line) {pending : List Line} (hpending : pending ≠ [])
    (hls : ∀ l ∈ ls, isDirectiveLine l = false) (index : Nat) :
    segmentsFrom index pending ls = [.code (unlines (pending.reverse ++ ls))] := by
  induction ls generalizing index pending with
  | nil => simp [segmentsFrom, closeCode, hpending]
  | cons l ls ih =>
    have hl := hls l List.mem_cons_self
    have hrest := ih (List.cons_ne_nil l pending) (fun l' hl' => hls l' (List.mem_cons_of_mem _ hl'))
      (index + 1)
    simp [segmentsFrom, hl, hpending, hrest]

/-- A text without directives has nothing but blanks from the line on, or is one segment: the text as
it is rebuilt, after an empty line for each line before. -/
theorem segmentsFrom_linesFrom (r line : List Char)
    (hline : ∀ c ∈ line, isBlank c = true ∧ c ≠ '\n') (index : Nat)
    (hls : ∀ l ∈ linesFrom line r, isDirectiveLine l = false) :
    segmentsFrom index [] (linesFrom line r) = [] ∨
      ∃ t, segmentsFrom index [] (linesFrom line r) = [.code (List.replicate index '\n' ++ t)] ∧
        Rebuilt (line.reverse ++ r) t := by
  induction r generalizing line index with
  | nil =>
    left
    cases line with
    | nil => rfl
    | cons c line =>
      have heq : linesFrom (c :: line) [] = [(c :: line).reverse] := rfl
      have hblank : isBlankLine (c :: line).reverse = true := by
        rw [isBlankLine, List.all_eq_true]
        exact fun d hd => (hline d (List.mem_reverse.1 hd)).1
      rw [heq] at hls ⊢
      generalize (c :: line).reverse = l at hls hblank ⊢
      have hdirective := hls l List.mem_cons_self
      simp [segmentsFrom, hdirective, hblank, closeCode]
  | cons c r ih =>
    by_cases hc : c = '\n'
    · subst hc
      -- the line is blank, and stands for a line more before the segment
      obtain ⟨l, hl, heq⟩ : ∃ l, (∀ d ∈ l, isBlank d = true) ∧
          linesFrom line ('\n' :: r) = l :: linesFrom [] r := by
        rcases linesFrom_newline line r with ⟨l, rfl, heq⟩ | heq
        · exact ⟨_, fun d hd => (hline d (List.mem_cons_of_mem _ (List.mem_reverse.1 hd))).1, heq⟩
        · exact ⟨_, fun d hd => (hline d (List.mem_reverse.1 hd)).1, heq⟩
      rw [heq] at hls ⊢
      have hdirective := hls l List.mem_cons_self
      have hblank : isBlankLine l = true := by simpa [isBlankLine] using hl
      have hstep : segmentsFrom index [] (l :: linesFrom [] r) =
          segmentsFrom (index + 1) [] (linesFrom [] r) := by
        simp [segmentsFrom, hdirective, hblank]
      rw [hstep]
      rcases ih [] (by simp) (index + 1)
        (fun l' hl' => hls l' (List.mem_cons_of_mem _ hl')) with hnone | ⟨t, ht, hrebuilt⟩
      · exact .inl hnone
      · refine .inr ⟨'\n' :: t, ?_, .blankLine (fun d hd => hline d (List.mem_reverse.1 hd)) hrebuilt⟩
        rw [ht, List.replicate_succ', List.append_assoc]
        rfl
    · rw [linesFrom_char hc] at hls ⊢
      by_cases hblank : isBlank c = true
      · have hnext : ∀ d ∈ c :: line, isBlank d = true ∧ d ≠ '\n' := by
          intro d hd
          rcases List.mem_cons.1 hd with rfl | hd
          · exact ⟨hblank, hc⟩
          · exact hline d hd
        simpa using ih _ hnext index hls
      · right
        have hblank' : isBlank c = false := by simpa using hblank
        have hbody := reflows_linesFrom (c :: line) r
        obtain ⟨l, ls, heq, hmem⟩ := mem_linesFrom hblank' (List.mem_cons_self (a := c) (l := line)) r
        rw [heq] at hls hbody ⊢
        have hdirective := hls l List.mem_cons_self
        have hfirst : isBlankLine l = false := by
          simpa [isBlankLine] using ⟨c, hmem, hblank'⟩
        have hopen := segmentsFrom_open ls (List.cons_ne_nil l (List.replicate index []))
          (fun l' hl' => hls l' (List.mem_cons_of_mem _ hl')) (index + 1)
        refine ⟨unlines (l :: ls), ?_, .body (by simpa using hbody)⟩
        simp [segmentsFrom, hdirective, hfirst, hopen, ← unlines_replicate]

/-- A text without directives is a single segment, and that is the text as it is rebuilt. -/
theorem segments_rebuilt {source : List Char}
    (hdirectives : ∀ l ∈ lines source, isDirectiveLine l = false) :
    ∃ t, segments source = [.code t] ∧ Rebuilt source t := by
  unfold segments
  rcases segmentsFrom_linesFrom source [] (by simp) 0 hdirectives with
    hnone | ⟨t, ht, hrebuilt⟩
  · exact ⟨source, by rw [lines, hnone], .body (.refl source)⟩
  · exact ⟨t, by rw [lines, ht]; rfl, hrebuilt⟩

/-! ## Compiling -/

/-- A rebuilt text compiles to the same, or neither compiles. -/
theorem compile_rebuilt {s t : List Char} (h : Rebuilt s t)
    (hplain : PlainStrings (String.ofList s)) (names : Names) :
    (compile names (String.ofList t)).toOption = (compile names (String.ofList s)).toOption := by
  have hparse := parse_rebuilt h hplain
  unfold compile
  cases hs : Fragment.parse (String.ofList s) <;> cases ht : Fragment.parse (String.ofList t) <;>
    rw [hs, ht] at hparse <;> cases hparse <;> rfl

/-! ## Running -/

theorem read_bytecode {l : Linker} (hl : l.backend = some .bytecode) (count : Nat) (bytes : Bytes)
    (hint hint' : Nat) : (l.read count bytes hint).1 = (l.read count bytes hint').1 := by
  unfold Linker.read
  rw [hl]
  simp only [Backend.bytecode]
  split
  · rfl
  · split <;> rfl

/-- The number of instructions announced for a unit does not matter to its run. -/
theorem run_place (image : Image) (program : Program) (hint hint' : Nat) (sink : Sink)
    (fuel : Option Nat) (patience : Nat) :
    (place image program hint).1.run (place image program hint).2 sink fuel patience =
      (place image program hint').1.run (place image program hint').2 sink fuel patience := by
  obtain ⟨globals, primitives, heap⟩ := image
  rfl

/-- What two runs of units have in common that differ in what the session knows of the units. -/
structure SameRun (r r' : TurnOutcome × Session) : Prop where
  failure : r.1.failure? = r'.1.failure?
  output : r.2.output = r'.2.output
  image : r.2.image = r'.2.image

theorem sameRun_finish (s s' : Session) (u u' : FragmentUnit) (r : RunResult × Image × Sink) :
    SameRun (finish s u r) (finish s' u' r) := by
  obtain ⟨result, image, sink⟩ := r
  cases result with
  | faulted e => exact ⟨rfl, rfl, rfl⟩
  | unfinished => exact ⟨rfl, rfl, rfl⟩
  | finished o =>
    simp only [finish, commit_eq]
    cases o.commit image with
    | ok _ image' => exact ⟨rfl, rfl, rfl⟩
    | error e image' => exact ⟨rfl, rfl, rfl⟩

/-- Units of the same bytes run the same, whatever else is known of them. -/
theorem sameRun_of_bytes {s : Session} (hs : s.linker.backend = some .bytecode)
    {u u' : FragmentUnit} (hbytes : u.bytes = u'.bytes) : SameRun (s.runUnit u) (s.runUnit u') := by
  have hread := read_bytecode hs s.image.primitives.count u.bytes u.sizeHint u'.sizeHint
  rw [runUnit_eq, runUnit_eq, ← hbytes]
  generalize s.linker.read s.image.primitives.count u.bytes u.sizeHint = x at hread ⊢
  generalize s.linker.read s.image.primitives.count u.bytes u'.sizeHint = y at hread ⊢
  obtain ⟨result, linker⟩ := x
  obtain ⟨result', linker'⟩ := y
  obtain rfl : result = result' := hread
  cases result with
  | error e => exact ⟨rfl, rfl, rfl⟩
  | ok program =>
    simp only
    rw [run_place s.image program u.sizeHint u'.sizeHint]
    exact sameRun_finish _ _ u u' _

theorem finish_ne_compileFailed (s : Session) (u : FragmentUnit) (r : RunResult × Image × Sink)
    (message : String) : (finish s u r).1 ≠ .compileFailed message := by
  obtain ⟨result, image, sink⟩ := r
  cases result with
  | faulted e => simp [finish]
  | unfinished => simp [finish]
  | finished o =>
    simp only [finish, commit_eq]
    cases o.commit image <;> simp

/-- The run of a unit is no failure to compile. -/
theorem runUnit_ne_compileFailed (s : Session) (u : FragmentUnit) (message : String) :
    (s.runUnit u).1 ≠ .compileFailed message := by
  rw [runUnit_eq]
  split
  · simp
  · exact finish_ne_compileFailed _ u _ message

/-- A turn without directives runs its text as it is rebuilt. -/
theorem runTurn_rebuilt (s : Session) {source : String}
    (hdirectives : ∀ l ∈ lines source.toList, isDirectiveLine l = false) :
    ∃ t, s.runTurn source = s.runSource t ∧ Rebuilt source.toList t := by
  obtain ⟨t, ht, hrebuilt⟩ := segments_rebuilt hdirectives
  refine ⟨t, ?_, hrebuilt⟩
  unfold runTurn
  rw [runSegments_eq, ht]
  exact runPiece_code _ _ s t

/-- Running a source text and running the file that it compiles to agree. Let a text have no directives,
and no string literals that run over a line end with a carriage return. The compiler of files refuses
it just if the turn of a new session does; otherwise the turn and the run of the compiled file in
another new session succeed both or fail in the same way, print the same, and leave the same image. -/
theorem turn_agrees_with_compiled_file (files : Files) (limits : Limits) (source : String)
    (hdirectives : ∀ l ∈ lines source.toList, isDirectiveLine l = false)
    (hplain : PlainStrings source) :
    ((∃ e, CommandLine.compileSource source = .error e) ↔
      ∃ message, ((Session.new standardCompiler files limits).runTurn source).1 =
        .compileFailed message) ∧
      ∀ bytes, CommandLine.compileSource source = .ok bytes →
        SameRun ((Session.new standardCompiler files limits).runTurn source)
          ((Session.new standardCompiler files limits).runFile bytes) := by
  obtain ⟨t, hturn, hrebuilt⟩ :=
    runTurn_rebuilt (Session.new standardCompiler files limits) hdirectives
  have hcompile := compile_rebuilt hrebuilt (by rwa [String.ofList_toList]) standardNames
  rw [String.ofList_toList] at hcompile
  have hcompiler : (Session.new standardCompiler files limits).compiler = standardCompiler := rfl
  have hnames : (Session.new standardCompiler files limits).names = standardNames := rfl
  rw [hturn, runSource, hcompiler, hnames]
  unfold standardCompiler CommandLine.compileSource
  cases hs : compile standardNames source with
  | error e =>
    rw [hs] at hcompile
    cases ht : compile standardNames (String.ofList t) with
    | ok c =>
      rw [ht] at hcompile
      cases hcompile
    | error e' =>
      refine ⟨⟨fun _ => ⟨_, rfl⟩, fun _ => ⟨_, rfl⟩⟩, fun bytes hbytes => ?_⟩
      cases hbytes
  | ok c =>
    rw [hs] at hcompile
    cases ht : compile standardNames (String.ofList t) with
    | error e =>
      rw [ht] at hcompile
      cases hcompile
    | ok c' =>
      rw [ht] at hcompile
      obtain rfl : c' = c := Option.some.inj hcompile
      have hsame : SameRun ((Session.new standardCompiler files limits).runUnit (.ofCompiled c'))
          ((Session.new standardCompiler files limits).runFile c'.bytes) := sameRun_of_bytes rfl rfl
      refine ⟨⟨?_, ?_⟩, fun bytes hbytes => ?_⟩
      · rintro ⟨e, he⟩
        cases he
      · rintro ⟨message, hmessage⟩
        exact absurd hmessage (runUnit_ne_compileFailed _ _ message)
      · obtain rfl := Except.ok.inj hbytes
        exact hsame

/-- A text with carriage returns at its line ends, but in no string. -/
def returningText : String :=
  " \r\n\n// twice\r\nlet x = 21\r\nprint(x + x); \"done\""

theorem returningText_agrees :
    SameRun ((Session.new standardCompiler (FileTree.empty []).toFiles ⟨some 100, 0⟩).runTurn
        returningText)
      ((Session.new standardCompiler (FileTree.empty []).toFiles ⟨some 100, 0⟩).runFile
        ((CommandLine.compileSource returningText).toOption.getD [])) ∧
      ((Session.new standardCompiler (FileTree.empty []).toFiles ⟨some 100, 0⟩).runTurn
        returningText).2.output = "42\n" := by
  have hdirectives : ∀ l ∈ lines returningText.toList, isDirectiveLine l = false := by decide +kernel
  have hplain : PlainStrings returningText := by decide +kernel
  obtain ⟨bytes, hbytes⟩ : ∃ bytes, CommandLine.compileSource returningText = .ok bytes := by
    cases h : CommandLine.compileSource returningText with
    | ok bytes => exact ⟨bytes, rfl⟩
    | error e =>
      have hcompiles : (CommandLine.compileSource returningText).toOption.isSome = true := by
        decide +kernel
      rw [h] at hcompiles
      cases hcompiles
  refine ⟨?_, by decide +kernel⟩
  rw [hbytes]
  exact (turn_agrees_with_compiled_file _ _ returningText hdirectives hplain).2 bytes hbytes

/-- A text whose only string runs over a line end with a carriage return. -/
def brokenText : String :=
  "print(\"a\r\nb\")"

/-- The compiler of files keeps the carriage return, and the turn loses it. -/
theorem brokenText_disagrees :
    (∀ l ∈ lines brokenText.toList, isDirectiveLine l = false) ∧
      (CommandLine.compileSource brokenText).toOption.map (fun bytes =>
        ((Session.new standardCompiler (FileTree.empty []).toFiles ⟨some 100, 0⟩).runFile
          bytes).2.output) = some "a\r\nb\n" ∧
      ((Session.new standardCompiler (FileTree.empty []).toFiles ⟨some 100, 0⟩).runTurn
        brokenText).2.output = "a\nb\n" := by
  decide +kernel

end ScriptMachine.Session
