import Mathlib.Data.List.DropRight
import Mathlib.Data.List.TakeWhile
import Mathlib.Tactic.Tauto
import ScriptMachine.Proofs.CommandLine.CompleteTexts
import ScriptMachine.Proofs.Session.CompiledFiles

/-!
# Complete directives

The words of a directive know neither escapes nor comments. The prompt reads each line as source text,
which has both, and waits while that is not balanced. So a line that is a whole directive can be held
back, but only for its arguments: its sign and its name open nothing. Arguments that look the same to
both readers never hold a directive back.
-/

namespace ScriptMachine.Session

open Text

variable {c : Char} {cs r s : List Char}

/-! ## Words as they are written -/

/-- A word of a directive as it stands in the line. -/
inductive WrittenWord
  | bare (chars : List Char)
  | quoted (chars : List Char)
deriving DecidableEq

namespace WrittenWord

/-- The characters of a word in the line. -/
def spelled : WrittenWord → List Char
  | .bare cs => cs
  | .quoted cs => '"' :: (cs ++ ['"'])

/-- The word that the directive gets. -/
def word : WrittenWord → String
  | .bare cs | .quoted cs => String.ofList cs

/-- Whether a text ends within an escape: in a backslash that is not escaped itself. -/
def endsInEscape : List Char → Bool
  | [] => false
  | ['\\'] => true
  | '\\' :: _ :: r => endsInEscape r
  | _ :: r => endsInEscape r

theorem endsInEscape_eq_false {cs : List Char} (h : '\\' ∉ cs) : endsInEscape cs = false := by
  fun_induction endsInEscape cs with
  | case1 => rfl
  | case2 => exact absurd List.mem_cons_self h
  | case3 => exact absurd List.mem_cons_self h
  | case4 c cs _ _ ih => exact ih fun hcs => h (List.mem_cons_of_mem _ hcs)

/-- Whether a word, read as source text, leaves nothing open. A bare word begins no parenthesis, brace,
string or block comment; a quoted one does not escape its closing quote. -/
def LeavesClosed : WrittenWord → Prop
  | .bare cs => '(' ∉ cs ∧ '\x7b' ∉ cs ∧ '"' ∉ cs ∧ ¬['/', '*'] <:+: cs
  | .quoted cs => endsInEscape cs = false

end WrittenWord

/-- A text that is made of these words and of blanks. A bare word reaches up to a blank or to the end
of the text, a quoted one up to the next quote. -/
inductive MadeOfWords : List Char → List WrittenWord → Prop
  | nil : MadeOfWords [] []
  | blank {c : Char} {r : List Char} {ws : List WrittenWord} (hc : isBlank c = true)
      (h : MadeOfWords r ws) : MadeOfWords (c :: r) ws
  | bare {c : Char} {cs r : List Char} {ws : List WrittenWord} (hquote : c ≠ '"')
      (hcs : ∀ d ∈ c :: cs, isBlank d = false) (hr : ∀ d ∈ r.head?, isBlank d = true)
      (h : MadeOfWords r ws) : MadeOfWords (c :: cs ++ r) (.bare (c :: cs) :: ws)
  | quoted {cs r : List Char} {ws : List WrittenWord} (hcs : '"' ∉ cs) (h : MadeOfWords r ws) :
      MadeOfWords ('"' :: (cs ++ '"' :: r)) (.quoted cs :: ws)

namespace MadeOfWords

variable {w : WrittenWord} {ws : List WrittenWord}

theorem ofBlanks (h : ∀ d ∈ s, isBlank d = true) : MadeOfWords s [] := by
  induction s with
  | nil => exact .nil
  | cons c r ih =>
    exact .blank (h c List.mem_cons_self) (ih fun d hd => h d (List.mem_cons_of_mem _ hd))

/-- Blanks at the end of a text make no word. -/
theorem append_blanks (h : MadeOfWords s ws) {blanks : List Char}
    (hblanks : ∀ d ∈ blanks, isBlank d = true) : MadeOfWords (s ++ blanks) ws := by
  induction h with
  | nil => exact ofBlanks hblanks
  | blank hc _ ih => exact .blank hc ih
  | @bare c cs r ws hquote hcs hr _ ih =>
    rw [List.append_assoc]
    refine .bare hquote hcs (fun d hd => ?_) ih
    cases r with
    | nil => exact hblanks d (List.mem_of_mem_head? hd)
    | cons e r => exact hr d hd
  | @quoted cs r ws hcs _ ih =>
    rw [List.cons_append, List.append_assoc]
    exact .quoted hcs ih

/-- Only blanks stand before the first word. -/
theorem split_first (h : MadeOfWords s (w :: ws)) :
    ∃ blanks r, (∀ d ∈ blanks, isBlank d = true) ∧ s = blanks ++ w.spelled ++ r ∧
      MadeOfWords r ws := by
  generalize hall : w :: ws = all at h
  induction h with
  | nil => cases hall
  | @blank c r _ hc _ ih =>
    obtain ⟨blanks, rest, hblanks, rfl, hrest⟩ := ih hall
    refine ⟨c :: blanks, rest, fun d hd => ?_, rfl, hrest⟩
    rcases List.mem_cons.1 hd with rfl | hd
    · exact hc
    · exact hblanks d hd
  | @bare c cs r _ _ _ _ h _ =>
    cases hall
    exact ⟨[], r, fun _ hd => absurd hd List.not_mem_nil, rfl, h⟩
  | @quoted cs r _ _ h _ =>
    cases hall
    exact ⟨[], r, fun _ hd => absurd hd List.not_mem_nil, by simp [WrittenWord.spelled], h⟩

end MadeOfWords

/-- What a scan for words finds from a state on: the rest of an open word first. -/
def WordState.Finds : WordState → List Char → List WrittenWord → Prop
  | .between, s, ws => MadeOfWords s ws
  | .plain word, s, ws => ∃ cs r rest, s = cs ++ r ∧ (∀ d ∈ cs, isBlank d = false) ∧
      (∀ d ∈ r.head?, isBlank d = true) ∧ MadeOfWords r rest ∧
      ws = .bare (word.reverse ++ cs) :: rest
  | .quoted word, s, ws => ∃ cs r rest, s = cs ++ '"' :: r ∧ '"' ∉ cs ∧ MadeOfWords r rest ∧
      ws = .quoted (word.reverse ++ cs) :: rest

/-- The words that a scan gives are those that the text is made of. -/
theorem finds_of_wordsFrom {state : WordState} {done words : List String}
    (h : wordsFrom state done s = .ok words) :
    ∃ ws, state.Finds s ws ∧ words = done.reverse ++ ws.map WrittenWord.word := by
  fun_induction wordsFrom state done s with
  | case1 done => exact ⟨[], .nil, by simpa using (Except.ok.inj h).symm⟩
  | case2 done c r hc ih =>
    obtain ⟨ws, hws, rfl⟩ := ih h
    exact ⟨ws, .blank hc hws, rfl⟩
  | case3 done r _ ih =>
    obtain ⟨ws, ⟨cs, rest, more, rfl, hcs, hrest, rfl⟩, rfl⟩ := ih h
    exact ⟨_, .quoted hcs hrest, rfl⟩
  | case4 done c r hc hquote ih =>
    obtain ⟨ws, ⟨cs, rest, more, rfl, hcs, hblank, hrest, rfl⟩, rfl⟩ := ih h
    refine ⟨_, .bare hquote (fun d hd => ?_) hblank hrest, rfl⟩
    rcases List.mem_cons.1 hd with rfl | hd
    · exact Bool.eq_false_iff.2 hc
    · exact hcs d hd
  | case5 word done =>
    refine ⟨_, ⟨[], [], [], rfl, ?_, ?_, .nil, rfl⟩, ?_⟩
    · exact fun _ hd => absurd hd List.not_mem_nil
    · exact fun _ hd => nomatch hd
    · simpa [WrittenWord.word, closeWord] using (Except.ok.inj h).symm
  | case6 word done c r hc ih =>
    obtain ⟨ws, hws, rfl⟩ := ih h
    refine ⟨_, ⟨[], c :: r, ws, rfl, ?_, ?_, .blank hc hws, rfl⟩, ?_⟩
    · exact fun _ hd => absurd hd List.not_mem_nil
    · exact fun d hd => Option.some.inj hd ▸ hc
    · simp [WrittenWord.word, closeWord]
  | case7 word done c r hc ih =>
    obtain ⟨ws, ⟨cs, rest, more, rfl, hcs, hblank, hrest, rfl⟩, rfl⟩ := ih h
    refine ⟨_, ⟨c :: cs, rest, more, rfl, fun d hd => ?_, hblank, hrest, rfl⟩, by simp⟩
    rcases List.mem_cons.1 hd with rfl | hd
    · exact Bool.eq_false_iff.2 hc
    · exact hcs d hd
  | case8 => cases h
  | case9 word done r ih =>
    obtain ⟨ws, hws, rfl⟩ := ih h
    refine ⟨_, ⟨[], r, ws, rfl, List.not_mem_nil, hws, rfl⟩, ?_⟩
    simp [WrittenWord.word, closeWord]
  | case10 word done c r hc ih =>
    obtain ⟨ws, ⟨cs, rest, more, rfl, hcs, hrest, rfl⟩, rfl⟩ := ih h
    refine ⟨_, ⟨c :: cs, rest, more, rfl, ?_, hrest, rfl⟩, by simp⟩
    exact fun hmem => (List.mem_cons.1 hmem).elim (fun he => hc he.symm) hcs

/-! ## Names and arguments -/

/-- The name of a directive. -/
def Directive.name : Directive → String
  | .quit => "quit"
  | .use _ => "use"
  | .sections => "sections"
  | .libs => "libs"
  | .native .. => "native"

/-- The arguments of a directive. -/
def Directive.arguments : Directive → List String
  | .quit | .sections | .libs => []
  | .use file => [file]
  | .native library symbol => [library, symbol]

theorem Directive.isWordPart_of_mem_name (d : Directive) :
    ∀ c ∈ d.name.toList, Source.isWordPart c = true := by
  cases d <;> simp [Directive.name, Source.isWordPart]

theorem Directive.eq_of_ofWords {words : List String} {d : Directive} (h : ofWords words = .ok d) :
    words = d.name :: d.arguments := by
  unfold ofWords at h
  split at h <;> cases h <;> rfl

/-- A text is its trimmed part between blanks. -/
theorem exists_trim (s : List Char) :
    ∃ before after, (∀ c ∈ before, isBlank c = true) ∧ (∀ c ∈ after, isBlank c = true) ∧
      s = before ++ trim s ++ after := by
  refine ⟨s.takeWhile isBlank, ((trimStart s).reverse.takeWhile isBlank).reverse,
    fun c hc => List.mem_takeWhile_imp hc,
    fun c hc => List.mem_takeWhile_imp (List.mem_reverse.1 hc), ?_⟩
  have hend : trim s ++ ((trimStart s).reverse.takeWhile isBlank).reverse = trimStart s := by
    rw [trim, trimEnd, ← List.reverse_append, List.takeWhile_append_dropWhile, List.reverse_reverse]
  rw [List.append_assoc, hend, trimStart, List.takeWhile_append_dropWhile]

/-- The end of a line is trimmed away. -/
theorem trim_append_newline (s : List Char) : trim (s ++ ['\n']) = trim s := by
  have hnewline : isBlank '\n' = true := by decide
  rw [trim, trim, trimStart, List.dropWhile_append]
  split
  · next hs =>
    rw [trimStart, List.isEmpty_iff.1 hs]
    rfl
  · rw [trimEnd, List.reverse_append, List.reverse_singleton, List.singleton_append,
      List.dropWhile_cons_of_pos hnewline]
    rfl

/-- Trimming again changes nothing. -/
theorem trimEnd_trimEnd (s : List Char) : trimEnd (trimEnd s) = trimEnd s :=
  List.rdropWhile_idempotent isBlank s

theorem trimEnd_cons (hc : isBlank c = false) (s : List Char) : trimEnd (c :: s) = c :: trimEnd s := by
  rw [trimEnd, List.reverse_cons, List.dropWhile_append, trimEnd]
  split
  · next h => rw [List.isEmpty_iff.1 h, List.dropWhile_cons_of_neg (by simp [hc])]; rfl
  · rw [List.reverse_append, List.reverse_singleton, List.singleton_append]

/-- A text without newlines is one line. -/
theorem linesFrom_of_newline_notMem (hs : '\n' ∉ s) (line : List Char) :
    linesFrom line s = linesFrom (s.reverse ++ line) [] := by
  induction s generalizing line with
  | nil => rfl
  | cons c r ih =>
    have hc : c ≠ '\n' := fun h => hs (h ▸ List.mem_cons_self)
    rw [linesFrom_char hc, ih fun h => hs (List.mem_cons_of_mem _ h), List.reverse_cons,
      List.append_assoc, List.singleton_append]

/-- What a directive is trimmed to is a directive alone. -/
theorem segments_trim {line : List Char} (hline : '\n' ∉ line) (hsign : isDirectiveLine line = true) :
    trim line ≠ [] ∧ segments (trim line) = [.directive (trim line)] := by
  have hhash : isBlank '#' = false := by decide
  rw [isDirectiveLine, beq_iff_eq, List.head?_eq_some_iff] at hsign
  obtain ⟨r, hr⟩ := hsign
  have htrim : trim line = '#' :: trimEnd r := by rw [trim, hr, trimEnd_cons hhash]
  have hagain : trim ('#' :: trimEnd r) = '#' :: trimEnd r := by
    rw [trim, trimStart, List.dropWhile_cons_of_neg (by simp [hhash]), trimEnd_cons hhash,
      trimEnd_trimEnd]
  have hnewline : '\n' ∉ '#' :: trimEnd r := by
    obtain ⟨before, after, -, -, hs⟩ := exists_trim line
    rw [← htrim]
    exact fun h => hline (by rw [hs]; exact List.mem_append_left _ (List.mem_append_right _ h))
  have hlines : lines ('#' :: trimEnd r) = ['#' :: trimEnd r] := by
    rw [lines, linesFrom_of_newline_notMem hnewline]
    simp [linesFrom]
  have hdirective : isDirectiveLine ('#' :: trimEnd r) = true := by
    rw [isDirectiveLine, trimStart, List.dropWhile_cons_of_neg (by simp [hhash])]
    rfl
  rw [htrim]
  refine ⟨List.cons_ne_nil _ _, ?_⟩
  rw [segments, hlines, segmentsFrom, if_pos hdirective, hagain]
  rfl

/-- A line holds a directive if it is signs, the name and the arguments, with blanks between. The
arguments are all that comes after the name. -/
def Directive.IsWritten (d : Directive) (line rest : List Char) (args : List WrittenWord) : Prop :=
  ∃ lead name, (∀ c ∈ lead, c = '#' ∨ isBlank c = true) ∧
    line = lead ++ WrittenWord.spelled name ++ rest ∧ name.word = d.name ∧
    MadeOfWords rest args ∧ args.map WrittenWord.word = d.arguments

theorem exists_isWritten {line : List Char} {d : Directive}
    (h : Directive.parse (trim line) = .ok d) : ∃ rest args, d.IsWritten line rest args := by
  unfold Directive.parse at h
  split at h
  · cases h
  next words hwords =>
  obtain ⟨ws, hws, rfl⟩ := finds_of_wordsFrom hwords
  have hmap := Directive.eq_of_ofWords h
  rw [List.reverse_nil, List.nil_append] at hmap
  obtain ⟨name, args, rfl, hname, hargs⟩ := List.map_eq_cons_iff.1 hmap
  obtain ⟨blanks, rest, hblanks, hline, hrest⟩ := MadeOfWords.split_first hws
  obtain ⟨before, after, hbefore, hafter, hs⟩ := exists_trim line
  refine ⟨rest ++ after, args, before ++ (trim line).takeWhile (· == '#') ++ blanks, name, ?_, ?_,
    hname, hrest.append_blanks hafter, hargs⟩
  · intro c hc
    rcases List.mem_append.1 hc with hc | hc
    · rcases List.mem_append.1 hc with hc | hc
      · exact .inr (hbefore c hc)
      · exact .inl (by simpa using List.mem_takeWhile_imp hc)
    · exact .inr (hblanks c hc)
  · have hsplit : (trim line).takeWhile (· == '#') ++ (blanks ++ name.spelled ++ rest) = trim line := by
      rw [← hline, List.takeWhile_append_dropWhile]
    calc line = before ++ trim line ++ after := hs
      _ = before ++ ((trim line).takeWhile (· == '#') ++ (blanks ++ name.spelled ++ rest)) ++ after := by
        rw [hsplit]
      _ = _ := by simp only [List.append_assoc]

end ScriptMachine.Session

namespace ScriptMachine.Source

open Session Text

variable {c : Char} {cs r s : List Char}

/-! ## Words read as source text -/

theorem Scan.inString (hquote : '"' ∉ cs) (hescape : WrittenWord.endsInEscape cs = false) :
    Scan .string (cs ++ '"' :: r) [] .code r := by
  fun_induction WrittenWord.endsInEscape cs with
  | case1 => exact .closeString r
  | case2 => cases hescape
  | case3 c cs ih =>
    refine (Scan.escape c (cs ++ '"' :: r)).trans (ih (fun h => hquote ?_) hescape)
    exact List.mem_cons_of_mem _ (List.mem_cons_of_mem _ h)
  | case4 c cs hlast hpair ih =>
    have hback : c ≠ '\\' := by
      rintro rfl
      cases cs with
      | nil => exact hlast rfl rfl
      | cons d cs => exact hpair d cs rfl rfl
    have hc : c ≠ '"' := fun h => hquote (h ▸ List.mem_cons_self)
    exact (Scan.string hc hback _).trans (ih (fun h => hquote (List.mem_cons_of_mem _ h)) hescape)

/-- A quoted word is a string. -/
theorem Scan.quoted (hquote : '"' ∉ cs) (hescape : WrittenWord.endsInEscape cs = false) :
    Scan .code ('"' :: (cs ++ '"' :: r)) [] .code r :=
  (Scan.openString _).trans (.inString hquote hescape)

/-- A bare word is seen up to its end, or up to a line comment in it. -/
theorem Scan.bare (hquote : '"' ∉ cs) (hblock : ¬['/', '*'] <:+: cs)
    (hr : ∀ d ∈ r.head?, isBlank d = true) :
    Scan .code (cs ++ r) cs .code r ∨
      ∃ seen more, cs = seen ++ '/' :: '/' :: more ∧
        Scan .code (cs ++ r) seen .lineComment (more ++ r) := by
  induction cs with
  | nil => exact .inl (.refl .code r)
  | cons c cs ih =>
    have hc : c ≠ '"' := fun h => hquote (h ▸ List.mem_cons_self)
    have ih := ih (fun h => hquote (List.mem_cons_of_mem _ h))
      fun h => hblock (h.trans (List.suffix_cons c cs).isInfix)
    -- what follows a slash at the end of the word is a blank
    have hnext : ∀ d, d ∈ ['/', '*'] → (cs ++ r).head? = some d → cs.head? = some d := by
      intro d hd hhead
      cases cs with
      | nil =>
        have hblank := hr d hhead
        simp only [List.mem_cons, List.not_mem_nil, or_false] at hd
        rcases hd with rfl | rfl <;> exact absurd hblank (by decide)
      | cons e cs => exact hhead
    by_cases hline : c = '/' ∧ cs.head? = some '/'
    · obtain ⟨rfl, hhead⟩ := hline
      obtain ⟨more, rfl⟩ := List.head?_eq_some_iff.1 hhead
      exact .inr ⟨[], more, rfl, .openLine (more ++ r)⟩
    · have hstep : Scan .code (c :: (cs ++ r)) [c] .code (cs ++ r) := by
        refine .code hc fun hslash => ⟨fun h => ?_, fun h => ?_⟩
        · exact hline ⟨hslash, hnext _ (by simp) h⟩
        · obtain ⟨more, rfl⟩ := List.head?_eq_some_iff.1 (hnext _ (by simp) h)
          exact hblock ⟨[], more, by rw [hslash]; rfl⟩
      rcases ih with ih | ⟨seen, more, rfl, ih⟩
      · exact .inl (hstep.trans ih)
      · exact .inr ⟨c :: seen, more, rfl, hstep.trans ih⟩

/-- The rest of a line is in its comment. -/
theorem Scan.inLineComment (hs : '\n' ∉ s) : Scan .lineComment s [] .lineComment [] := by
  induction s with
  | nil => exact .refl _ _
  | cons c r ih =>
    have hc : c ≠ '\n' := fun h => hs (h ▸ List.mem_cons_self)
    exact (Scan.line hc r).trans (ih fun h => hs (List.mem_cons_of_mem _ h))

/-! ## Lines of words -/

/-- A text without surplus that ends in code or in a line comment. -/
theorem isBalanced_of_scan {seen : List Char} {next : Region} (h : Scan .code s seen next r)
    (hseen : level seen ≤ 0) (hlevel : level (outside next r) ≤ 0)
    (hclosed : (next.after r).isClosed = true) : isBalanced s = true := by
  rw [isBalanced, balancedFrom_eq, h.outside_eq, h.closed_eq, hclosed, level_append, Bool.and_true,
    decide_eq_true_eq]
  omega

theorem isBalanced_iff (s : List Char) :
    isBalanced s = true ↔
      level (outside .code s) ≤ 0 ∧ (Region.code.after s).isClosed = true := by
  rw [isBalanced, balancedFrom_eq, Int.zero_add, Bool.and_eq_true, decide_eq_true_eq]

theorem level_nonpos (hcs : '(' ∉ cs ∧ '\x7b' ∉ cs) : level cs ≤ 0 := by
  induction cs with
  | nil => exact Int.le_refl 0
  | cons c cs ih =>
    have hc : c ≠ '(' ∧ c ≠ '\x7b' :=
      ⟨fun h => hcs.1 (h ▸ List.mem_cons_self), fun h => hcs.2 (h ▸ List.mem_cons_self)⟩
    have ih := ih ⟨fun h => hcs.1 (List.mem_cons_of_mem _ h), fun h => hcs.2 (List.mem_cons_of_mem _ h)⟩
    have hlevel : charLevel c ≤ 0 := by
      unfold charLevel
      split
      · next h => exact absurd h (by tauto)
      · split <;> decide
    rw [level_cons]
    omega

/-- A line of words that leave nothing open is complete. -/
theorem isBalanced_of_words {ws : List WrittenWord} (h : MadeOfWords s ws) (hs : '\n' ∉ s)
    (hws : ∀ w ∈ ws, w.LeavesClosed) : isBalanced s = true := by
  induction h with
  | nil => rfl
  | @blank c r _ hc _ ih =>
    have hmarks := notMem_marks_of_isBlank hc
    have hrest := (isBalanced_iff r).1 (ih (fun h => hs (List.mem_cons_of_mem _ h)) hws)
    have hscan : Scan .code (c :: r) [c] .code r := .unmarked [c] (by simpa using hmarks) r
    have hseen : level [c] ≤ 0 := Int.le_of_eq (level_eq_zero (by simpa using hmarks))
    exact isBalanced_of_scan hscan hseen hrest.1 hrest.2
  | @bare c cs r ws _ _ hr _ ih =>
    obtain ⟨hparen, hbrace, hquote, hblock⟩ := hws _ List.mem_cons_self
    have hrest := (isBalanced_iff r).1 (ih (fun h => hs (List.mem_append_right _ h))
      fun w hw => hws w (List.mem_cons_of_mem _ hw))
    rcases Scan.bare hquote hblock hr with hscan | ⟨seen, more, hcs, hscan⟩
    · exact isBalanced_of_scan hscan (level_nonpos ⟨hparen, hbrace⟩) hrest.1 hrest.2
    · have hmore : '\n' ∉ more ++ r := fun h => hs (by
        rw [hcs, List.append_assoc]
        exact List.mem_append_right _ (List.mem_cons_of_mem _ (List.mem_cons_of_mem _ h)))
      have hseen : '(' ∉ seen ∧ '\x7b' ∉ seen := by
        rw [hcs] at hparen hbrace
        exact ⟨fun h => hparen (List.mem_append_left _ h), fun h => hbrace (List.mem_append_left _ h)⟩
      have hall := hscan.trans (Scan.inLineComment hmore)
      exact isBalanced_of_scan hall (by simpa using level_nonpos hseen) (Int.le_refl 0) rfl
  | @quoted cs r ws hquote _ ih =>
    have hr : '\n' ∉ r := fun h => hs (by simp [h])
    have hrest := (isBalanced_iff r).1 (ih hr fun w hw => hws w (List.mem_cons_of_mem _ hw))
    have hscan : Scan .code ('"' :: (cs ++ '"' :: r)) [] .code r :=
      .quoted hquote (hws _ List.mem_cons_self)
    exact isBalanced_of_scan hscan (Int.le_refl 0) hrest.1 hrest.2

/-- The sign of a directive and the blanks around it open nothing. -/
theorem Scan.signs (hcs : ∀ c ∈ cs, c = '#' ∨ isBlank c = true) (r : List Char) :
    Scan .code (cs ++ r) cs .code r := by
  refine .plain cs (fun c hc => ?_) r
  rcases hcs c hc with rfl | hc
  · decide
  · have hmarks := notMem_marks_of_isBlank hc
    exact ⟨fun h => hmarks (by rw [h]; decide), fun h => hmarks (by rw [h]; decide)⟩

theorem level_signs (hcs : ∀ c ∈ cs, c = '#' ∨ isBlank c = true) : level cs = 0 := by
  induction cs with
  | nil => rfl
  | cons c cs ih =>
    have hc : level [c] = 0 := by
      rcases hcs c List.mem_cons_self with rfl | hc
      · rfl
      · exact level_eq_zero (by simpa using notMem_marks_of_isBlank hc)
    have ih := ih fun d hd => hcs d (List.mem_cons_of_mem _ hd)
    simp only [level_cons, level_nil] at hc ⊢
    omega

/-- The name opens nothing either, with or without quotes. -/
theorem Scan.directiveName {name : WrittenWord} {d : Directive} (hname : name.word = d.name)
    (r : List Char) : ∃ seen, Scan .code (name.spelled ++ r) seen .code r ∧ level seen = 0 := by
  have hletters := d.isWordPart_of_mem_name
  have hmarks := fun c hc => notMem_marks_of_isWordPart (hletters c hc)
  cases name with
  | bare cs =>
    obtain rfl : cs = d.name.toList := by rw [← hname, WrittenWord.word, String.toList_ofList]
    exact ⟨_, .unmarked _ hmarks r, level_eq_zero hmarks⟩
  | quoted cs =>
    obtain rfl : cs = d.name.toList := by rw [← hname, WrittenWord.word, String.toList_ofList]
    refine ⟨[], ?_, rfl⟩
    rw [WrittenWord.spelled, List.cons_append, List.append_assoc]
    refine .quoted (fun h => hmarks _ h (by decide)) (WrittenWord.endsInEscape_eq_false fun h => ?_)
    exact absurd (hletters _ h) (by decide)

/-- So a line with a directive is complete if what comes after the name is. -/
theorem isBalanced_after_name {lead : List Char} {name : WrittenWord} {d : Directive}
    (hlead : ∀ c ∈ lead, c = '#' ∨ isBlank c = true) (hname : name.word = d.name) (r : List Char) :
    isBalanced (lead ++ name.spelled ++ r) = isBalanced r := by
  obtain ⟨seen, hread, hseen⟩ := Scan.directiveName hname r
  have hscan := (Scan.signs hlead (name.spelled ++ r)).trans hread
  have hlevel : level (lead ++ seen) = 0 := by rw [level_append, level_signs hlead, hseen]; rfl
  rw [List.append_assoc, isBalanced, isBalanced, balancedFrom_eq, balancedFrom_eq, hscan.outside_eq,
    hscan.closed_eq, level_append, hlevel, Int.zero_add]

end ScriptMachine.Source

namespace ScriptMachine.CommandLine

open Session Source Text

/-- A line that is a directive waits for more lines only if its arguments, which are all that comes
after its name, are not complete. It is run at once otherwise, as a turn of its own; so whenever each of
its arguments leaves nothing open, as it does when there are none. -/
theorem directive_waits_for_arguments {line : List Char} {d : Directive} (hline : '\n' ∉ line)
    (hsign : isDirectiveLine line = true) (hd : Directive.parse (trim line) = .ok d) :
    ∃ rest args, d.IsWritten line rest args ∧
      isBalanced (line ++ ['\n']) = isBalanced rest ∧
      ((∀ w ∈ args, w.LeavesClosed) → isBalanced rest = true) ∧
      segments (trim line) = [.directive (trim line)] ∧
      ∀ t : Transcript, t.pending = [] → t.takeLine line =
        if isBalanced rest then t.runPending (trim line) else { t with pending := line ++ ['\n'] } := by
  obtain ⟨rest, args, hwritten⟩ := exists_isWritten hd
  obtain ⟨lead, name, hlead, hparts, hname, hargs, -⟩ := id hwritten
  have hbalanced : isBalanced (line ++ ['\n']) = isBalanced rest := by
    rw [isBalanced_append_newline, hparts, isBalanced_after_name hlead hname]
  have hrest : '\n' ∉ rest := fun h => hline (by rw [hparts]; exact List.mem_append_right _ h)
  obtain ⟨hsome, hsegments⟩ := segments_trim hline hsign
  refine ⟨rest, args, hwritten, hbalanced, isBalanced_of_words hargs hrest, hsegments,
    fun t ht => ?_⟩
  rw [Transcript.takeLine, ht, List.nil_append, hbalanced, trim_append_newline]
  cases isBalanced rest with
  | false => rfl
  | true => simp [hsome]

/-- A session at its first prompt. -/
def firstPrompt : Transcript :=
  .start (Session.new Session.standardCompiler (Session.FileTree.empty []).toFiles ⟨some 100, 0⟩)
    (.default none)

/-- A directive with delimiters and backslashes in one argument, and a line comment in the other. -/
def libraryLine : List Char :=
  "  # native \"lib(m\\\\\"os//a) ".toList

/-- It does not wait. -/
theorem libraryLine_runs_at_once :
    isDirectiveLine libraryLine = true ∧
      Directive.parse (trim libraryLine) = .ok (.native "lib(m\\\\" "os//a)") ∧
      firstPrompt.takeLine libraryLine = firstPrompt.runPending (trim libraryLine) := by
  have hsign : isDirectiveLine libraryLine = true := by decide +kernel
  have hd : Directive.parse (trim libraryLine) = .ok (.native "lib(m\\\\" "os//a)") := by decide +kernel
  obtain ⟨rest, _, _, hbalanced, -, -, htake⟩ :=
    directive_waits_for_arguments (by decide +kernel) hsign hd
  have hcomplete : isBalanced (libraryLine ++ ['\n']) = true := by decide +kernel
  refine ⟨hsign, hd, ?_⟩
  rw [htake firstPrompt rfl, ← hbalanced, hcomplete, if_pos rfl]

/-- A directive is held back for a parenthesis in the name of a file, or for a backslash before the
quote at its end. -/
theorem directives_held_back :
    (isDirectiveLine "#use a(b".toList = true ∧
      Directive.parse (trim "#use a(b".toList) = .ok (.use "a(b") ∧
      isBalanced ("#use a(b".toList ++ ['\n']) = false ∧
      (firstPrompt.takeLine "#use a(b".toList).pending = "#use a(b\n".toList) ∧
    isDirectiveLine "#use \"a\\\"".toList = true ∧
      Directive.parse (trim "#use \"a\\\"".toList) = .ok (.use "a\\") ∧
      isBalanced ("#use \"a\\\"".toList ++ ['\n']) = false := by
  have hheld : isBalanced ("#use a(b".toList ++ ['\n']) = false := by decide +kernel
  have htake : (firstPrompt.takeLine "#use a(b".toList).pending = "#use a(b\n".toList := by
    rw [Transcript.takeLine, show firstPrompt.pending = [] from rfl, List.nil_append, hheld]
    decide +kernel
  exact ⟨⟨by decide +kernel, by decide +kernel, hheld, htake⟩, by decide +kernel, by decide +kernel,
    by decide +kernel⟩

end ScriptMachine.CommandLine
