import ScriptMachine.Source.Balance
import ScriptMachine.Proofs.Source.Respelling

/-!
# Strings and comments in a text

A scan of a text goes through code, strings and comments. What it sees of the code are the blanks and
the tokens that the lexer reads, each in its turn: both readers enter and leave strings and comments
at the same characters.
-/

namespace ScriptMachine.Source

/-! ## Scans -/

/-- The characters outside of strings and comments, without the quotes, for a scan that starts in a
region. -/
def outside : Region → List Char → List Char
  | _, [] => []
  | .code, '"' :: r => outside .string r
  | .code, '/' :: '/' :: r => outside .lineComment r
  | .code, '/' :: '*' :: r => outside (.blockComment false) r
  | .code, c :: r => c :: outside .code r
  | .string, ['\\'] => []
  | .string, '\\' :: _ :: r => outside .string r
  | .string, '"' :: r => outside .code r
  | .string, _ :: r => outside .string r
  | .lineComment, '\n' :: r => outside .code r
  | .lineComment, _ :: r => outside .lineComment r
  | .blockComment true, '/' :: r => outside .code r
  | .blockComment _, c :: r => outside (.blockComment (c == '*')) r

/-- Where a scan that starts in a region stands after a text. -/
def Region.after : Region → List Char → Region
  | g, [] => g
  | .code, '"' :: r => Region.string.after r
  | .code, '/' :: '/' :: r => Region.lineComment.after r
  | .code, '/' :: '*' :: r => (Region.blockComment false).after r
  | .code, _ :: r => Region.code.after r
  | .string, ['\\'] => .string
  | .string, '\\' :: _ :: r => Region.string.after r
  | .string, '"' :: r => Region.code.after r
  | .string, _ :: r => Region.string.after r
  | .lineComment, '\n' :: r => Region.code.after r
  | .lineComment, _ :: r => Region.lineComment.after r
  | .blockComment true, '/' :: r => Region.code.after r
  | .blockComment _, c :: r => (Region.blockComment (c == '*')).after r

/-- Whether a text may end here: in code or in a line comment, but neither in a string nor in a block
comment. -/
def Region.isClosed : Region → Bool
  | .code | .lineComment => true
  | .string | .blockComment _ => false

/-- A scan from a region over a text sees some characters, and goes on from another region with the
rest. -/
structure Scan (region : Region) (s seen : List Char) (next : Region) (rest : List Char) : Prop where
  outside_eq : outside region s = seen ++ outside next rest
  closed_eq : (region.after s).isClosed = (next.after rest).isClosed

namespace Scan

variable {c : Char} {region middle next : Region} {s r rest seen more : List Char}

theorem refl (region : Region) (s : List Char) : Scan region s [] region s :=
  ⟨rfl, rfl⟩

theorem trans (h : Scan region s seen middle r) (hr : Scan middle r more next rest) :
    Scan region s (seen ++ more) next rest where
  outside_eq := by rw [h.outside_eq, hr.outside_eq, List.append_assoc]
  closed_eq := h.closed_eq.trans hr.closed_eq

/-! The signs that lead from one region to another are not seen, nor are escapes. -/

theorem openString (r : List Char) : Scan .code ('"' :: r) [] .string r :=
  ⟨rfl, rfl⟩

theorem closeString (r : List Char) : Scan .string ('"' :: r) [] .code r :=
  ⟨rfl, rfl⟩

theorem openLine (r : List Char) : Scan .code ('/' :: '/' :: r) [] .lineComment r :=
  ⟨rfl, rfl⟩

theorem closeLine (r : List Char) : Scan .lineComment ('\n' :: r) [] .code r :=
  ⟨rfl, rfl⟩

theorem openBlock (r : List Char) : Scan .code ('/' :: '*' :: r) [] (.blockComment false) r :=
  ⟨rfl, rfl⟩

theorem closeBlock (r : List Char) : Scan (.blockComment true) ('/' :: r) [] .code r :=
  ⟨by rw [outside]; rfl, by rw [Region.after]⟩

theorem escape (c : Char) (r : List Char) : Scan .string ('\\' :: c :: r) [] .string r :=
  ⟨rfl, rfl⟩

/-- A character of the code is seen. -/
theorem code (hquote : c ≠ '"') (hslash : c = '/' → r.head? ≠ some '/' ∧ r.head? ≠ some '*') :
    Scan .code (c :: r) [c] .code r := by
  have hline : ∀ u, c = '/' → r = '/' :: u → False := by
    rintro u rfl rfl
    exact (hslash rfl).1 rfl
  have hblock : ∀ u, c = '/' → r = '*' :: u → False := by
    rintro u rfl rfl
    exact (hslash rfl).2 rfl
  constructor
  · rw [outside]
    · rfl
    · exact hquote
    · exact hline
    · exact hblock
  · rw [Region.after]
    · exact hquote
    · exact hline
    · exact hblock

/-- Characters that begin neither a string nor a comment are seen as they are. -/
theorem plain (cs : List Char) (hcs : ∀ d ∈ cs, d ≠ '"' ∧ d ≠ '/') (r : List Char) :
    Scan .code (cs ++ r) cs .code r := by
  induction cs with
  | nil => exact refl .code r
  | cons d cs ih =>
    obtain ⟨hquote, hslash⟩ := hcs d List.mem_cons_self
    exact (code hquote fun h => absurd h hslash).trans
      (ih fun e he => hcs e (List.mem_cons_of_mem _ he))

/-- A string goes on with a character that is neither a quote nor a backslash. -/
theorem string (hquote : c ≠ '"') (hback : c ≠ '\\') (r : List Char) :
    Scan .string (c :: r) [] .string r := by
  constructor
  · rw [outside]
    · rfl
    · exact fun h _ => hback h
    · exact fun _ _ h _ => hback h
    · exact hquote
  · rw [Region.after]
    · exact fun h _ => hback h
    · exact fun _ _ h _ => hback h
    · exact hquote

/-- A line comment goes on up to a newline. -/
theorem line (hc : c ≠ '\n') (r : List Char) : Scan .lineComment (c :: r) [] .lineComment r := by
  constructor
  · rw [outside]
    · rfl
    · exact hc
  · rw [Region.after]
    exact hc

/-- A block comment goes on with a character that does not close it. -/
theorem block {star : Bool} (hc : star = true → c ≠ '/') (r : List Char) :
    Scan (.blockComment star) (c :: r) [] (.blockComment (c == '*')) r := by
  constructor
  · rw [outside]
    · rfl
    · exact fun hstar hslash => hc hstar hslash
  · rw [Region.after]
    exact fun hstar hslash => hc hstar hslash

end Scan

/-! ## Characters -/

/-- How many levels of parentheses and braces a character opens, or closes if it is negative. -/
def charLevel (c : Char) : Int :=
  if c = '(' ∨ c = '{' then 1 else if c = ')' ∨ c = '}' then -1 else 0

/-- How many levels of parentheses and braces these characters open. -/
def level : List Char → Int
  | [] => 0
  | c :: cs => charLevel c + level cs

@[simp] theorem level_nil : level [] = 0 := rfl

@[simp] theorem level_cons (c : Char) (cs : List Char) : level (c :: cs) = charLevel c + level cs :=
  rfl

@[simp] theorem level_append (cs ds : List Char) : level (cs ++ ds) = level cs + level ds := by
  induction cs with
  | nil => simp
  | cons c cs ih => rw [List.cons_append, level_cons, level_cons, ih, Int.add_assoc]

/-- The characters that begin strings and comments, the one that begins directives, and the delimiters. -/
def marks : List Char :=
  ['"', '/', '#', '(', ')', '{', '}']

/-- A class of characters without these has none of them. -/
theorem notMem_marks {f : Char → Bool} (hf : marks.any f = false) {c : Char} (hc : f c = true) :
    c ∉ marks :=
  fun hmark => absurd (List.any_eq_true.2 ⟨c, hmark, hc⟩) (Bool.eq_false_iff.1 hf)

theorem notMem_marks_of_isBlank {c : Char} (hc : Text.isBlank c = true) : c ∉ marks :=
  notMem_marks (by decide) hc

theorem notMem_marks_of_isWordPart {c : Char} (hc : isWordPart c = true) : c ∉ marks :=
  notMem_marks (by decide) hc

theorem level_eq_zero {cs : List Char} (hcs : ∀ c ∈ cs, c ∉ marks) : level cs = 0 := by
  induction cs with
  | nil => rfl
  | cons c cs ih =>
    have hc := hcs c List.mem_cons_self
    simp only [marks, List.mem_cons, not_or] at hc
    rw [level_cons, charLevel, if_neg (by tauto), if_neg (by tauto),
      ih fun d hd => hcs d (List.mem_cons_of_mem _ hd)]
    rfl

theorem hash_notMem {cs : List Char} (hcs : ∀ c ∈ cs, c ∉ marks) : '#' ∉ cs :=
  fun h => hcs _ h (by decide)

/-- Characters without marks are seen as they are. -/
theorem Scan.unmarked (cs : List Char) (hcs : ∀ c ∈ cs, c ∉ marks) (r : List Char) :
    Scan .code (cs ++ r) cs .code r := by
  refine .plain cs (fun c hc => ⟨?_, ?_⟩) r
  · exact fun h => hcs c hc (by rw [h]; decide)
  · exact fun h => hcs c hc (by rw [h]; decide)

/-! ## Lines -/

/-- What the end of a line does to a scan: it sees no more delimiters, it leaves at most a line comment,
and goes on with the next line. -/
structure EndsLine (region : Region) (l seen : List Char) (next : Region) : Prop where
  level_eq : level seen = level (outside region l)
  closed_eq : next.isClosed = (region.after l).isClosed
  notLine : next ≠ .lineComment
  scan : ∀ s, Scan region (l ++ '\n' :: s) seen next s

theorem exists_endsLine_step {region middle : Region} {l r more : List Char}
    (h : Scan region l more middle r)
    (hline : ∀ s, Scan region (l ++ '\n' :: s) more middle (r ++ '\n' :: s))
    (hr : ∃ seen next, EndsLine middle r seen next) : ∃ seen next, EndsLine region l seen next := by
  obtain ⟨seen, next, hr⟩ := hr
  refine ⟨more ++ seen, next, ?_, hr.closed_eq.trans h.closed_eq.symm, hr.notLine,
    fun s => (hline s).trans (hr.scan s)⟩
  rw [h.outside_eq, level_append, level_append, hr.level_eq]

/-- A scan over a line depends on the line alone, and never ends in a line comment. -/
theorem exists_endsLine (region : Region) (l : List Char) :
    ∃ seen next, EndsLine region l seen next := by
  fun_induction Region.after region l with
  | case1 region =>
    cases region with
    | code => exact ⟨['\n'], .code, rfl, rfl, nofun, .plain ['\n'] (by simp)⟩
    | string => exact ⟨[], .string, rfl, rfl, nofun, .string (by decide) (by decide)⟩
    | lineComment => exact ⟨[], .code, rfl, rfl, nofun, .closeLine⟩
    | blockComment star =>
      have hlevel : level (outside (.blockComment star) []) = 0 := by cases star <;> rfl
      exact ⟨[], .blockComment false, hlevel.symm, by cases star <;> rfl, nofun,
        .block fun _ => by decide⟩
  | case2 r ih => exact exists_endsLine_step (.openString r) (fun _ => .openString _) ih
  | case3 r ih => exact exists_endsLine_step (.openLine r) (fun _ => .openLine _) ih
  | case4 r ih => exact exists_endsLine_step (.openBlock r) (fun _ => .openBlock _) ih
  | case5 c r hquote hline hblock ih =>
    have hhead : ∀ d, (∀ u, c = '/' → r ≠ d :: u) → c = '/' → r.head? ≠ some d := by
      intro d hd hc hhead
      obtain ⟨u, rfl⟩ := List.head?_eq_some_iff.1 hhead
      exact hd u hc rfl
    refine exists_endsLine_step (.code hquote fun h => ⟨hhead _ hline h, hhead _ hblock h⟩)
      (fun s => .code hquote fun h => ?_) ih
    -- A newline after a slash begins no comment either.
    cases r with
    | nil => exact ⟨by simp, by simp⟩
    | cons d r => exact ⟨hhead _ hline h, hhead _ hblock h⟩
  | case6 => exact ⟨[], .string, rfl, rfl, nofun, .escape '\n'⟩
  | case7 c r ih => exact exists_endsLine_step (.escape c r) (fun _ => .escape c _) ih
  | case8 r ih => exact exists_endsLine_step (.closeString r) (fun _ => .closeString _) ih
  | case9 c r hback hescape hquote ih =>
    have hc : c ≠ '\\' := by
      rintro rfl
      cases r with
      | nil => exact hback rfl rfl
      | cons d r => exact hescape d r rfl rfl
    exact exists_endsLine_step (.string hquote hc r) (fun _ => .string hquote hc _) ih
  | case10 r ih => exact exists_endsLine_step (.closeLine r) (fun _ => .closeLine _) ih
  | case11 c r hc ih => exact exists_endsLine_step (.line hc r) (fun _ => .line hc _) ih
  | case12 r ih => exact exists_endsLine_step (.closeBlock r) (fun _ => .closeBlock _) ih
  | case13 star c r hc ih =>
    exact exists_endsLine_step (.block hc r) (fun _ => .block hc _) ih

/-! ## Gaps -/

/-- Where a scan stands while the lexer skips a gap. After a star in a block comment there is no slash
ahead, which the lexer would have taken with the star. -/
inductive Gap.ScannedIn : Gap → Region → List Char → Prop
  | blank {s : List Char} : ScannedIn .blank .code s
  | line {s : List Char} : ScannedIn .line .lineComment s
  | block {o : Position} {star : Bool} {s : List Char} (h : star = true → s.head? ≠ some '/') :
    ScannedIn (.block o) (.blockComment star) s

/-- What a scan makes of a gap: only blanks are seen of it, and a block comment that is not closed is
not left. -/
def SeenAsGap (region : Region) (s : List Char) :
    Except SyntaxError (Position × List Char) → Prop
  | .ok (_, r) => ∃ blanks, (∀ c ∈ blanks, Text.isBlank c = true) ∧ Scan region s blanks .code r
  | .error _ => (region.after s).isClosed = false

theorem Scan.seenAsGap {region middle : Region} {s r seen : List Char}
    {result : Except SyntaxError (Position × List Char)} (h : Scan region s seen middle r)
    (hseen : ∀ c ∈ seen, Text.isBlank c = true) (hr : SeenAsGap middle r result) :
    SeenAsGap region s result := by
  match result with
  | .ok (_, rest) =>
    obtain ⟨blanks, hblanks, hscan⟩ := hr
    refine ⟨seen ++ blanks, fun c hc => ?_, h.trans hscan⟩
    rcases List.mem_append.1 hc with hc | hc
    · exact hseen c hc
    · exact hblanks c hc
  | .error _ => exact h.closed_eq.trans hr

theorem seenAsGap_of_skipGap {g : Gap} {region : Region} {s : List Char} (hg : g.ScannedIn region s)
    (p : Position) : SeenAsGap region s (skipGap g p s) := by
  have hnone : ∀ c ∈ ([] : List Char), Text.isBlank c = true := fun _ h => absurd h List.not_mem_nil
  fun_induction skipGap g p s generalizing region with
  | case1 p r ih => cases hg; exact (Scan.openLine r).seenAsGap hnone (ih .line)
  | case2 p r ih =>
    cases hg
    exact (Scan.openBlock r).seenAsGap hnone (ih (.block fun h => absurd h Bool.false_ne_true))
  | case3 p c r _ _ hc ih =>
    cases hg
    have hscan := Scan.unmarked [c] (by simpa using notMem_marks_of_isBlank hc) r
    exact hscan.seenAsGap (by simpa using hc) (ih .blank)
  | case4 p c r _ _ _ => cases hg; exact ⟨[], hnone, .refl _ _⟩
  | case5 p r ih => cases hg; exact (Scan.closeLine r).seenAsGap hnone (ih .blank)
  | case6 p c r hc ih => cases hg; exact (Scan.line hc r).seenAsGap hnone (ih .line)
  | case7 o p r ih =>
    cases hg with
    | @block _ star _ h =>
      have hstar : Scan (.blockComment star) ('*' :: '/' :: r) [] (.blockComment true) ('/' :: r) :=
        .block (fun _ => by decide) _
      exact (hstar.trans (.closeBlock r)).seenAsGap hnone (ih .blank)
  | case8 o p c r hc ih =>
    cases hg with
    | block hstar =>
      have hopen := fun h => fun heq : c = '/' => hstar h (by rw [heq]; rfl)
      refine (Scan.block hopen r).seenAsGap hnone (ih (.block fun h hhead => ?_))
      obtain ⟨u, rfl⟩ := List.head?_eq_some_iff.1 hhead
      exact hc u (by simpa using h) rfl
  | case9 o p => cases hg; rfl
  | case10 g p hblock =>
    cases hg with
    | blank => exact ⟨[], hnone, .refl _ _⟩
    | line => exact ⟨[], hnone, rfl, rfl⟩
    | block => exact absurd rfl (hblock _)

/-- A gap ends before a character that is no blank and begins no comment. -/
theorem head_of_skipGap {g : Gap} {p q : Position} {c : Char} {s r : List Char}
    (h : skipGap g p s = .ok (q, c :: r)) :
    Text.isBlank c = false ∧ (c = '/' → r.head? ≠ some '/' ∧ r.head? ≠ some '*') := by
  fun_induction skipGap g p s with
  | case1 p s ih => exact ih h
  | case2 p s ih => exact ih h
  | case3 p d s _ _ _ ih => exact ih h
  | case4 p d s hline hblock hd =>
    cases h
    refine ⟨Bool.eq_false_iff.2 hd, fun hc => ⟨fun hhead => ?_, fun hhead => ?_⟩⟩
    · obtain ⟨u, rfl⟩ := List.head?_eq_some_iff.1 hhead
      exact hline u hc rfl
    · obtain ⟨u, rfl⟩ := List.head?_eq_some_iff.1 hhead
      exact hblock u hc rfl
  | case5 p s ih => exact ih h
  | case6 p d s _ ih => exact ih h
  | case7 o p s ih => exact ih h
  | case8 o p d s _ ih => exact ih h
  | case9 o p => cases h
  | case10 g p _ => cases h

/-! ## Tokens -/

/-- Whether a token is an opening parenthesis or brace. -/
def Token.isOpening : Token → Bool
  | .sign .lparen | .sign .lbrace => true
  | _ => false

/-- Whether a token is a closing parenthesis or brace. -/
def Token.isClosing : Token → Bool
  | .sign .rparen | .sign .rbrace => true
  | _ => false

/-- How many levels of parentheses and braces a list of tokens opens. -/
def surplus (ts : List Token) : Int :=
  ts.countP Token.isOpening - ts.countP Token.isClosing

@[simp] theorem surplus_nil : surplus [] = 0 := rfl

@[simp] theorem surplus_append (ts us : List Token) :
    surplus (ts ++ us) = surplus ts + surplus us := by
  simp only [surplus, List.countP_append]
  omega

theorem surplus_cons (t : Token) (ts : List Token) : surplus (t :: ts) = surplus [t] + surplus ts :=
  surplus_append [t] ts

/-- The end of the text stands in a string or in a block comment. -/
def SyntaxError.IsUnclosed (e : SyntaxError) : Prop :=
  e.fault = .unclosedString ∨ e.fault = .unclosedComment

/-- A string is left after its closing quote, and never if it has none. -/
theorem scan_of_readContents (o : Position) (done s : List Char) :
    match readContents o done s with
    | .ok (_, r) => Scan .string s [] .code r
    | .error e => e.IsUnclosed → (Region.string.after s).isClosed = false := by
  fun_induction readContents o done s with
  | case1 done => exact fun _ => rfl
  | case2 done r => exact .closeString r
  | case3 done => exact fun _ => rfl
  | case4 done c r _ ih =>
    split at ih
    · exact ⟨ih.outside_eq, ih.closed_eq⟩
    · exact ih
  | case5 done c r _ => rintro (h | h) <;> cases h
  | case6 done c r hquote hback hpair ih =>
    have hslash : c ≠ '\\' := by
      rintro rfl
      cases r with
      | nil => exact hback rfl rfl
      | cons d r => exact hpair d r rfl rfl
    have hstep := Scan.string hquote hslash r
    split at ih
    · exact hstep.trans ih
    · exact fun h => hstep.closed_eq.trans (ih h)

/-- What a scan sees of a token. -/
structure Token.SeenAs (t : Token) (seen : List Char) : Prop where
  level_eq : level seen = surplus [t]
  noHash : '#' ∉ seen

theorem Token.SeenAs.unmarked {t : Token} (ht : surplus [t] = 0) {cs : List Char}
    (hcs : ∀ c ∈ cs, c ∉ marks) : t.SeenAs cs :=
  ⟨(level_eq_zero hcs).trans ht.symm, hash_notMem hcs⟩

theorem isWordPart_of_isNumberPart {c : Char} (h : isNumberPart c = true) : isWordPart c = true := by
  rcases Bool.or_eq_true_iff.1 h with h | h
  · exact isWordPart_of_isDigit h
  · exact Bool.or_eq_true_iff.2 (.inr h)

/-- A word or a number is seen as it is. -/
theorem scan_run {f : Char → Bool} {t : Token} {c : Char} (hc : isWordPart c = true)
    (hf : ∀ d, f d = true → isWordPart d = true) (ht : surplus [t] = 0) (r : List Char) :
    ∃ seen, t.SeenAs seen ∧ Scan .code (c :: r) seen .code (r.dropWhile f) := by
  have hrun : ∀ d ∈ c :: r.takeWhile f, d ∉ marks := by
    intro d hd
    rcases List.mem_cons.1 hd with rfl | hd
    · exact notMem_marks_of_isWordPart hc
    · exact notMem_marks_of_isWordPart (hf d (List.all_eq_true.1 List.all_takeWhile d hd))
  refine ⟨c :: r.takeWhile f, .unmarked ht hrun, ?_⟩
  have hscan := Scan.unmarked _ hrun (r.dropWhile f)
  rwa [List.cons_append, List.takeWhile_append_dropWhile] at hscan

theorem Sign.seenAs (g : Sign) : (Token.sign g).SeenAs g.spelling.toList := by
  cases g <;> exact ⟨by decide, by decide⟩

theorem Sign.plain_of_ne_slash {g : Sign} (hg : g ≠ .slash) :
    ∀ c ∈ g.spelling.toList, c ≠ '"' ∧ c ≠ '/' := by
  cases g <;> first | exact absurd rfl hg | simp [Sign.spelling]

/-- A token is seen as it is spelled, and a string not at all. -/
theorem scan_of_readToken {c : Char} {r : List Char}
    (hslash : c = '/' → r.head? ≠ some '/' ∧ r.head? ≠ some '*') (p : Position) :
    match readToken p c r with
    | .ok t => ∃ seen, t.token.SeenAs seen ∧ Scan .code (c :: r) seen .code t.rest
    | .error e => e.IsUnclosed → (Region.code.after (c :: r)).isClosed = false := by
  unfold readToken
  by_cases hdigit : isDigit c = true
  · rw [if_pos hdigit]
    exact scan_run (isWordPart_of_isDigit hdigit) (fun _ => isWordPart_of_isNumberPart) rfl r
  rw [if_neg hdigit]
  by_cases hstart : isWordStart c = true
  · rw [if_pos hstart]
    refine scan_run (isWordPart_of_isWordStart hstart) (fun _ h => h) ?_ r
    cases Keyword.ofWord? (String.ofList (c :: r.takeWhile isWordPart)) <;> rfl
  rw [if_neg hstart]
  by_cases hquote : c = '"'
  · rw [if_pos hquote]
    subst hquote
    have hcontents := scan_of_readContents p [] r
    cases hread : readContents p [] r with
    | error e =>
      rw [hread] at hcontents
      exact fun h => (Scan.openString r).closed_eq.trans (hcontents h)
    | ok result =>
      rw [hread] at hcontents
      exact ⟨[], ⟨rfl, by simp⟩, (Scan.openString r).trans hcontents⟩
  rw [if_neg hquote]
  cases hread : Sign.read? (c :: r) with
  | none => rintro (h | h) <;> cases h
  | some result =>
    obtain ⟨g, rest⟩ := result
    refine ⟨g.spelling.toList, Sign.seenAs g, ?_⟩
    have heq := Sign.eq_spelling_append_of_read? hread
    by_cases hg : g = .slash
    · subst hg
      obtain ⟨rfl, rfl⟩ := List.cons.inj heq
      exact .code hquote hslash
    · rw [heq]
      exact .plain _ (Sign.plain_of_ne_slash hg) rest

/-! ## Texts -/

/-- The tokens of a text that are added to those in `done`, and what a scan sees of the text: the
delimiters of these tokens and no hash. A scan does not leave the string or block comment that the
lexer finds unclosed. -/
theorem scan_of_lexFrom (done : List Lexeme) (p : Position) (s : List Char) :
    match lexFrom done p s with
    | .ok stream => ∃ added, stream.lexemes = done.reverse ++ added ∧
        level (outside .code s) = surplus (added.map Lexeme.token) ∧ '#' ∉ outside .code s ∧
        (Region.code.after s).isClosed = true
    | .error e => e.IsUnclosed → (Region.code.after s).isClosed = false := by
  induction hn : s.length using Nat.strongRecOn generalizing s p done with
  | ind n ih =>
    rw [lexFrom_eq]
    have hgap := seenAsGap_of_skipGap .blank (s := s) p
    cases hs : skipGap .blank p s with
    | error e =>
      rw [hs] at hgap
      exact fun _ => hgap
    | ok result =>
      obtain ⟨q, r⟩ := result
      rw [hs] at hgap
      obtain ⟨blanks, hblanks, hscan⟩ := hgap
      have hmarks : ∀ c ∈ blanks, c ∉ marks := fun c hc => notMem_marks_of_isBlank (hblanks c hc)
      have hlevel := level_eq_zero hmarks
      have hhash := hash_notMem hmarks
      cases r with
      | nil =>
        refine ⟨[], by simp, ?_, ?_, hscan.closed_eq⟩
        · simpa [hscan.outside_eq, outside] using hlevel
        · simpa [hscan.outside_eq, outside] using hhash
      | cons c r =>
        have htoken := scan_of_readToken (head_of_skipGap hs).2 q
        dsimp only
        cases ht : readToken q c r with
        | error e =>
          rw [ht] at htoken
          exact fun he => hscan.closed_eq.trans (htoken he)
        | ok t =>
          rw [ht] at htoken
          obtain ⟨seen, hseen, hstep⟩ := htoken
          have hlength := length_le_of_skipGap hs
          have hshorter := rest_length_lt_of_readToken ht
          have hboth := hscan.trans hstep
          have hrest := ih _ (by omega) (⟨t.token, q⟩ :: done) (q.after t.text) t.rest rfl
          dsimp only
          cases hlex : lexFrom (⟨t.token, q⟩ :: done) (q.after t.text) t.rest with
          | error e =>
            rw [hlex] at hrest
            exact fun he => hboth.closed_eq.trans (hrest he)
          | ok stream =>
            rw [hlex] at hrest
            obtain ⟨added, hadded, hsum, hnone, hclosed⟩ := hrest
            refine ⟨⟨t.token, q⟩ :: added, by simpa using hadded, ?_, ?_,
              hboth.closed_eq.trans hclosed⟩
            · rw [hboth.outside_eq, level_append, level_append, hlevel, hseen.level_eq, hsum,
                Int.zero_add]
              exact (surplus_cons t.token _).symm
            · rw [hboth.outside_eq]
              simp [hhash, hseen.noHash, hnone]

end ScriptMachine.Source
