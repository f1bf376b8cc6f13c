import ScriptMachine.Source.SyntaxError
import ScriptMachine.Source.StringLiteral
import ScriptMachine.Text.Blank

/-!
# Lexing

A text is read as gaps and tokens in turn. A gap is made of blanks, line comments and block
comments; a token is the longest one that starts where the gap ends. Every reader hands back the
rest of the text, and the rest after a token is shorter, so reading ends.
-/

namespace ScriptMachine.Source

/-! ## Gaps -/

/-- Where a gap stands: between comments, in a line comment, or in a block comment opened at a
given place. -/
inductive Gap
  | blank
  | line
  | block (opened : Position)
deriving DecidableEq, Repr

/-- Skips a gap: the place and the text after it. Only an unclosed block comment is an error. -/
def skipGap : Gap → Position → List Char → Except SyntaxError (Position × List Char)
  | .blank, p, '/' :: '/' :: r => skipGap .line ((p.next '/').next '/') r
  | .blank, p, '/' :: '*' :: r => skipGap (.block p) ((p.next '/').next '*') r
  | .blank, p, c :: r =>
    if Text.isBlank c then skipGap .blank (p.next c) r else .ok (p, c :: r)
  | .line, p, '\n' :: r => skipGap .blank (p.next '\n') r
  | .line, p, c :: r => skipGap .line (p.next c) r
  | .block _, p, '*' :: '/' :: r => skipGap .blank ((p.next '*').next '/') r
  | .block o, p, c :: r => skipGap (.block o) (p.next c) r
  | .block o, _, [] => .error ⟨.unclosedComment, o⟩
  | _, p, [] => .ok (p, [])

/-- A gap is skipped, not added to. -/
theorem length_le_of_skipGap {g : Gap} {p q : Position} {s r : List Char}
    (h : skipGap g p s = .ok (q, r)) : r.length ≤ s.length := by
  fun_induction skipGap g p s <;> simp_all only [List.length_cons, Except.ok.injEq, Prod.mk.injEq,
    reduceCtorEq, forall_const] <;> grind

/-! ## Tokens -/

/-- A digit of a number. -/
def isDigit (c : Char) : Bool :=
  c.isDigit

/-- A first character of a word. -/
def isWordStart (c : Char) : Bool :=
  c.isAlpha || c == '_'

/-- A later character of a word. -/
def isWordPart (c : Char) : Bool :=
  c.isAlphanum || c == '_'

/-- A later character of a number; an underscore only separates digits. -/
def isNumberPart (c : Char) : Bool :=
  isDigit c || c == '_'

/-- The raw contents of a string up to its closing quote, put after `done` in reverse, and the text
after the quote. The string was opened at `opened`. -/
def readContents (opened : Position) (done : List Char) :
    List Char → Except SyntaxError (List Char × List Char)
  | [] => .error ⟨.unclosedString, opened⟩
  | '"' :: r => .ok (done.reverse, r)
  | ['\\'] => .error ⟨.unclosedString, opened⟩
  | '\\' :: c :: r =>
    if isEscapable c then readContents opened (c :: '\\' :: done) r
    else .error ⟨.invalidEscape c, opened.after ('"' :: done.reverse ++ ['\\'])⟩
  | c :: r => readContents opened (c :: done) r

/-- A token, the characters that spell it, and the text after it. -/
structure Reading where
  token : Token
  text : List Char
  rest : List Char
deriving DecidableEq, Repr

/-- The token at the head of `c :: r`, which begins at `p` and starts no gap. -/
def readToken (p : Position) (c : Char) (r : List Char) : Except SyntaxError Reading :=
  if isDigit c then
    let run := r.takeWhile isNumberPart
    let digits := (c :: run).filter (· != '_')
    .ok ⟨.integer (String.ofList digits), c :: run, r.dropWhile isNumberPart⟩
  else if isWordStart c then
    let word := c :: r.takeWhile isWordPart
    let name := String.ofList word
    .ok ⟨(Keyword.ofWord? name).elim (.ident name) .keyword, word, r.dropWhile isWordPart⟩
  else if c = '"' then
    match readContents p [] r with
    | .error e => .error e
    | .ok (raw, rest) => .ok ⟨.text (String.ofList raw), '"' :: raw ++ ['"'], rest⟩
  else
    match Sign.read? (c :: r) with
    | none => .error ⟨.unexpectedCharacter c, p⟩
    | some (g, rest) => .ok ⟨.sign g, g.spelling.toList, rest⟩

/-- The contents of a string and its closing quote stand at the head of the text. -/
theorem eq_append_of_readContents {o : Position} {done s raw rest : List Char}
    (h : readContents o done s = .ok (raw, rest)) :
    ∃ body, raw = done.reverse ++ body ∧ s = body ++ '"' :: rest := by
  fun_induction readContents o done s with
  | case1 => simp at h
  | case2 done r =>
    simp only [Except.ok.injEq, Prod.mk.injEq] at h
    exact ⟨[], by simp [h.1], by simp [h.2]⟩
  | case3 => simp at h
  | case4 done c r hc ih =>
    obtain ⟨body, hraw, hs⟩ := ih h
    exact ⟨'\\' :: c :: body, by simp [hraw], by simp [hs]⟩
  | case5 => simp at h
  | case6 done c r _ _ _ ih =>
    obtain ⟨body, hraw, hs⟩ := ih h
    exact ⟨c :: body, by simp [hraw], by simp [hs]⟩

/-- A token's characters and the rest make up the text that was read. -/
theorem text_append_rest_of_readToken {p : Position} {c : Char} {r : List Char} {t : Reading}
    (h : readToken p c r = .ok t) : t.text ++ t.rest = c :: r := by
  unfold readToken at h
  split at h
  · simp only [Except.ok.injEq] at h
    simp [← h]
  split at h
  · simp only [Except.ok.injEq] at h
    simp [← h]
  split at h
  · next hq =>
    split at h
    · simp at h
    · next raw rest hc =>
      obtain ⟨body, hraw, hr⟩ := eq_append_of_readContents hc
      simp only [Except.ok.injEq] at h
      simp_all [← h]
  · split at h
    · simp at h
    · next g rest hg =>
      simp only [Except.ok.injEq] at h
      simp [← h, Sign.eq_spelling_append_of_read? hg]

/-- No token is spelled by the empty text. -/
theorem text_ne_nil_of_readToken {p : Position} {c : Char} {r : List Char} {t : Reading}
    (h : readToken p c r = .ok t) : t.text ≠ [] := by
  unfold readToken at h
  split at h
  · simp only [Except.ok.injEq] at h
    simp [← h]
  split at h
  · simp only [Except.ok.injEq] at h
    simp [← h]
  split at h
  · split at h
    · simp at h
    · simp only [Except.ok.injEq] at h
      simp [← h]
  · split at h
    · simp at h
    · next g _ _ =>
      simp only [Except.ok.injEq] at h
      rw [← h]
      cases g <;> simp [Sign.spelling]

/-- A token takes at least one character, so lexing ends. -/
theorem rest_length_lt_of_readToken {p : Position} {c : Char} {r : List Char} {t : Reading}
    (h : readToken p c r = .ok t) : t.rest.length < (c :: r).length := by
  have hsum := congrArg List.length (text_append_rest_of_readToken h)
  have hpos := List.length_pos_iff.2 (text_ne_nil_of_readToken h)
  simp only [List.length_append] at hsum
  omega

/-! ## Whole texts -/

/-- The tokens of the text `s`, which begins at `p`, after those in `done`, which are in reverse. -/
def lexFrom (done : List Lexeme) (p : Position) (s : List Char) : Except SyntaxError TokenStream :=
  match _hg : skipGap .blank p s with
  | .error e => .error e
  | .ok (q, []) => .ok ⟨done.reverse, q⟩
  | .ok (q, c :: r) =>
    match _ht : readToken q c r with
    | .error e => .error e
    | .ok t => lexFrom (⟨t.token, q⟩ :: done) (q.after t.text) t.rest
termination_by s.length
decreasing_by
  have := length_le_of_skipGap _hg
  have := rest_length_lt_of_readToken _ht
  omega

/-- The tokens of a source text, or the first place where it has none. -/
def lex (source : String) : Except SyntaxError TokenStream :=
  lexFrom [] .start source.toList

end ScriptMachine.Source
