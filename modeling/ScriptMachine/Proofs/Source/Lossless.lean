import ScriptMachine.Proofs.Source.Regions
import Mathlib

/-!
# Gaps and tokens make up the text

What the lexer accepts is cut into gaps and tokens without a character being lost: the gaps are made of
blanks and comments, and each token is the longest that begins where its gap ends. What a token says is
read off the characters that spell it, so tokens that are written out again are read back.
-/

namespace ScriptMachine.Source

/-! ## What a text is made of -/

/-- A gap is made of blanks, of line comments with the newlines after them, and of block comments, each
of which ends at the first sign that closes it. The last gap of a text may end in a line comment. -/
inductive IsGap : (last : Bool) → List Char → Prop
  | nil {last : Bool} : IsGap last []
  | blank {last : Bool} {c : Char} {s : List Char} (hc : Text.isBlank c = true) (h : IsGap last s) :
    IsGap last (c :: s)
  | line {last : Bool} {body s : List Char} (hbody : '\n' ∉ body) (h : IsGap last s) :
    IsGap last ('/' :: '/' :: (body ++ '\n' :: s))
  | block {last : Bool} {body s : List Char} (hbody : ¬['*', '/'] <:+: body ++ ['*'])
    (h : IsGap last s) : IsGap last ('/' :: '*' :: (body ++ '*' :: '/' :: s))
  | lastLine {body : List Char} (hbody : '\n' ∉ body) : IsGap true ('/' :: '/' :: body)

/-- The characters that spell a token. An integer holds the digits among them, a string what stands
between its quotes, and every other token is what it is spelled as. -/
inductive Spells : List Char → Token → Prop
  | integer {c : Char} {run : List Char} (hc : isDigit c = true)
    (hrun : ∀ d ∈ run, isNumberPart d = true) :
    Spells (c :: run) (.integer (String.ofList ((c :: run).filter (· != '_'))))
  | text {raw : String} (h : isRaw raw.toList = true) :
    Spells ('"' :: raw.toList ++ ['"']) (.text raw)
  | ident {name : String} (h : isName name = true) : Spells name.toList (.ident name)
  | keyword (k : Keyword) : Spells k.spelling.toList (.keyword k)
  | sign (g : Sign) : Spells g.spelling.toList (.sign g)

/-- No token is spelled by these characters and more of those that follow. -/
def Longest (text rest : List Char) : Prop :=
  ∀ more t, more ≠ [] → more <+: rest → ¬Spells (text ++ more) t

/-- The text begins with a comment. -/
def BeginsComment (s : List Char) : Prop :=
  ['/', '/'] <+: s ∨ ['/', '*'] <+: s

/-- A text that begins at one place and ends at another is made of gaps and of these tokens, each at the
place where its gap ends. -/
inductive MadeOf : Position → List Char → List Lexeme → Position → Prop
  | stop {p : Position} {gap : List Char} (hgap : IsGap true gap) : MadeOf p gap [] (p.after gap)
  | token {p q : Position} {gap text rest : List Char} {t : Token} {ls : List Lexeme}
    (hgap : IsGap false gap) (hno : ¬BeginsComment (text ++ rest)) (ht : Spells text t)
    (hlongest : Longest text rest) (h : MadeOf ((p.after gap).after text) rest ls q) :
    MadeOf p (gap ++ (text ++ rest)) (⟨t, p.after gap⟩ :: ls) q

/-! ## Spelling -/

theorem Keyword.spelling_of_ofWord? {s : String} {k : Keyword} (h : Keyword.ofWord? s = some k) :
    k.spelling = s := by
  unfold Keyword.ofWord? at h
  split at h <;> cases h <;> rfl

/-- With an equals sign after it, an open sign is another one. -/
theorem Sign.spelling_of_isOpen {g : Sign} (h : g.isOpen = true) :
    ∃ g' : Sign, g'.spelling.toList = g.spelling.toList ++ ['='] := by
  cases g <;> simp only [Sign.isOpen, Bool.false_eq_true] at h
  case lt => exact ⟨.le, rfl⟩
  case gt => exact ⟨.ge, rfl⟩
  case not => exact ⟨.ne, rfl⟩
  case assign => exact ⟨.eq, rfl⟩

/-- A word spells a keyword or a name. -/
theorem spells_word {c : Char} {run : List Char} (hc : isWordStart c = true)
    (hrun : ∀ d ∈ run, isWordPart d = true) :
    Spells (c :: run) ((Keyword.ofWord? (String.ofList (c :: run))).elim
      (.ident (String.ofList (c :: run))) .keyword) := by
  have htext : (String.ofList (c :: run)).toList = c :: run := String.toList_ofList
  cases hword : Keyword.ofWord? (String.ofList (c :: run)) with
  | none =>
    have hname : isName (String.ofList (c :: run)) = true := by
      simp only [isName, htext, hword, List.head?_cons, Option.any_some, List.all_cons, hc,
        isWordPart_of_isWordStart hc, Option.isNone_none, Bool.true_and, Bool.and_true]
      exact List.all_eq_true.2 hrun
    have hspells := Spells.ident hname
    rwa [htext] at hspells
  | some k =>
    have hspells := Spells.keyword k
    rwa [Keyword.spelling_of_ofWord? hword, htext] at hspells

/-- The longest token is read, and no gap begins with it. -/
theorem readToken_of_spells {text rest : List Char} {t : Token} (h : Spells text t)
    (hlongest : Longest text rest) : ∃ c r, text = c :: r ∧ Text.isBlank c = false ∧
      ∀ p, readToken p c (r ++ rest) = .ok ⟨t, text, rest⟩ := by
  -- one character more spells no token
  have hnext : ∀ d ∈ rest.head?, ∀ t, ¬Spells (text ++ [d]) t := by
    intro d hd t
    obtain ⟨u, rfl⟩ := List.head?_eq_some_iff.1 hd
    exact hlongest [d] t (by simp) ⟨u, rfl⟩
  have hword : ∀ {c run}, text = c :: run → isWordStart c = true →
      (∀ d ∈ run, isWordPart d = true) → ∀ d ∈ rest.head?, isWordPart d = false := by
    rintro c run rfl hc hrun d hd
    refine Bool.eq_false_iff.2 fun hpart => hnext d hd _ (@spells_word c (run ++ [d]) hc ?_)
    simpa [or_imp, forall_and] using ⟨hrun, hpart⟩
  cases h with
  | @integer c run hc hrun =>
    refine ⟨c, run, rfl, isBlank_of_isWordPart (isWordPart_of_isDigit hc), fun p => ?_⟩
    refine readToken_number hc hrun (fun d hd => ?_) p
    refine Bool.eq_false_iff.2 fun hpart => hnext d hd _ (@Spells.integer c (run ++ [d]) hc ?_)
    simpa [or_imp, forall_and] using ⟨hrun, hpart⟩
  | @text raw hraw =>
    refine ⟨'"', raw.toList ++ ['"'], rfl, by decide, fun p => ?_⟩
    rw [List.append_assoc, List.singleton_append, readToken_text hraw, String.ofList_toList]
  | @ident name hname =>
    obtain ⟨c, run, heq, hc, hrun, hnone⟩ := word_of_isName hname
    have hname : String.ofList (c :: run) = name := by rw [← heq, String.ofList_toList]
    refine ⟨c, run, heq, isBlank_of_isWordPart (isWordPart_of_isWordStart hc), fun p => ?_⟩
    rw [readToken_word hc hrun (hword heq hc hrun), hname, hnone, heq]
    rfl
  | keyword k =>
    obtain ⟨c, run, heq, hc, hrun⟩ := k.spelling_cons
    have hname : String.ofList (c :: run) = k.spelling := by rw [← heq, String.ofList_toList]
    refine ⟨c, run, heq, isBlank_of_isWordPart (isWordPart_of_isWordStart hc), fun p => ?_⟩
    rw [readToken_word hc hrun (hword heq hc hrun), hname, Keyword.ofWord?_spelling, heq]
    rfl
  | sign g =>
    obtain ⟨c, run, heq, hblank, -⟩ := g.spelling_cons
    refine ⟨c, run, heq, hblank, fun p => ?_⟩
    rw [heq]
    refine readToken_sign (fun hopen hhead => ?_) heq p
    obtain ⟨g', hg'⟩ := g.spelling_of_isOpen hopen
    exact hnext '=' hhead (.sign g') (hg' ▸ .sign g')

/-- The contents of a string are raw. -/
theorem isRaw_of_readContents {o : Position} {done s raw rest : List Char}
    (h : readContents o done s = .ok (raw, rest)) :
    ∃ body, raw = done.reverse ++ body ∧ isRaw body = true := by
  fun_induction readContents o done s with
  | case1 => cases h
  | case2 done r =>
    cases h
    exact ⟨[], by simp, rfl⟩
  | case3 => cases h
  | case4 done c r hc ih =>
    obtain ⟨body, hraw, hbody⟩ := ih h
    exact ⟨'\\' :: c :: body, by simp [hraw], by simp [isRaw, hc, hbody]⟩
  | case5 => cases h
  | case6 done c r hquote hback hpair ih =>
    obtain ⟨body, hraw, hbody⟩ := ih h
    have hslash : c ≠ '\\' := by
      rintro rfl
      cases r with
      | nil => exact hback rfl rfl
      | cons d r => exact hpair d r rfl rfl
    refine ⟨c :: body, by simp [hraw], ?_⟩
    rw [isRaw]
    · simpa [hslash, hbody] using hquote
    · exact fun _ _ hc _ => hslash hc

/-- What is read is spelled by the characters that are taken. -/
theorem spells_of_readToken {p : Position} {c : Char} {r : List Char} {x : Reading}
    (h : readToken p c r = .ok x) : Spells x.text x.token := by
  unfold readToken at h
  by_cases hdigit : isDigit c = true
  · rw [if_pos hdigit] at h
    cases h
    exact .integer hdigit fun d hd => List.all_eq_true.1 List.all_takeWhile d hd
  rw [if_neg hdigit] at h
  by_cases hstart : isWordStart c = true
  · rw [if_pos hstart] at h
    cases h
    exact spells_word hstart fun d hd => List.all_eq_true.1 List.all_takeWhile d hd
  rw [if_neg hstart] at h
  by_cases hquote : c = '"'
  · rw [if_pos hquote] at h
    split at h
    · cases h
    · next raw rest hread =>
      cases h
      obtain ⟨_, rfl, hraw⟩ := isRaw_of_readContents hread
      have htext : (String.ofList raw).toList = raw := String.toList_ofList
      have hspells := Spells.text (htext.symm ▸ hraw)
      rwa [htext] at hspells
  rw [if_neg hquote] at h
  split at h
  · cases h
  · next g rest _ =>
    cases h
    exact .sign g

/-- Where a token begins, the longest one is some characters longer, or none. -/
theorem exists_longest {text : List Char} {t : Token} (h : Spells text t) (rest : List Char) :
    ∃ more t' rest', rest = more ++ rest' ∧ Spells (text ++ more) t' ∧
      Longest (text ++ more) rest' := by
  induction hn : rest.length using Nat.strongRecOn generalizing text rest t with
  | ind n ih =>
    by_cases hlongest : Longest text rest
    · exact ⟨[], t, rest, rfl, by simpa using h, by simpa using hlongest⟩
    · simp only [Longest, not_forall, not_not] at hlongest
      obtain ⟨more, t', hmore, ⟨r, rfl⟩, ht'⟩ := hlongest
      have hpos := List.length_pos_iff.2 hmore
      rw [List.length_append] at hn
      obtain ⟨more', u, rest', rfl, hu, hlast⟩ := ih r.length (by omega) ht' r rfl
      refine ⟨more ++ more', u, rest', by simp, ?_, ?_⟩
      · rwa [← List.append_assoc]
      · rwa [← List.append_assoc]

/-- What is read is the longest token. -/
theorem longest_of_readToken {p : Position} {c : Char} {r : List Char} {x : Reading}
    (h : readToken p c r = .ok x) : Longest x.text x.rest := by
  have htext := text_append_rest_of_readToken h
  obtain ⟨more, t, rest, hrest, ht, hlongest⟩ := exists_longest (spells_of_readToken h) x.rest
  obtain ⟨c', r', hcons, -, hread⟩ := readToken_of_spells ht hlongest
  rw [hrest, ← List.append_assoc, hcons, List.cons_append] at htext
  obtain ⟨rfl, rfl⟩ := List.cons.inj htext
  -- the longest token is what is read here, so nothing was missing
  have hsame := Except.ok.inj ((hread p).symm.trans h)
  rwa [show x.text ++ more = x.text from congrArg Reading.text hsame,
    show rest = x.rest from congrArg Reading.rest hsame] at hlongest

/-- Characters spell one token at most. -/
theorem Spells.unique {text : List Char} {t u : Token} (ht : Spells text t) (hu : Spells text u) :
    t = u := by
  have hlongest : Longest text [] := fun more _ hmore hprefix =>
    absurd (List.prefix_nil.1 hprefix) hmore
  obtain ⟨c, r, rfl, -, hread⟩ := readToken_of_spells ht hlongest
  obtain ⟨c', r', hcons, -, hread'⟩ := readToken_of_spells hu hlongest
  obtain ⟨rfl, rfl⟩ := List.cons.inj hcons
  have hsame := (hread .start).symm.trans (hread' .start)
  cases hsame
  rfl

/-- What is spelled can stand in a text. -/
theorem Spells.wellFormed {text : List Char} {t : Token} (h : Spells text t) :
    t.wellFormed = true := by
  cases h with
  | @integer c run hc hrun =>
    have hdigits := areDigits_filter hc hrun
    rw [Token.wellFormed, String.toList_ofList]
    exact hdigits
  | text h => exact h
  | ident h => exact h
  | keyword => rfl
  | sign => rfl

/-! ## Gaps -/

/-- The sign after which a gap stands where it does. -/
def Gap.opener : Gap → List Char
  | .blank => []
  | .line => ['/', '/']
  | .block _ => ['/', '*']

namespace IsGap

variable {last : Bool} {c : Char} {s : List Char}

/-- A line comment may be longer by a character that is no newline. -/
theorem line_cons (hc : c ≠ '\n') (h : IsGap last ('/' :: '/' :: s)) :
    IsGap last ('/' :: '/' :: c :: s) := by
  cases h with
  | blank hblank => exact absurd hblank (by decide)
  | @line _ body s hbody h => exact @line _ (c :: body) s (by simp [hc.symm, hbody]) h
  | lastLine hbody => exact .lastLine (by simp [hc.symm, hbody])

/-- A block comment may be longer by a character that does not close it. -/
theorem block_cons (hc : c = '*' → s.head? ≠ some '/') (h : IsGap last ('/' :: '*' :: s)) :
    IsGap last ('/' :: '*' :: c :: s) := by
  cases h with
  | blank hblank => exact absurd hblank (by decide)
  | @block _ body s hbody h =>
    refine @block _ (c :: body) s (fun hinfix => ?_) h
    rcases List.infix_cons_iff.1 hinfix with hprefix | hinfix
    · obtain ⟨hstar, hslash⟩ := List.cons_prefix_cons.1 hprefix
      cases body with
      | nil => exact absurd (List.cons_prefix_cons.1 hslash).1 (by decide)
      | cons d body =>
        obtain rfl := (List.cons_prefix_cons.1 hslash).1
        exact hc hstar.symm rfl
    · exact hbody hinfix

end IsGap

/-- What is skipped is a gap, together with what opened it. -/
theorem isGap_of_skipGap {g : Gap} {p q : Position} {s r : List Char}
    (h : skipGap g p s = .ok (q, r)) :
    ∃ gap, s = gap ++ r ∧ q = p.after gap ∧ IsGap r.isEmpty (g.opener ++ gap) := by
  fun_induction skipGap g p s with
  | case1 p s ih =>
    obtain ⟨gap, rfl, rfl, hgap⟩ := ih h
    exact ⟨'/' :: '/' :: gap, rfl, rfl, hgap⟩
  | case2 p s ih =>
    obtain ⟨gap, rfl, rfl, hgap⟩ := ih h
    exact ⟨'/' :: '*' :: gap, rfl, rfl, hgap⟩
  | case3 p c s _ _ hc ih =>
    obtain ⟨gap, rfl, rfl, hgap⟩ := ih h
    exact ⟨c :: gap, rfl, rfl, .blank hc hgap⟩
  | case4 p c s _ _ _ =>
    cases h
    exact ⟨[], rfl, rfl, .nil⟩
  | case5 p s ih =>
    obtain ⟨gap, rfl, rfl, hgap⟩ := ih h
    exact ⟨'\n' :: gap, rfl, rfl, @IsGap.line _ [] gap (by simp) hgap⟩
  | case6 p c s hc ih =>
    obtain ⟨gap, rfl, rfl, hgap⟩ := ih h
    exact ⟨c :: gap, rfl, rfl, hgap.line_cons hc⟩
  | case7 o p s ih =>
    obtain ⟨gap, rfl, rfl, hgap⟩ := ih h
    exact ⟨'*' :: '/' :: gap, rfl, rfl, @IsGap.block _ [] gap (by decide) hgap⟩
  | case8 o p c s hc ih =>
    obtain ⟨gap, rfl, rfl, hgap⟩ := ih h
    refine ⟨c :: gap, rfl, rfl, hgap.block_cons fun hstar hhead => ?_⟩
    obtain ⟨u, rfl⟩ := List.head?_eq_some_iff.1 hhead
    exact hc (u ++ r) hstar rfl
  | case9 o p => cases h
  | case10 g p hblock =>
    cases h
    cases g with
    | blank => exact ⟨[], rfl, rfl, .nil⟩
    | line => exact ⟨[], rfl, rfl, .lastLine List.not_mem_nil⟩
    | block o => exact absurd rfl (hblock o)

/-- Where a gap may end: at the end of the text, or before a character that is no blank and begins no
comment. -/
def EndsGap (rest : List Char) : Prop :=
  (∀ c ∈ rest.head?, Text.isBlank c = false) ∧ ¬BeginsComment rest

theorem endsGap_of_skipGap {g : Gap} {p q : Position} {s r : List Char}
    (h : skipGap g p s = .ok (q, r)) : EndsGap r := by
  cases r with
  | nil => exact ⟨nofun, by simp [BeginsComment]⟩
  | cons c r =>
    obtain ⟨hblank, hslash⟩ := head_of_skipGap h
    refine ⟨by simpa using hblank, ?_⟩
    rintro (hopen | hopen)
    all_goals
      obtain ⟨hc, hrest⟩ := List.cons_prefix_cons.1 hopen
      obtain ⟨u, rfl⟩ := hrest
    · exact (hslash hc.symm).1 rfl
    · exact (hslash hc.symm).2 rfl

/-- A line comment is skipped up to its newline. -/
theorem skipGap_lineBody {body : List Char} (hbody : '\n' ∉ body) (p : Position) (s : List Char) :
    skipGap .line p (body ++ s) = skipGap .line (p.after body) s := by
  induction body generalizing p with
  | nil => rfl
  | cons c body ih =>
    simp only [List.mem_cons, not_or] at hbody
    rw [List.cons_append, skipGap_line (Ne.symm hbody.1), ih hbody.2, Position.after_cons]

/-- A block comment is skipped up to the first sign that closes it. -/
theorem skipGap_blockBody {body : List Char} (hbody : ¬['*', '/'] <:+: body ++ ['*'])
    (o p : Position) (s : List Char) :
    skipGap (.block o) p (body ++ '*' :: '/' :: s) =
      skipGap .blank (p.after (body ++ ['*', '/'])) s := by
  induction body generalizing p with
  | nil => rfl
  | cons c body ih =>
    rw [List.cons_append, skipGap_block, ih]
    · rfl
    · exact fun hinfix => hbody (List.infix_cons hinfix)
    · rintro rfl hhead
      refine hbody (List.IsPrefix.isInfix ?_)
      cases body with
      | nil => simp at hhead
      | cons d body =>
        obtain rfl : d = '/' := by simpa using hhead
        exact ⟨body ++ ['*'], rfl⟩

/-- A gap is skipped as a whole. -/
theorem skipGap_of_isGap {last : Bool} {gap rest : List Char} (hgap : IsGap last gap)
    (hlast : last = true → rest = []) (hrest : EndsGap rest) (p : Position) :
    skipGap .blank p (gap ++ rest) = .ok (p.after gap, rest) := by
  induction hgap generalizing p with
  | nil =>
    cases rest with
    | nil => rfl
    | cons c r =>
      refine skipGap_token (hrest.1 c rfl) ?_ ?_ p
      · rintro rfl hhead
        obtain ⟨u, rfl⟩ := List.head?_eq_some_iff.1 hhead
        exact hrest.2 (.inl ⟨u, rfl⟩)
      · rintro rfl hhead
        obtain ⟨u, rfl⟩ := List.head?_eq_some_iff.1 hhead
        exact hrest.2 (.inr ⟨u, rfl⟩)
  | @blank _ c s hc _ ih => rw [List.cons_append, skipGap_blank hc, ih hlast, Position.after_cons]
  | @line _ body s hbody _ ih =>
    have hskip : skipGap .blank p ('/' :: '/' :: (body ++ '\n' :: (s ++ rest))) =
        skipGap .blank ((((p.next '/').next '/').after body).next '\n') (s ++ rest) :=
      skipGap_lineBody hbody ((p.next '/').next '/') ('\n' :: (s ++ rest))
    simpa using hskip.trans (ih hlast _)
  | @block _ body s hbody _ ih =>
    have hskip : skipGap .blank p ('/' :: '*' :: (body ++ '*' :: '/' :: (s ++ rest))) =
        skipGap .blank (((p.next '/').next '*').after (body ++ ['*', '/'])) (s ++ rest) :=
      skipGap_blockBody hbody p ((p.next '/').next '*') (s ++ rest)
    simpa using hskip.trans (ih hlast _)
  | @lastLine body hbody =>
    obtain rfl := hlast rfl
    exact skipGap_lineBody hbody ((p.next '/').next '/') []

/-! ## Texts -/

/-- The tokens that are read and the gaps between them make up the text. -/
theorem madeOf_of_lexFrom {done : List Lexeme} {p : Position} {s : List Char} {stream : TokenStream}
    (h : lexFrom done p s = .ok stream) :
    ∃ ls, stream.lexemes = done.reverse ++ ls ∧ MadeOf p s ls stream.stop := by
  induction hn : s.length using Nat.strongRecOn generalizing s p done with
  | ind n ih =>
    rw [lexFrom_eq] at h
    cases hs : skipGap .blank p s with
    | error e => simp [hs] at h
    | ok result =>
      obtain ⟨q, r⟩ := result
      obtain ⟨gap, rfl, rfl, hgap⟩ := isGap_of_skipGap hs
      simp only [hs] at h
      cases r with
      | nil =>
        cases h
        rw [List.append_nil]
        exact ⟨[], by simp, .stop hgap⟩
      | cons c r =>
        cases ht : readToken (p.after gap) c r with
        | error e => simp [ht] at h
        | ok x =>
          simp only [ht] at h
          have htext := text_append_rest_of_readToken ht
          have hshorter := rest_length_lt_of_readToken ht
          rw [List.length_append] at hn
          obtain ⟨ls, hls, hmade⟩ := ih _ (by omega) h rfl
          refine ⟨⟨x.token, p.after gap⟩ :: ls, by simpa using hls, ?_⟩
          have hno := (endsGap_of_skipGap hs).2
          rw [← htext] at hno ⊢
          exact .token hgap hno (spells_of_readToken ht) (longest_of_readToken ht) hmade

/-- A text has the tokens that it is made of. -/
theorem lexFrom_of_madeOf {p q : Position} {s : List Char} {ls : List Lexeme}
    (h : MadeOf p s ls q) (done : List Lexeme) :
    lexFrom done p s = .ok ⟨done.reverse ++ ls, q⟩ := by
  induction h generalizing done with
  | @stop p gap hgap =>
    have hskip := skipGap_of_isGap hgap (fun _ => rfl) ⟨nofun, by simp [BeginsComment]⟩ p
    rw [List.append_nil] at hskip
    rw [lexFrom_eq, hskip, List.append_nil]
  | @token p q gap text rest t ls hgap hno ht hlongest _ ih =>
    obtain ⟨c, r, rfl, hblank, hread⟩ := readToken_of_spells ht hlongest
    rw [lexFrom_eq, skipGap_of_isGap hgap nofun ⟨by simpa using hblank, hno⟩ p]
    simp only [List.cons_append, hread]
    rw [ih]
    simp

/-- What a text is made of says what its tokens are. -/
theorem lex_eq_ok_iff {source : String} {stream : TokenStream} :
    lex source = .ok stream ↔ MadeOf .start source.toList stream.lexemes stream.stop := by
  constructor
  · intro h
    obtain ⟨ls, hls, hmade⟩ := madeOf_of_lexFrom h
    rw [hls]
    exact hmade
  · intro h
    exact lexFrom_of_madeOf h []

/-- The tokens of a text can stand in a text. -/
theorem MadeOf.lexable {p q : Position} {s : List Char} {ls : List Lexeme} (h : MadeOf p s ls q) :
    Lexable (ls.map Lexeme.token) := by
  induction h with
  | stop => exact .nil
  | token _ _ ht _ _ ih => exact .cons ht.wellFormed ih

/-- A text with tokens is made of these and of the gaps between them, what a token says is determined
by the characters that spell it, and the tokens are read again from the text that they are written out
as, with a space between one and the next. -/
theorem lex_lossless {source : String} {stream : TokenStream} (h : lex source = .ok stream) :
    MadeOf .start source.toList stream.lexemes stream.stop ∧
      (∀ text t u, Spells text t → Spells text u → t = u) ∧
      ∃ again, lex (String.ofList (spell (stream.lexemes.map Lexeme.token))) = .ok again ∧
        again.lexemes.map Lexeme.token = stream.lexemes.map Lexeme.token := by
  have hmade := lex_eq_ok_iff.1 h
  refine ⟨hmade, fun _ _ _ => Spells.unique, ?_⟩
  obtain ⟨again, hagain, htokens⟩ := lexFrom_spell _ hmade.lexable [] .start
  refine ⟨again, ?_, htokens⟩
  rwa [lex, String.toList_ofList]

/-- A number with underscores, a string with an escape, a sign of two characters, and comments. -/
theorem commented_text_lossless :
    ∃ stream, lex "/* * /**/x1<=1_000;// end\n\"a\\\"b\" //" = .ok stream ∧
      stream.lexemes.map Lexeme.token =
        [.ident "x1", .sign .le, .integer "1000", .sign .semicolon, .text "a\\\"b"] ∧
      MadeOf .start "/* * /**/x1<=1_000;// end\n\"a\\\"b\" //".toList stream.lexemes stream.stop ∧
      ∃ again, lex "x1 <= 1000 ; \"a\\\"b\"" = .ok again ∧
        again.lexemes.map Lexeme.token = stream.lexemes.map Lexeme.token := by
  have hlex : lex "/* * /**/x1<=1_000;// end\n\"a\\\"b\" //" =
      .ok ⟨[⟨.ident "x1", ⟨1, 10⟩⟩, ⟨.sign .le, ⟨1, 12⟩⟩, ⟨.integer "1000", ⟨1, 14⟩⟩,
        ⟨.sign .semicolon, ⟨1, 19⟩⟩, ⟨.text "a\\\"b", ⟨2, 1⟩⟩], ⟨2, 10⟩⟩ := by
    cbv
  obtain ⟨hmade, -, hagain⟩ := lex_lossless hlex
  exact ⟨_, hlex, rfl, hmade, hagain⟩

end ScriptMachine.Source
