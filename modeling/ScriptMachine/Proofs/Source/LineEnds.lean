import ScriptMachine.Proofs.Source.Lexing
import Mathlib.Data.List.Forall2
import Mathlib.Tactic.SplitIfs

/-!
# Line ends

A text that is cut into lines and put together again is the same text but for its line ends: a
carriage return before a newline is gone, the last line has got an end, and lines of blanks before
the first token are empty. The lexer hardly notices. Every token is found at the place where it was,
and it is the same token, unless it is a string literal that runs over a line end with a carriage
return.
-/

namespace ScriptMachine.Source

/-! ## Texts -/

/-- A text, and the text with line ends rebuilt: some carriage returns before newlines are gone, and a
last line may have got an end. -/
inductive Reflows : List Char → List Char → Prop
  | nil : Reflows [] []
  | ended : Reflows [] ['\n']
  | char (c : Char) {s t : List Char} (h : Reflows s t) : Reflows (c :: s) (c :: t)
  | crlf {s t : List Char} (h : Reflows s t) : Reflows ('\r' :: '\n' :: s) ('\n' :: t)

/-- A text, and the text with line ends rebuilt and lines of blanks at its head emptied. -/
inductive Rebuilt : List Char → List Char → Prop
  | body {s t : List Char} (h : Reflows s t) : Rebuilt s t
  | blankLine {l s t : List Char} (hl : ∀ c ∈ l, Text.isBlank c = true ∧ c ≠ '\n')
    (h : Rebuilt s t) : Rebuilt (l ++ '\n' :: s) ('\n' :: t)

theorem Reflows.refl (s : List Char) : Reflows s s := by
  induction s with
  | nil => exact .nil
  | cons c s ih => exact .char c ih

theorem Reflows.append_left {s t : List Char} (h : Reflows s t) (l : List Char) :
    Reflows (l ++ s) (l ++ t) := by
  induction l with
  | nil => exact h
  | cons c l ih => exact .char c ih

/-- A line end with a carriage return somewhere in a text. -/
def HasCrlf (s : List Char) : Prop :=
  ['\r', '\n'] <:+: s

instance (s : List Char) : Decidable (HasCrlf s) :=
  inferInstanceAs (Decidable (_ <:+: _))

/-- Contents of a string literal before and after line ends are rebuilt: they take the same place, and
are the same unless a carriage return was dropped. -/
structure KinContents (raw raw' : List Char) : Prop where
  after : ∀ p : Position, p.after raw' = p.after raw
  eq : ¬ HasCrlf raw → raw' = raw

namespace KinContents

variable {raw raw' : List Char}

theorem nil : KinContents [] [] :=
  ⟨fun _ => rfl, fun _ => rfl⟩

theorem snoc (h : KinContents raw raw') (c : Char) : KinContents (raw ++ [c]) (raw' ++ [c]) where
  after p := by simp [h.after p]
  eq hplain := by
    rw [h.eq fun hcrlf => hplain (hcrlf.trans (List.prefix_append raw [c]).isInfix)]

theorem crlf (h : KinContents raw raw') :
    KinContents (raw ++ ['\r', '\n']) (raw' ++ ['\n']) where
  after p := by simp [h.after p, Position.next]
  eq hplain := absurd (List.suffix_append raw ['\r', '\n']).isInfix hplain

end KinContents

/-! ## Gaps -/

/-- Two gaps that end at the same token, or both at the end of a text, or are not closed. -/
inductive GapsAlike : (r r' : Except SyntaxError (Position × List Char)) → Prop
  | error (e e' : SyntaxError) : GapsAlike (.error e) (.error e')
  | stop (p p' : Position) : GapsAlike (.ok (p, [])) (.ok (p', []))
  | token (p : Position) (c : Char) {s t : List Char} (h : Reflows s t) :
    GapsAlike (.ok (p, c :: s)) (.ok (p, c :: t))

theorem Position.next_cr_next_lf (p : Position) : (p.next '\r').next '\n' = p.next '\n' := by
  simp [Position.next]

/-- A line of blanks is skipped. -/
theorem skipGap_blankLine {l : List Char} (hl : ∀ c ∈ l, Text.isBlank c = true ∧ c ≠ '\n')
    (p : Position) (s : List Char) :
    skipGap .blank p (l ++ '\n' :: s) = skipGap .blank ⟨p.line + 1, 1⟩ s := by
  induction l generalizing p with
  | nil => exact skipGap_blank (by decide) p s
  | cons c l ih =>
    obtain ⟨hblank, hne⟩ := hl c List.mem_cons_self
    rw [List.cons_append, skipGap_blank hblank, ih fun d hd => hl d (List.mem_cons_of_mem _ hd)]
    simp [Position.next, hne]

/-- The first characters of rebuilt texts agree, but for those of line ends. -/
theorem Reflows.head? {s t : List Char} (h : Reflows s t) {c : Char} (hn : c ≠ '\n')
    (hc : t.head? = some c) : s.head? = some c := by
  cases h with
  | nil => exact hc
  | ended => exact absurd (Option.some.inj hc).symm hn
  | char d _ => exact hc
  | crlf _ => exact absurd (Option.some.inj hc).symm hn

theorem Reflows.head?_left {s t : List Char} (h : Reflows s t) {c : Char} (hr : c ≠ '\r')
    (hc : s.head? = some c) : t.head? = some c := by
  cases h with
  | nil => exact hc
  | ended => cases hc
  | char d _ => exact hc
  | crlf _ => exact absurd (Option.some.inj hc).symm hr

/-- Rebuilding line ends leaves gaps alike. -/
theorem skipGap_reflows {s t : List Char} (h : Reflows s t) (g : Gap) (p : Position) :
    GapsAlike (skipGap g p s) (skipGap g p t) := by
  fun_induction skipGap g p s generalizing t with
  | case1 p r ih =>
    obtain _ | _ | ⟨_, _ | _ | ⟨_, h⟩⟩ := h
    exact ih h
  | case2 p r ih =>
    obtain _ | _ | ⟨_, _ | _ | ⟨_, h⟩⟩ := h
    exact ih h
  | case3 p c r _ _ hc ih =>
    cases h with
    | char _ h =>
      rw [skipGap_blank hc]
      exact ih h
    | crlf h =>
      have hnext := ih (.char '\n' h)
      rw [skipGap_blank (by decide), p.next_cr_next_lf] at hnext ⊢
      rwa [skipGap_blank (by decide), p.next_cr_next_lf] at hnext
  | case4 p c r hline hblock hc =>
    have hc' : Text.isBlank c = false := by simpa using hc
    cases h with
    | @char _ _ t h =>
      rw [skipGap_token hc']
      · exact .token p c h
      · exact fun heq ht => by
          obtain ⟨u, rfl⟩ := List.head?_eq_some_iff.1 (h.head? (by decide) ht)
          exact hline u heq rfl
      · exact fun heq ht => by
          obtain ⟨u, rfl⟩ := List.head?_eq_some_iff.1 (h.head? (by decide) ht)
          exact hblock u heq rfl
    | crlf h => exact absurd hc' (by decide)
  | case5 p r ih =>
    cases h with
    | char _ h => exact ih h
  | case6 p c r hc ih =>
    cases h with
    | char _ h =>
      rw [skipGap_line hc]
      exact ih h
    | crlf h =>
      have hnext := ih (.char '\n' h)
      have hend : ∀ q u, skipGap .line q ('\n' :: u) = skipGap .blank (q.next '\n') u :=
        fun _ _ => rfl
      rw [hend, hend, p.next_cr_next_lf] at hnext
      rwa [hend, hend, p.next_cr_next_lf]
  | case7 o p r ih =>
    obtain _ | _ | ⟨_, _ | _ | ⟨_, h⟩⟩ := h
    exact ih h
  | case8 o p c r hc ih =>
    cases h with
    | char _ h =>
      rw [skipGap_block fun heq ht => ?_]
      · exact ih h
      · obtain ⟨u, rfl⟩ := List.head?_eq_some_iff.1 (h.head? (by decide) ht)
        exact hc u heq rfl
    | crlf h =>
      have hnext := ih (.char '\n' h)
      have hne : '\n' = '*' → ∀ u : List Char, u.head? ≠ some '/' := fun heq => absurd heq (by decide)
      rw [skipGap_block fun heq => hne heq _, p.next_cr_next_lf] at hnext ⊢
      rwa [skipGap_block fun heq => hne heq _, p.next_cr_next_lf] at hnext
  | case9 o p =>
    cases h with
    | nil => exact .error _ _
    | ended => exact .error _ _
  | case10 g p hg =>
    cases g with
    | block o => exact absurd rfl (hg o)
    | blank =>
      cases h with
      | nil => exact .stop _ _
      | ended => exact .stop _ _
    | line =>
      cases h with
      | nil => exact .stop _ _
      | ended => exact .stop _ _

/-- So does emptying lines of blanks. -/
theorem skipGap_rebuilt {s t : List Char} (h : Rebuilt s t) (p : Position) :
    GapsAlike (skipGap .blank p s) (skipGap .blank p t) := by
  induction h generalizing p with
  | body h => exact skipGap_reflows h .blank p
  | blankLine hl _ ih =>
    rw [skipGap_blankLine hl, ← List.nil_append ('\n' :: _), skipGap_blankLine (by simp)]
    exact ih _

/-! ## Tokens -/

/-- A token that is no string literal over a line end with a carriage return. -/
def Token.Plain : Token → Prop
  | .text raw => ¬ HasCrlf raw.toList
  | _ => True

instance : (t : Token) → Decidable t.Plain
  | .text raw => inferInstanceAs (Decidable (¬ HasCrlf raw.toList))
  | .integer _ | .ident _ | .keyword _ | .sign _ => inferInstanceAs (Decidable True)

/-- Tokens before and after line ends are rebuilt: a string literal may have lost carriage returns. -/
def KinTokens (t t' : Token) : Prop :=
  t.Plain → t' = t

/-- Contents read before and after line ends are rebuilt. -/
inductive ContentsAlike : (r r' : Except SyntaxError (List Char × List Char)) → Prop
  | error (e e' : SyntaxError) : ContentsAlike (.error e) (.error e')
  | ok {raw raw' s t : List Char} (hkin : KinContents raw raw') (h : Reflows s t) :
    ContentsAlike (.ok (raw, s)) (.ok (raw', t))

theorem readContents_reflows (o o' : Position) {s t done done' : List Char} (h : Reflows s t)
    (hkin : KinContents done.reverse done'.reverse) :
    ContentsAlike (readContents o done s) (readContents o' done' t) := by
  induction hn : s.length using Nat.strongRecOn generalizing s t done done' with
  | ind n ih =>
    have hsnoc : ∀ c, KinContents (c :: done).reverse (c :: done').reverse := by
      intro c
      simpa using hkin.snoc c
    cases h with
    | nil => exact .error _ _
    | ended =>
      rw [readContents_plain (by decide) (by decide)]
      exact .error _ _
    | crlf h =>
      rw [List.length_cons, List.length_cons] at hn
      rw [readContents_plain (by decide) (by decide), readContents_plain (by decide) (by decide),
        readContents_plain (by decide) (by decide)]
      exact ih _ (by omega) h (by simpa using hkin.crlf) rfl
    | @char c s t h =>
      rw [List.length_cons] at hn
      by_cases hq : c = '"'
      · subst hq
        exact .ok hkin h
      · by_cases hb : c = '\\'
        · subst hb
          cases h with
          | nil => exact .error _ _
          | ended => exact .error _ _
          | crlf h => exact .error _ _
          | @char d s t h =>
            rw [List.length_cons] at hn
            rw [readContents, readContents]
            split_ifs
            · refine ih _ (by omega) h ?_ rfl
              simpa using (hsnoc '\\').snoc d
            · exact .error _ _
        · rw [readContents_plain hq hb, readContents_plain hq hb]
          exact ih _ (by omega) h (hsnoc c) rfl

/-- A run of characters of which none belongs to a line end is found again. -/
theorem span_reflows {s t : List Char} (h : Reflows s t) {f : Char → Bool} (hr : f '\r' = false)
    (hn : f '\n' = false) :
    t.takeWhile f = s.takeWhile f ∧ Reflows (s.dropWhile f) (t.dropWhile f) := by
  induction h with
  | nil => exact ⟨rfl, .nil⟩
  | ended =>
    simp only [List.takeWhile_cons, List.dropWhile_cons, hn]
    exact ⟨rfl, .ended⟩
  | char c h ih =>
    simp only [List.takeWhile_cons, List.dropWhile_cons]
    split
    · exact ⟨by rw [ih.1], ih.2⟩
    · exact ⟨rfl, .char c h⟩
  | crlf h =>
    simp only [List.takeWhile_cons, List.dropWhile_cons, hr, hn]
    exact ⟨rfl, .crlf h⟩

/-- Characters that begin a text and belong to no line end begin the rebuilt text too. -/
theorem Reflows.of_append_left {l s t : List Char} (hl : '\r' ∉ l) (h : Reflows (l ++ s) t) :
    ∃ u, t = l ++ u ∧ Reflows s u := by
  induction l generalizing t with
  | nil => exact ⟨t, rfl, h⟩
  | cons c l ih =>
    simp only [List.mem_cons, not_or] at hl
    rw [List.cons_append] at h
    generalize hx : l ++ s = x at h
    cases h with
    | char _ h =>
      obtain ⟨u, rfl, hu⟩ := ih hl.2 (hx ▸ h)
      exact ⟨u, rfl, hu⟩
    | crlf _ => exact absurd rfl hl.1

theorem Reflows.of_append_right {l s t : List Char} (hl : '\n' ∉ l) (h : Reflows s (l ++ t)) :
    ∃ u, s = l ++ u ∧ Reflows u t := by
  induction l generalizing s with
  | nil => exact ⟨s, rfl, h⟩
  | cons c l ih =>
    simp only [List.mem_cons, not_or] at hl
    rw [List.cons_append] at h
    generalize hx : l ++ t = x at h
    cases h with
    | ended => exact absurd rfl hl.1
    | char _ h =>
      obtain ⟨u, rfl, hu⟩ := ih hl.2 (hx ▸ h)
      exact ⟨u, rfl, hu⟩
    | crlf _ => exact absurd rfl hl.1

/-- The same sign is read. -/
theorem Sign.read?_reflows {s t : List Char} (h : Reflows s t) :
    (Sign.read? s = none ∧ Sign.read? t = none) ∨
      ∃ g u v, Sign.read? s = some (g, u) ∧ Sign.read? t = some (g, v) ∧ Reflows u v := by
  have hplain : ∀ g : Sign, '\r' ∉ g.spelling.toList ∧ '\n' ∉ g.spelling.toList := by
    intro g
    cases g <;> decide
  cases hs : Sign.read? s with
  | some x =>
    obtain ⟨g, u⟩ := x
    obtain ⟨rfl, hopen⟩ := Sign.read?_eq_some_iff.1 hs
    obtain ⟨v, rfl, hv⟩ := h.of_append_left (hplain g).1
    refine .inr ⟨g, u, v, rfl, ?_, hv⟩
    exact Sign.read?_eq_some_iff.2 ⟨rfl, fun hg hhead => hopen hg (hv.head? (by decide) hhead)⟩
  | none =>
    cases ht : Sign.read? t with
    | none => exact .inl ⟨rfl, rfl⟩
    | some x =>
      obtain ⟨g, v⟩ := x
      obtain ⟨rfl, hopen⟩ := Sign.read?_eq_some_iff.1 ht
      obtain ⟨u, rfl, hu⟩ := h.of_append_right (hplain g).2
      have hread : Sign.read? (g.spelling.toList ++ u) = some (g, u) := by
        refine Sign.read?_eq_some_iff.2 ⟨rfl, fun hg hhead => hopen hg ?_⟩
        exact hu.head?_left (by decide) hhead
      rw [hs] at hread
      cases hread

/-- Tokens read before and after line ends are rebuilt: they are the same up to carriage returns in
strings, and take the same place. -/
inductive ReadingsAlike : (r r' : Except SyntaxError Reading) → Prop
  | error (e e' : SyntaxError) : ReadingsAlike (.error e) (.error e')
  | ok {x y : Reading} (htoken : KinTokens x.token y.token)
    (hafter : ∀ p : Position, p.after y.text = p.after x.text) (h : Reflows x.rest y.rest) :
    ReadingsAlike (.ok x) (.ok y)

theorem readToken_reflows {s t : List Char} (h : Reflows s t) (p : Position) (c : Char) :
    ReadingsAlike (readToken p c s) (readToken p c t) := by
  unfold readToken
  by_cases hdigit : isDigit c = true
  · obtain ⟨htake, hdrop⟩ := span_reflows h (f := isNumberPart) (by decide) (by decide)
    rw [if_pos hdigit, if_pos hdigit, htake]
    exact .ok (fun _ => rfl) (fun _ => rfl) hdrop
  rw [if_neg hdigit, if_neg hdigit]
  by_cases hword : isWordStart c = true
  · obtain ⟨htake, hdrop⟩ := span_reflows h (f := isWordPart) (by decide) (by decide)
    rw [if_pos hword, if_pos hword, htake]
    exact .ok (fun _ => rfl) (fun _ => rfl) hdrop
  rw [if_neg hword, if_neg hword]
  by_cases hquote : c = '"'
  · rw [if_pos hquote, if_pos hquote]
    have hread := readContents_reflows p p h (show KinContents [].reverse [].reverse from .nil)
    generalize readContents p [] s = x at hread
    generalize readContents p [] t = y at hread
    cases hread with
    | error e e' => exact .error _ _
    | ok hkin hrest =>
      refine .ok (fun hplain => ?_) (fun q => ?_) hrest
      · have hcrlf : ¬ HasCrlf (String.ofList _).toList := hplain
        rw [String.toList_ofList] at hcrlf
        simp only [hkin.eq hcrlf]
      · simp [hkin.after]
  · rw [if_neg hquote, if_neg hquote]
    rcases Sign.read?_reflows (h.char c) with ⟨hs, ht⟩ | ⟨g, u, v, hs, ht, hrest⟩ <;> rw [hs, ht]
    · exact .error _ _
    · exact .ok (fun _ => rfl) (fun _ => rfl) hrest

/-! ## Token streams -/

/-- Tokens in the same places, the same ones up to carriage returns in strings. -/
def KinLexemes (l l' : Lexeme) : Prop :=
  l'.pos = l.pos ∧ KinTokens l.token l'.token

/-- The tokens of texts before and after line ends are rebuilt. -/
inductive StreamsAlike : (r r' : Except SyntaxError TokenStream) → Prop
  | error (e e' : SyntaxError) : StreamsAlike (.error e) (.error e')
  | ok {x y : TokenStream} (h : List.Forall₂ KinLexemes x.lexemes y.lexemes) :
    StreamsAlike (.ok x) (.ok y)

theorem lexFrom_alike {s t : List Char} {p p' : Position} {done done' : List Lexeme}
    (h : GapsAlike (skipGap .blank p s) (skipGap .blank p' t))
    (hdone : List.Forall₂ KinLexemes done done') :
    StreamsAlike (lexFrom done p s) (lexFrom done' p' t) := by
  induction hn : s.length using Nat.strongRecOn generalizing s t p p' done done' with
  | ind n ih =>
    rw [lexFrom_eq, lexFrom_eq]
    generalize hs : skipGap .blank p s = x at h
    generalize skipGap .blank p' t = y at h
    cases h with
    | error e e' => exact .error e e'
    | stop q q' => exact .ok (List.rel_reverse hdone)
    | @token q c u v h =>
      have hread := readToken_reflows h q c
      simp only
      generalize hx : readToken q c u = x at hread
      generalize readToken q c v = y at hread
      cases hread with
      | error e e' => exact .error e e'
      | ok htoken hafter hrest =>
        have hgap := length_le_of_skipGap hs
        have hshorter := rest_length_lt_of_readToken hx
        refine ih _ (by omega) ?_ (.cons ⟨rfl, htoken⟩ hdone) rfl
        rw [hafter]
        exact skipGap_reflows hrest .blank _

/-- A text and the rebuilt text have the same tokens in the same places, but for line ends in strings;
or both have a place without a token. -/
theorem lex_rebuilt {s t : List Char} (h : Rebuilt s t) :
    StreamsAlike (lex (String.ofList s)) (lex (String.ofList t)) := by
  unfold lex
  rw [String.toList_ofList, String.toList_ofList]
  exact lexFrom_alike (skipGap_rebuilt h _) .nil

/-- No string literal of a text runs over a line end with a carriage return. -/
def PlainStrings (s : String) : Prop :=
  ∀ stream ∈ (lex s).toOption, ∀ l ∈ stream.lexemes, l.token.Plain

instance (s : String) : Decidable (PlainStrings s) :=
  inferInstanceAs (Decidable (∀ stream ∈ (lex s).toOption, ∀ l ∈ stream.lexemes, l.token.Plain))

theorem eq_of_kinLexemes {l l' : List Lexeme} (h : List.Forall₂ KinLexemes l l')
    (hplain : ∀ x ∈ l, x.token.Plain) : l' = l := by
  induction h with
  | nil => rfl
  | @cons x y l l' hxy _ ih =>
    rw [ih fun z hz => hplain z (List.mem_cons_of_mem _ hz)]
    have htoken := hxy.2 (hplain x List.mem_cons_self)
    obtain ⟨token, pos⟩ := x
    obtain ⟨token', pos'⟩ := y
    obtain rfl : pos' = pos := hxy.1
    obtain rfl : token' = token := htoken
    rfl

/-- If no string has such a line end, rebuilding the text does not change what is parsed. -/
theorem parse_rebuilt {s t : List Char} (h : Rebuilt s t) (hplain : PlainStrings (String.ofList s)) :
    (Fragment.parse (String.ofList t)).toOption = (Fragment.parse (String.ofList s)).toOption := by
  have halike := lex_rebuilt h
  unfold Fragment.parse parseWith
  generalize hs : lex (String.ofList s) = x at halike
  generalize lex (String.ofList t) = y at halike
  cases halike with
  | error e e' => rfl
  | @ok x y hlexemes =>
    simp only [eq_of_kinLexemes hlexemes (hplain x (by rw [hs]; rfl))]
    cases parseFragment x.lexemes <;> rfl

end ScriptMachine.Source
