import ScriptMachine.Proofs.Source.Lexing
import ScriptMachine.Proofs.Source.Printing
import Mathlib.Tactic.Tauto

/-!
# Spelled tokens are read back

A text of well-formed tokens with spaces between them has just these tokens: no token runs on over a
space, and none of them begins a gap.
-/

namespace ScriptMachine.Source

/-! ## Characters -/

/-- The end of a text, or a space. -/
def Spaced (rest : List Char) : Prop :=
  ∀ c ∈ rest.head?, c = ' '

/-- Letters are the two ranges of them. -/
theorem isAlpha_iff {c : Char} : c.isAlpha = true ↔
    (65 ≤ c.toNat ∧ c.toNat ≤ 90) ∨ (97 ≤ c.toNat ∧ c.toNat ≤ 122) := by
  have heq : c.isAlpha =
      (decide (c.val ≥ 65 ∧ c.val ≤ 90) || decide (c.val ≥ 97) && decide (c.val ≤ 122)) :=
    rfl
  simp only [heq, Bool.or_eq_true, Bool.and_eq_true, decide_eq_true_eq, ge_iff_le,
    UInt32.le_iff_toNat_le]
  rfl

theorem isDigit_iff {c : Char} : c.isDigit = true ↔ 48 ≤ c.toNat ∧ c.toNat ≤ 57 := by
  have heq : c.isDigit = (decide (c.val ≥ 48) && decide (c.val ≤ 57)) := rfl
  simp only [heq, Bool.and_eq_true, decide_eq_true_eq, ge_iff_le, UInt32.le_iff_toNat_le]
  rfl

/-- Characters of words and numbers are no blanks. -/
theorem isBlank_of_isWordPart {c : Char} (h : isWordPart c = true) : Text.isBlank c = false := by
  have halphanum : c.isAlphanum = (c.isAlpha || c.isDigit) := rfl
  simp only [isWordPart, halphanum, Bool.or_eq_true, isAlpha_iff, isDigit_iff, beq_iff_eq] at h
  have hrange : 48 ≤ c.toNat ∧ c.toNat ≤ 122 := by
    rcases h with ((h | h) | h) | rfl
    · omega
    · omega
    · omega
    · decide
  simp only [Text.isBlank, Bool.or_eq_false_iff, Bool.and_eq_false_iff, decide_eq_false_iff_not,
    beq_eq_false_iff_ne]
  omega

theorem isWordPart_of_isWordStart {c : Char} (h : isWordStart c = true) : isWordPart c = true := by
  have halphanum : c.isAlphanum = (c.isAlpha || c.isDigit) := rfl
  simp only [isWordStart, isWordPart, halphanum, Bool.or_eq_true] at h ⊢
  tauto

theorem isWordPart_of_isDigit {c : Char} (h : isDigit c = true) : isWordPart c = true := by
  have halphanum : c.isAlphanum = (c.isAlpha || c.isDigit) := rfl
  simp only [isDigit, isWordPart, halphanum, Bool.or_eq_true] at h ⊢
  tauto

theorem not_isDigit_of_isWordStart {c : Char} (h : isWordStart c = true) : isDigit c = false := by
  simp only [isWordStart, Bool.or_eq_true, isAlpha_iff, beq_iff_eq] at h
  refine Bool.eq_false_iff.2 fun hdigit => ?_
  rw [isDigit, isDigit_iff] at hdigit
  rcases h with (h | h) | rfl
  · omega
  · omega
  · exact absurd hdigit (by decide)

/-- A run of characters ends where the next character is no part of it. -/
theorem span_ended {f : Char → Bool} {l rest : List Char} (hl : ∀ c ∈ l, f c = true)
    (hrest : ∀ c ∈ rest.head?, f c = false) :
    (l ++ rest).takeWhile f = l ∧ (l ++ rest).dropWhile f = rest := by
  have hstop : rest.takeWhile f = [] ∧ rest.dropWhile f = rest := by
    cases rest with
    | nil => exact ⟨rfl, rfl⟩
    | cons c r => simp [hrest c rfl]
  rw [List.takeWhile_append_of_pos hl, List.dropWhile_append_of_pos hl, hstop.1, hstop.2]
  exact ⟨List.append_nil l, rfl⟩

theorem Spaced.ended {f : Char → Bool} {rest : List Char} (h : Spaced rest) (hf : f ' ' = false) :
    ∀ c ∈ rest.head?, f c = false :=
  fun c hc => h c hc ▸ hf

/-! ## Tokens -/

section

variable {c : Char} {run raw rest : List Char} {g : Sign}

/-- A number is read up to its end. -/
theorem readToken_number (hc : isDigit c = true) (hrun : ∀ d ∈ run, isNumberPart d = true)
    (hrest : ∀ d ∈ rest.head?, isNumberPart d = false) (p : Position) :
    readToken p c (run ++ rest) =
      .ok ⟨.integer (String.ofList ((c :: run).filter (· != '_'))), c :: run, rest⟩ := by
  obtain ⟨htake, hdrop⟩ := span_ended hrun hrest
  rw [readToken, if_pos hc]
  simp only [htake, hdrop]

/-- A word is read up to its end, and is a keyword or a name. -/
theorem readToken_word (hc : isWordStart c = true) (hrun : ∀ d ∈ run, isWordPart d = true)
    (hrest : ∀ d ∈ rest.head?, isWordPart d = false) (p : Position) :
    readToken p c (run ++ rest) =
      .ok ⟨(Keyword.ofWord? (String.ofList (c :: run))).elim (.ident (String.ofList (c :: run)))
        .keyword, c :: run, rest⟩ := by
  obtain ⟨htake, hdrop⟩ := span_ended hrun hrest
  rw [readToken, if_neg (by simp [not_isDigit_of_isWordStart hc]), if_pos hc]
  simp only [htake, hdrop]

/-- Raw contents are read up to the quote after them. -/
theorem readContents_raw (p : Position) {raw : List Char} (h : isRaw raw = true)
    (done rest : List Char) :
    readContents p done (raw ++ '"' :: rest) = .ok (done.reverse ++ raw, rest) := by
  fun_induction isRaw raw generalizing done with
  | case1 => simp [readContents]
  | case2 c r ih =>
    simp only [Bool.and_eq_true] at h
    rw [List.cons_append, List.cons_append, readContents, if_pos h.1, ih h.2]
    simp
  | case3 c r _ ih =>
    simp only [Bool.and_eq_true, bne_iff_ne] at h
    rw [List.cons_append, readContents_plain h.1.2 h.1.1, ih h.2]
    simp

/-- A string is read up to its closing quote. -/
theorem readToken_text (h : isRaw raw = true) (p : Position) :
    readToken p '"' (raw ++ '"' :: rest) =
      .ok ⟨.text (String.ofList raw), '"' :: raw ++ ['"'], rest⟩ := by
  have hread := readContents_raw p h [] rest
  rw [readToken, if_neg (by decide), if_neg (by decide), if_pos rfl, hread]
  rfl

/-- A name is a word that is not reserved. -/
theorem word_of_isName {name : String} (h : isName name = true) :
    ∃ c run, name.toList = c :: run ∧ isWordStart c = true ∧ (∀ d ∈ run, isWordPart d = true) ∧
      Keyword.ofWord? name = none := by
  simp only [isName, Bool.and_eq_true, List.all_eq_true, Option.isNone_iff_eq_none] at h
  obtain ⟨⟨hstart, hparts⟩, hword⟩ := h
  cases heq : name.toList with
  | nil =>
    rw [heq] at hstart
    cases hstart
  | cons c run =>
    rw [heq] at hstart hparts
    exact ⟨c, run, rfl, hstart, fun d hd => hparts d (List.mem_cons_of_mem _ hd), hword⟩

/-- A keyword is a word. -/
theorem Keyword.spelling_cons (k : Keyword) : ∃ c run, k.spelling.toList = c :: run ∧
    isWordStart c = true ∧ ∀ d ∈ run, isWordPart d = true := by
  cases k <;> exact ⟨_, _, rfl, by decide, List.all_eq_true.1 (by decide)⟩

/-- The first character of a sign begins no gap and no other token. -/
theorem Sign.spelling_cons (g : Sign) : ∃ c run, g.spelling.toList = c :: run ∧
    Text.isBlank c = false ∧ (c = '/' → run = []) ∧ isDigit c = false ∧ isWordStart c = false ∧
      c ≠ '"' := by
  cases g <;> exact ⟨_, _, rfl, by decide, by decide, by decide, by decide, by decide⟩

/-- A sign is read, unless an equals sign makes it another one. -/
theorem readToken_sign (hrest : g.isOpen = true → rest.head? ≠ some '=')
    (hspelling : g.spelling.toList = c :: run) (p : Position) :
    readToken p c (run ++ rest) = .ok ⟨.sign g, c :: run, rest⟩ := by
  have hread : Sign.read? (g.spelling.toList ++ rest) = some (g, rest) :=
    Sign.read?_eq_some_iff.2 ⟨rfl, hrest⟩
  obtain ⟨_, _, heq, -, -, hdigit, hword, hquote⟩ := g.spelling_cons
  rw [hspelling] at heq hread
  obtain ⟨rfl, rfl⟩ := List.cons.inj heq
  rw [readToken, if_neg (by simp [hdigit]), if_neg (by simp [hword]), if_neg hquote,
    ← List.cons_append, hread, ← hspelling]

end

/-- A token is read back from its spelling, and its first character begins no gap. -/
def ReadsBack (t : Token) (rest : List Char) : Prop :=
  ∃ c r, t.spelled ++ rest = c :: r ∧ Text.isBlank c = false ∧
    (c = '/' → r.head? ≠ some '/' ∧ r.head? ≠ some '*') ∧
    ∀ p, readToken p c r = .ok ⟨t, t.spelled, rest⟩

variable {rest : List Char}

theorem readsBack_integer {digits : String} (h : (Token.integer digits).wellFormed = true)
    (hrest : ∀ c ∈ rest.head?, isNumberPart c = false) : ReadsBack (.integer digits) rest := by
  simp only [Token.wellFormed, Bool.and_eq_true, Bool.not_eq_true', List.isEmpty_eq_false_iff,
    List.all_eq_true] at h
  obtain ⟨c, run, heq⟩ := List.exists_cons_of_ne_nil h.1
  have hall : ∀ d ∈ c :: run, isDigit d = true := heq ▸ h.2
  have hc := hall c List.mem_cons_self
  have hpart : ∀ d ∈ run, isNumberPart d = true := fun d hd => by
    simp [isNumberPart, hall d (List.mem_cons_of_mem _ hd)]
  have hfilter : (c :: run).filter (· != '_') = c :: run := by
    refine List.filter_eq_self.2 fun d hd => ?_
    have hdigit := hall d hd
    simp only [bne_iff_ne]
    rintro rfl
    exact absurd hdigit (by decide)
  have hspelled : (Token.integer digits).spelled = c :: run := heq
  refine ⟨c, run ++ rest, by rw [hspelled]; rfl, isBlank_of_isWordPart (isWordPart_of_isDigit hc),
    ?_, fun p => ?_⟩
  · rintro rfl
    exact absurd hc (by decide)
  · rw [readToken_number hc hpart hrest, hfilter, hspelled, ← heq, String.ofList_toList]

theorem readsBack_word {t : Token} {c : Char} {run : List Char} (hspelled : t.spelled = c :: run)
    (hc : isWordStart c = true) (hrun : ∀ d ∈ run, isWordPart d = true)
    (ht : (Keyword.ofWord? (String.ofList (c :: run))).elim (.ident (String.ofList (c :: run)))
      .keyword = t) (hrest : Spaced rest) : ReadsBack t rest := by
  refine ⟨c, run ++ rest, by rw [hspelled]; rfl,
    isBlank_of_isWordPart (isWordPart_of_isWordStart hc), ?_, fun p => ?_⟩
  · rintro rfl
    exact absurd hc (by decide)
  · rw [readToken_word hc hrun (hrest.ended (by decide)), ht, hspelled]

theorem readsBack_ident {name : String} (h : (Token.ident name).wellFormed = true)
    (hrest : Spaced rest) : ReadsBack (.ident name) rest := by
  obtain ⟨c, run, heq, hc, hrun, hword⟩ := word_of_isName h
  have hname : String.ofList (c :: run) = name := by rw [← heq, String.ofList_toList]
  refine readsBack_word heq hc hrun ?_ hrest
  rw [hname, hword]
  rfl

theorem readsBack_keyword (k : Keyword) (hrest : Spaced rest) : ReadsBack (.keyword k) rest := by
  obtain ⟨c, run, heq, hc, hrun⟩ := k.spelling_cons
  have hword : String.ofList (c :: run) = k.spelling := by rw [← heq, String.ofList_toList]
  refine readsBack_word heq hc hrun ?_ hrest
  rw [hword, Keyword.ofWord?_spelling]
  rfl

theorem readsBack_text {raw : String} (h : (Token.text raw).wellFormed = true) :
    ReadsBack (.text raw) rest := by
  refine ⟨'"', raw.toList ++ '"' :: rest, by simp [Token.spelled], by decide, by simp, fun p => ?_⟩
  rw [readToken_text h, String.ofList_toList]
  rfl

/-- A sign is read back where no sign of equality and no comment could begin. -/
theorem readsBack_sign (g : Sign) (hrest : ∀ c ∈ rest.head?, c ≠ '=' ∧ c ≠ '/' ∧ c ≠ '*') :
    ReadsBack (.sign g) rest := by
  obtain ⟨c, run, heq, hblank, hslash, -⟩ := g.spelling_cons
  have hspelled : (Token.sign g).spelled = c :: run := heq
  refine ⟨c, run ++ rest, by rw [hspelled]; rfl, hblank, fun hc => ?_, fun p => ?_⟩
  · rw [hslash hc, List.nil_append]
    exact ⟨fun hhead => (hrest _ hhead).2.1 rfl, fun hhead => (hrest _ hhead).2.2 rfl⟩
  · rw [readToken_sign (fun _ hhead => (hrest _ hhead).1 rfl) heq, hspelled]

theorem readsBack_token {t : Token} (h : t.wellFormed = true) (hrest : Spaced rest) :
    ReadsBack t rest := by
  cases t with
  | integer digits => exact readsBack_integer h (hrest.ended (by decide))
  | text raw => exact readsBack_text h
  | ident name => exact readsBack_ident h hrest
  | keyword k => exact readsBack_keyword k hrest
  | sign g =>
    refine readsBack_sign g fun c hc => ?_
    rw [hrest c hc]
    decide

/-! ## Texts -/

/-- A token that is read back at the head of a text is its first one. -/
theorem ReadsBack.lexFrom_eq {t : Token} (h : ReadsBack t rest) (done : List Lexeme) (p : Position) :
    lexFrom done p (t.spelled ++ rest) = lexFrom (⟨t, p⟩ :: done) (p.after t.spelled) rest := by
  obtain ⟨c, r, heq, hblank, hslash, hread⟩ := h
  rw [Source.lexFrom_eq, heq,
    skipGap_token hblank (fun hc => (hslash hc).1) fun hc => (hslash hc).2]
  simp only [hread]

/-- A well-formed token at the head of a text is its first one. -/
theorem lexFrom_spelled {t : Token} (h : t.wellFormed = true) (hrest : Spaced rest)
    (done : List Lexeme) (p : Position) :
    lexFrom done p (t.spelled ++ rest) = lexFrom (⟨t, p⟩ :: done) (p.after t.spelled) rest :=
  (readsBack_token h hrest).lexFrom_eq done p

theorem lexFrom_space (done : List Lexeme) (p : Position) :
    lexFrom done p (' ' :: rest) = lexFrom done (p.next ' ') rest := by
  rw [lexFrom_eq, skipGap_blank (by decide), ← lexFrom_eq]

/-- Well-formed tokens are read back from the text that they are spelled as. -/
theorem lexFrom_spell (ts : List Token) (h : ∀ t ∈ ts, t.wellFormed = true) (done : List Lexeme)
    (p : Position) : ∃ stream, lexFrom done p (spell ts) = .ok stream ∧
      stream.lexemes.map Lexeme.token = done.reverse.map Lexeme.token ++ ts := by
  induction ts generalizing done p with
  | nil => exact ⟨⟨done.reverse, p⟩, by rw [lexFrom_eq]; rfl, by simp⟩
  | cons t rest ih =>
    have ht := h t List.mem_cons_self
    cases rest with
    | nil =>
      obtain ⟨stream, hstream, htokens⟩ := ih (by simp) (⟨t, p⟩ :: done) (p.after t.spelled)
      refine ⟨stream, ?_, by simpa using htokens⟩
      rw [← hstream, ← lexFrom_spelled ht (by simp [Spaced, spell])]
      simp [spell]
    | cons u rest =>
      obtain ⟨stream, hstream, htokens⟩ := ih (fun v hv => h v (List.mem_cons_of_mem _ hv))
        (⟨t, p⟩ :: done) ((p.after t.spelled).next ' ')
      refine ⟨stream, ?_, by simpa using htokens⟩
      have hspell : spell (t :: u :: rest) = t.spelled ++ ' ' :: spell (u :: rest) := rfl
      rw [hspell, lexFrom_spelled ht (by simp [Spaced]), lexFrom_space]
      exact hstream

/-! ## Trees -/

/-- Tokens that a text can hold. -/
def Lexable (ts : List Token) : Prop :=
  ∀ t ∈ ts, t.wellFormed = true

namespace Lexable

variable {t : Token} {ts us : List Token}

theorem nil : Lexable [] := by
  simp [Lexable]

theorem cons (ht : t.wellFormed = true) (h : Lexable ts) : Lexable (t :: ts) :=
  List.forall_mem_cons.2 ⟨ht, h⟩

theorem append (h : Lexable ts) (h' : Lexable us) : Lexable (ts ++ us) :=
  List.forall_mem_append.2 ⟨h, h'⟩

theorem grouped (h : Lexable ts) (needed : Bool) : Lexable (grouped needed ts) := by
  cases needed with
  | false => exact h
  | true => exact .cons rfl (h.append (.cons rfl .nil))

theorem params {params : List String} (h : ∀ p ∈ params, (Token.ident p).wellFormed = true) :
    Lexable (paramTokens params) := by
  fun_induction paramTokens params with
  | case1 => exact .nil
  | case2 name => exact .cons (h name List.mem_cons_self) .nil
  | case3 name rest _ ih =>
    exact .cons (h name List.mem_cons_self)
      (.cons rfl (ih fun p hp => h p (List.mem_cons_of_mem _ hp)))

end Lexable

mutual

/-- The tokens of a well-formed expression can stand in a text. -/
theorem lexable_expr : (e : Expr) → e.wellFormed = true → Lexable e.tokens
  | .number _ _, h => .cons h .nil
  | .bool value _, _ => by cases value <;> exact .cons rfl .nil
  | .text _ _, h => .cons h .nil
  | .nil _, _ => .cons rfl .nil
  | .name _ _, h => .cons h .nil
  | .binary op lhs rhs _, h => by
    simp only [Expr.wellFormed, Bool.and_eq_true] at h
    exact ((lexable_expr lhs h.1).grouped _).append (.cons rfl ((lexable_expr rhs h.2).grouped _))
  | .unary op operand _, h => .cons rfl ((lexable_expr operand h).grouped _)
  | .call callee args _, h => by
    simp only [Expr.wellFormed, Bool.and_eq_true] at h
    exact ((lexable_expr callee h.1).grouped _).append
      (.cons rfl ((lexable_args args h.2).append (.cons rfl .nil)))
  | .cond test body otherwise _, h => by
    simp only [Expr.wellFormed, Bool.and_eq_true] at h
    exact .cons rfl ((lexable_expr test h.1.1).append
      ((lexable_block body h.1.2).append (lexable_else otherwise h.2)))
  | .block body, h => lexable_block body h

theorem lexable_args : (args : List Expr) → allWellFormed args = true → Lexable (argTokens args)
  | [], _ => .nil
  | [e], h => by
    simp only [allWellFormed, Bool.and_true] at h
    exact lexable_expr e h
  | e :: e' :: rest, h => by
    rw [allWellFormed, Bool.and_eq_true] at h
    exact (lexable_expr e h.1).append (.cons rfl (lexable_args (e' :: rest) h.2))

theorem lexable_else : (o : Else) → o.wellFormed = true → Lexable o.tokens
  | .absent, _ => .nil
  | .block body, h => .cons rfl (lexable_block body h)
  | .elseIf test body otherwise _, h => by
    simp only [Else.wellFormed, Bool.and_eq_true] at h
    exact .cons rfl (.cons rfl ((lexable_expr test h.1.1).append
      ((lexable_block body h.1.2).append (lexable_else otherwise h.2))))

theorem lexable_stmt : (s : Stmt) → s.wellFormed = true → Lexable s.tokens
  | .bind _ name value _, h => by
    rw [Stmt.wellFormed, Bool.and_eq_true] at h
    exact .cons rfl (.cons h.1 (.cons rfl (lexable_expr value h.2)))
  | .assign target value _, h => by
    cases target with
    | name ident p =>
      rw [Stmt.wellFormed, Bool.and_eq_true] at h
      exact .cons h.1 (.cons rfl (lexable_expr value h.2))
    | _ => cases h
  | .func name params body _, h => by
    simp only [Stmt.wellFormed, Bool.and_eq_true, List.all_eq_true] at h
    exact .cons rfl (.cons h.1.1 (.cons rfl
      ((Lexable.params h.1.2).append (.cons rfl (lexable_block body h.2)))))
  | .retNil _, _ => .cons rfl .nil
  | .ret value _, h => .cons rfl (lexable_expr value h)
  | .loop test body _, h => by
    simp only [Stmt.wellFormed, Bool.and_eq_true] at h
    exact .cons rfl ((lexable_expr test h.1).append (lexable_block body h.2))
  | .expr e, h => lexable_expr e h

theorem lexable_stmts : (stmts : List Stmt) → stmtsWellFormed stmts = true →
    Lexable (stmtTokens stmts)
  | [], _ => .nil
  | s :: rest, h => by
    simp only [stmtsWellFormed, Bool.and_eq_true] at h
    exact (lexable_stmt s h.1).append (.cons rfl (lexable_stmts rest h.2))

theorem lexable_block : (b : Block) → b.wellFormed = true → Lexable b.tokens
  | .mk stmts _, h => .cons rfl ((lexable_stmts stmts h).append (.cons rfl .nil))

end

/-- A well-formed fragment has just the tokens that it is printed with. -/
theorem lex_print {f : Fragment} (h : stmtsWellFormed f = true) :
    ∃ stream, lex f.print = .ok stream ∧ stream.lexemes.map Lexeme.token = stmtTokens f := by
  unfold lex Fragment.print
  rw [String.toList_ofList]
  exact lexFrom_spell (stmtTokens f) (lexable_stmts f h) [] .start

end ScriptMachine.Source
