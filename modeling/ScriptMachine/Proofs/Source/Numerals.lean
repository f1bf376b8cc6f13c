import ScriptMachine.Proofs.Source.Rereading
import ScriptMachine.Value.Word

/-!
# Numerals

The decimal text of an integer is read as a fragment of its own, and in parentheses as an operand. Below
zero it has two tokens: the sign is an operator, which negates the number after it.
-/

namespace ScriptMachine.Source

/-- The tree of a decimal integer. -/
def numeral (n : Int) : Expr :=
  if n < 0 then .unary .neg (.number (Nat.repr n.natAbs) .start) .start
  else .number (Nat.repr n.natAbs) .start

/-- The text of an operation on an operand in parentheses. -/
def unaryText (op : UnaryOp) (operand : String) : String :=
  op.sign.spelling ++ "(" ++ operand ++ ")"

/-- The text of an operation on operands in parentheses. -/
def binaryText (op : BinaryOp) (left right : String) : String :=
  "(" ++ left ++ ") " ++ op.sign.spelling ++ " (" ++ right ++ ")"

/-- The text of an expression, with spaces around it. -/
def Expr.padded (e : Expr) : String :=
  " " ++ String.ofList (spell e.tokens) ++ " "

/-! ## Digits -/

/-- The digits of a number denote it. -/
theorem ofDigits_repr (k : Nat) : Text.ofDigits (Nat.repr k).toList = k := by
  rw [Nat.toList_repr]
  exact Nat.ofDigitChars_toDigits (by decide) (by decide)

theorem areDigits_repr (k : Nat) : Text.areDigits (Nat.repr k).toList = true := by
  rw [Nat.toList_repr, Text.areDigits, Bool.and_eq_true, Bool.not_eq_true',
    List.isEmpty_eq_false_iff, List.all_eq_true]
  exact ⟨Nat.toDigits_ne_nil, fun c hc => Nat.isDigit_of_mem_toDigits (by decide) (by decide) hc⟩

theorem numeral_wellFormed (n : Int) : (numeral n).wellFormed = true := by
  unfold numeral
  split_ifs <;> exact areDigits_repr n.natAbs

/-! ## Pieces of text -/

/-- A piece of text has these tokens, in front of the rest of the text. -/
def Lexes (text : List Char) (ts : List Token) (rest : List Char) : Prop :=
  ∀ done p, ∃ more q, lexFrom done p (text ++ rest) = lexFrom (more ++ done) q rest ∧
    more.map Lexeme.token = ts.reverse

section

variable {s t rest : List Char} {ts us : List Token}

theorem Lexes.append (h : Lexes s ts (t ++ rest)) (h' : Lexes t us rest) :
    Lexes (s ++ t) (ts ++ us) rest := by
  intro done p
  obtain ⟨more, q, heq, hmore⟩ := h done p
  obtain ⟨more', q', heq', hmore'⟩ := h' (more ++ done) q
  refine ⟨more' ++ more, q', ?_, ?_⟩
  · rw [List.append_assoc, heq, heq', List.append_assoc]
  · rw [List.map_append, hmore, hmore', List.reverse_append]

theorem ReadsBack.lexes {t : Token} (h : ReadsBack t rest) : Lexes t.spelled [t] rest :=
  fun done p => ⟨[⟨t, p⟩], p.after t.spelled, h.lexFrom_eq done p, rfl⟩

theorem lexes_space : Lexes [' '] [] rest :=
  fun done p => ⟨[], p.next ' ', lexFrom_space done p, rfl⟩

theorem lexes_spell (hts : Lexable ts) (hrest : Spaced rest) : Lexes (spell ts) ts rest := by
  induction ts with
  | nil => exact fun done p => ⟨[], p, rfl, rfl⟩
  | cons t more ih =>
    have ht := hts t List.mem_cons_self
    have hmore := ih fun u hu => hts u (List.mem_cons_of_mem _ hu)
    cases more with
    | nil => exact (readsBack_token ht hrest).lexes
    | cons u more =>
      have hspace : Spaced (' ' :: spell (u :: more) ++ rest) := by simp [Spaced]
      exact (readsBack_token ht hspace).lexes.append (lexes_space.append hmore)

/-- A text that is a single piece has its tokens. -/
theorem Lexes.lex {source : String} (h : Lexes source.toList ts []) :
    ∃ stream, lex source = .ok stream ∧ stream.lexemes.map Lexeme.token = ts := by
  obtain ⟨more, q, heq, hmore⟩ := h [] .start
  rw [List.append_nil] at heq
  refine ⟨⟨more.reverse, q⟩, ?_, ?_⟩
  · rw [Source.lex, heq, List.append_nil, lexFrom_eq]
    rfl
  · rw [List.map_reverse, hmore, List.reverse_reverse]

end

/-- Between parentheses a text has these tokens. -/
def OperandText (text : String) (ts : List Token) : Prop :=
  ∀ rest, Spaced rest → Lexes ('(' :: text.toList ++ [')']) (grouped true ts) rest

/-- What can stand after a sign without changing it. -/
def KeepsSign (rest : List Char) : Prop :=
  ∀ c ∈ rest.head?, c ≠ '=' ∧ c ≠ '/' ∧ c ≠ '*'

/-- Parentheses can stand around a text that runs on over none of them. -/
theorem operandText_of_lexes {text : String} {ts : List Token}
    (hkeeps : ∀ rest, KeepsSign (text.toList ++ ')' :: rest))
    (h : ∀ rest, Lexes text.toList ts (')' :: rest)) : OperandText text ts := by
  intro rest hrest
  have hclose : ReadsBack (.sign .rparen) rest := readsBack_token rfl hrest
  have hopen : ReadsBack (.sign .lparen) (text.toList ++ [')'] ++ rest) :=
    readsBack_sign .lparen (by rw [List.append_assoc]; exact hkeeps rest)
  exact hopen.lexes.append ((h rest).append hclose.lexes)

/-! ## Numerals as text -/

theorem head?_repr (k : Nat) (rest : List Char) :
    ∀ c ∈ ((Nat.repr k).toList ++ rest).head?, isDigit c = true := by
  have hdigits := areDigits_repr k
  simp only [Text.areDigits, Bool.and_eq_true, Bool.not_eq_true', List.isEmpty_eq_false_iff,
    List.all_eq_true] at hdigits
  obtain ⟨c, run, hrun⟩ := List.exists_cons_of_ne_nil hdigits.1
  rw [hrun] at hdigits ⊢
  rintro d ⟨⟩
  exact hdigits.2 c List.mem_cons_self

theorem keepsSign_of_digit {rest : List Char} (h : ∀ c ∈ rest.head?, isDigit c = true) :
    KeepsSign rest := by
  intro c hc
  have hdigit := h c hc
  refine ⟨?_, ?_, ?_⟩ <;> rintro rfl <;> exact absurd hdigit (by decide)

/-- A decimal integer has the tokens of its tree, where no digit follows. -/
theorem lexes_decimal (n : Int) {rest : List Char}
    (hrest : ∀ c ∈ rest.head?, isNumberPart c = false) :
    Lexes (decimal n).toList (numeral n).tokens rest := by
  have hdigits : ReadsBack (.integer (Nat.repr n.natAbs)) rest :=
    readsBack_integer (areDigits_repr n.natAbs) hrest
  unfold decimal numeral
  split_ifs
  · have hsign : ReadsBack (.sign .minus) ((Nat.repr n.natAbs).toList ++ rest) :=
      readsBack_sign .minus (keepsSign_of_digit (head?_repr _ _))
    rw [String.toList_append]
    exact hsign.lexes.append hdigits.lexes
  · exact hdigits.lexes

theorem operandText_decimal (n : Int) : OperandText (decimal n) (numeral n).tokens := by
  refine operandText_of_lexes (fun rest => ?_) fun rest => lexes_decimal n (by simp; decide)
  unfold decimal
  split_ifs
  · simp [KeepsSign]
  · exact keepsSign_of_digit (head?_repr _ _)

theorem operandText_padded {e : Expr} (h : e.wellFormed = true) :
    OperandText e.padded e.tokens := by
  refine operandText_of_lexes (fun rest => by simp [Expr.padded, KeepsSign]) fun rest => ?_
  have hspell : Lexes (spell e.tokens) e.tokens (' ' :: ')' :: rest) :=
    lexes_spell (lexable_expr e h) (by simp [Spaced])
  have hall : Lexes ([' '] ++ (spell e.tokens ++ [' '])) ([] ++ (e.tokens ++ [])) (')' :: rest) :=
    lexes_space.append (hspell.append lexes_space)
  simpa [Expr.padded] using hall

theorem lex_decimal (n : Int) : ∃ stream, lex (decimal n) = .ok stream ∧
    stream.lexemes.map Lexeme.token = (numeral n).tokens :=
  (lexes_decimal n (by simp)).lex

theorem lex_unaryText (op : UnaryOp) {text : String} {ts : List Token} (h : OperandText text ts) :
    ∃ stream, lex (unaryText op text) = .ok stream ∧
      stream.lexemes.map Lexeme.token = .sign op.sign :: grouped true ts := by
  have hsign : Lexes op.sign.spelling.toList [.sign op.sign] ('(' :: text.toList ++ [')'] ++ []) := by
    refine ReadsBack.lexes (readsBack_sign op.sign ?_)
    rintro c ⟨⟩
    decide
  refine Lexes.lex ?_
  simpa [unaryText] using hsign.append (h [] (by simp [Spaced]))

theorem lex_binaryText (op : BinaryOp) {left right : String} {ls rs : List Token}
    (hl : OperandText left ls) (hr : OperandText right rs) :
    ∃ stream, lex (binaryText op left right) = .ok stream ∧
      stream.lexemes.map Lexeme.token = grouped true ls ++ .sign op.sign :: grouped true rs := by
  have hright := hr [] (by simp [Spaced])
  have hsign : ReadsBack (.sign op.sign) ([' '] ++ ('(' :: right.toList ++ [')']) ++ []) :=
    readsBack_token rfl (by simp [Spaced])
  have htail := lexes_space.append (hsign.lexes.append (lexes_space.append hright))
  refine Lexes.lex ?_
  simpa [binaryText, Token.spelled, Token.content] using (hl _ (by simp [Spaced])).append htail

/-! ## Trees of numerals -/

/-- A text whose tokens are read as an expression is a fragment of just this expression. -/
theorem parse_expr {source : String} {stream : TokenStream} {t : Token} {ts : List Token} {e : Expr}
    (hlex : lex source = .ok stream) (htokens : stream.lexemes.map Lexeme.token = t :: ts)
    (hstart : startsExpr t = true)
    (hread : readExpr (8 * stream.lexemes.length + 6) 0 stream.lexemes = .ok (e, [])) :
    Fragment.parse source = .ok [.expr e] := by
  obtain ⟨⟨t', p⟩, ls, hls, rfl, -⟩ := List.map_eq_cons_iff.1 htokens
  have hstmt : readStmt (8 * stream.lexemes.length + 7) stream.lexemes = .ok (.expr e, []) := by
    rw [hls] at hread ⊢
    rw [readStmt_expr hstart, hread]
    rfl
  have hgo : (stream.lexemes.isEmpty || (false && nextSign? stream.lexemes == some .rbrace)) =
      false := by
    rw [hls]
    rfl
  rw [Fragment.parse, parseWith, hlex]
  simp only [parseFragment, depthFor]
  rw [readStmts, hgo]
  simp only [hstmt]
  rfl

/-- The end of a text ends an expression. -/
theorem closing_nil : Closing [] where
  noElse _ _ := nofun
  noCall := nofun
  noOperator := rfl

section

variable {e f : Expr}

theorem length_grouped (ts : List Token) : (grouped true ts).length = ts.length + 2 := by
  simp [grouped]

/-- In parentheses a well-formed expression is read back. -/
theorem readsUpTo_grouped (he : e.wellFormed = true) (min : Nat) {n : Nat} {ls r : List Lexeme}
    (hls : Ahead (grouped true e.tokens) ls r) (hn : 8 * (e.tokens.length + 2) ≤ n) :
    ReadsUpTo n min ls r e (e.tokens.length + 2) := by
  have hreads : e.Reads := Expr.reads e he
  rw [← length_grouped] at hn ⊢
  exact hreads.grouped hls hn fun h => Bool.noConfusion h

/-- In parentheses at the end of a text it is all that is read. -/
theorem readExpr_grouped (he : e.wellFormed = true) (min : Nat) {n : Nat} {ls : List Lexeme}
    (hls : Ahead (grouped true e.tokens) ls []) (hn : 8 * (e.tokens.length + 2) ≤ n) :
    ∃ e', readExpr n min ls = .ok (e', []) ∧ e'.unplaced = e.unplaced :=
  (readsUpTo_grouped he min hls hn).ends (by omega) closing_nil.noCall (closing_nil.stops min)

/-- The decimal text of an integer is a fragment of one numeral. -/
theorem parse_decimal (n : Int) : ∃ e, Fragment.parse (decimal n) = .ok [.expr e] ∧
    e.unplaced = (numeral n).unplaced := by
  obtain ⟨stream, hlex, htokens⟩ := lex_decimal n
  have hahead : Ahead (numeral n).tokens stream.lexemes [] := htokens ▸ .of_map stream.lexemes
  have hlength := congrArg List.length htokens
  rw [List.length_map] at hlength
  obtain ⟨t, ts, hfirst, hstart⟩ := startsExpr_tokens (numeral n)
  have hreads : (numeral n).Reads := Expr.reads (numeral n) (numeral_wellFormed n)
  obtain ⟨e, hread, hsame⟩ := hreads.closed hahead (n := 8 * stream.lexemes.length + 6) (by omega)
    closing_nil
  exact ⟨e, parse_expr hlex (htokens.trans hfirst) hstart hread, hsame⟩

/-- An operator before an expression in parentheses has it for an operand. -/
theorem parse_unaryText (op : UnaryOp) {text : String} (he : e.wellFormed = true)
    (htext : OperandText text e.tokens) : ∃ e' p,
      Fragment.parse (unaryText op text) = .ok [.expr (.unary op e' p)] ∧
        e'.unplaced = e.unplaced := by
  obtain ⟨stream, hlex, htokens⟩ := lex_unaryText op htext
  have hahead := Ahead.of_map stream.lexemes
  have hlength := congrArg List.length htokens
  rw [htokens] at hahead
  rw [List.length_map, List.length_cons, length_grouped] at hlength
  generalize hls : stream.lexemes = ls at hahead
  cases hahead with
  | @cons _ _ p l _ hoperand =>
    obtain ⟨e', hread, hsame⟩ := readExpr_grouped he UnaryOp.strength hoperand
      (n := 8 * stream.lexemes.length + 4) (by omega)
    refine ⟨e', p, parse_expr hlex htokens (by cases op <;> rfl) ?_, hsame⟩
    rw [hls] at hread ⊢
    exact (readExpr_unary hread).trans (readOperators_stop closing_nil.noCall (closing_nil.stops 0))

/-- An operator between expressions in parentheses has them for operands. -/
theorem parse_binaryText (op : BinaryOp) {left right : String} (he : e.wellFormed = true)
    (hf : f.wellFormed = true) (hleft : OperandText left e.tokens)
    (hright : OperandText right f.tokens) : ∃ e' f' p,
      Fragment.parse (binaryText op left right) = .ok [.expr (.binary op e' f' p)] ∧
        e'.unplaced = e.unplaced ∧ f'.unplaced = f.unplaced := by
  obtain ⟨stream, hlex, htokens⟩ := lex_binaryText op hleft hright
  have hahead := Ahead.of_map stream.lexemes
  have hlength := congrArg List.length htokens
  rw [htokens] at hahead
  rw [List.length_map, List.length_append, List.length_cons, length_grouped, length_grouped]
    at hlength
  obtain ⟨m, hfirst, hrest⟩ := hahead.of_append
  cases hrest with
  | @cons _ _ p l _ hsecond =>
    obtain ⟨e', k, hread, hsame, hk⟩ := readsUpTo_grouped he 0 hfirst
      (n := 8 * stream.lexemes.length + 6) (by omega)
    obtain ⟨k, rfl⟩ : ∃ j, k = j + 2 := ⟨k - 2, by omega⟩
    obtain ⟨f', hread', hsame'⟩ := readExpr_grouped hf op.strength hsecond (n := k + 1)
      (by omega)
    have hop : 0 < op.strength := by cases op <;> decide
    refine ⟨e', f', e'.pos, parse_expr hlex htokens rfl ?_, hsame, hsame'⟩
    rw [hread, readOperators_binary hop hread' (by simp [nextOperator?, nextSign?])]
    exact readOperators_stop closing_nil.noCall (closing_nil.stops 0)

end

end ScriptMachine.Source
