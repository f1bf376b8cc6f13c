import ScriptMachine.CommandLine.Transcript
import ScriptMachine.Proofs.Source.Faithful
import ScriptMachine.Proofs.Source.Regions

/-!
# Complete texts

A prompt waits for more lines as long as the text is not balanced. What it counts are the delimiters
among the tokens that the lexer reads. A fragment closes each parenthesis and brace that it opens, so
the prompt does not wait for more of it.
-/

namespace ScriptMachine.Source

/-! ## The depth of a text -/

/-- The scan for balance counts what is seen, and wants the text to end outside of strings and block
comments. -/
theorem balancedFrom_eq (g : Region) (d : Int) (s : List Char) :
    balancedFrom g d s = (decide (d + level (outside g s) ≤ 0) && (g.after s).isClosed) := by
  fun_induction balancedFrom g d s with
  | _ => simp_all [outside, Region.after, Region.isClosed, charLevel, Int.add_assoc, Int.sub_eq_add_neg]

/-! ## The delimiters of a tree -/

/-- A token that is no delimiter changes nothing. -/
theorem surplus_cons_of_plain {t : Token} (ht : surplus [t] = 0) (ts : List Token) :
    surplus (t :: ts) = surplus ts := by
  rw [surplus_cons, ht, Int.zero_add]

/-- Nor does a pair of parentheses. -/
theorem surplus_parens {ts : List Token} (h : surplus ts = 0) (us : List Token) :
    surplus (.sign .lparen :: (ts ++ .sign .rparen :: us)) = surplus us := by
  have hopen : surplus [.sign .lparen] = 1 := rfl
  have hclose : surplus [.sign .rparen] = -1 := rfl
  rw [surplus_cons, surplus_append, surplus_cons (.sign .rparen), h, hopen, hclose]
  omega

theorem BinaryOp.surplus_sign (op : BinaryOp) : surplus [.sign op.sign] = 0 := by
  cases op <;> rfl

theorem UnaryOp.surplus_sign (op : UnaryOp) : surplus [.sign op.sign] = 0 := by
  cases op <;> rfl

theorem ParamsFrom.surplus_eq {names : List String} {ts : List Token} :
    ParamsFrom names ts → surplus ts = 0
  | .nil => rfl
  | .one => rfl
  | .cons hrest => by
    rw [surplus_cons_of_plain rfl, surplus_cons_of_plain rfl, hrest.surplus_eq]

mutual

theorem ExprFrom.surplus_eq {grouped : Bool} {e : Expr} {ts : List Token} :
    ExprFrom grouped e ts → surplus ts = 0
  | .number => rfl
  | .text => rfl
  | .name => rfl
  | @ExprFrom.bool true _ => rfl
  | @ExprFrom.bool false _ => rfl
  | .nil => rfl
  | .group h => surplus_parens h.surplus_eq []
  | .binary hl _ hr _ => by
    rw [surplus_append, hl.surplus_eq, surplus_cons_of_plain (BinaryOp.surplus_sign _), hr.surplus_eq]
    rfl
  | .unary h _ => by rw [surplus_cons_of_plain (UnaryOp.surplus_sign _), h.surplus_eq]
  | .call hc _ ha => by
    rw [surplus_append, hc.surplus_eq, surplus_parens ha.surplus_eq]
    rfl
  | .cond ht hb ho => by
    rw [surplus_cons_of_plain rfl, surplus_append, surplus_append, ht.surplus_eq, hb.surplus_eq,
      ho.surplus_eq]
    rfl
  | .block hb => hb.surplus_eq

theorem ArgsFrom.surplus_eq {args : List Expr} {ts : List Token} :
    ArgsFrom args ts → surplus ts = 0
  | .nil => rfl
  | .one h => h.surplus_eq
  | .cons h hrest => by
    rw [surplus_append, h.surplus_eq, surplus_cons_of_plain rfl, hrest.surplus_eq]
    rfl

theorem ElseFrom.surplus_eq {otherwise : Else} {ts : List Token} :
    ElseFrom otherwise ts → surplus ts = 0
  | .absent => rfl
  | .block hb => by rw [surplus_cons_of_plain rfl, hb.surplus_eq]
  | .elseIf ht hb ho => by
    rw [surplus_cons_of_plain rfl, surplus_cons_of_plain rfl, surplus_append, surplus_append,
      ht.surplus_eq, hb.surplus_eq, ho.surplus_eq]
    rfl

theorem StmtFrom.surplus_eq {s : Stmt} {ts : List Token} : StmtFrom s ts → surplus ts = 0
  | @StmtFrom.bind mutable _ _ _ _ _ hv => by
    have hkeyword : surplus [.keyword (if mutable then .kwMut else .kwLet)] = 0 := by
      cases mutable <;> rfl
    rw [surplus_cons_of_plain hkeyword, surplus_cons_of_plain rfl, surplus_cons_of_plain rfl,
      hv.surplus_eq]
  | .assign ht hv => by
    rw [surplus_append, ht.surplus_eq, surplus_cons_of_plain rfl, hv.surplus_eq]
    rfl
  | .func hp hb => by
    rw [surplus_cons_of_plain rfl, surplus_cons_of_plain rfl, surplus_parens hp.surplus_eq,
      hb.surplus_eq]
  | .retNil => rfl
  | .ret hv => by rw [surplus_cons_of_plain rfl, hv.surplus_eq]
  | .loop ht hb => by
    rw [surplus_cons_of_plain rfl, surplus_append, ht.surplus_eq, hb.surplus_eq]
    rfl
  | .expr h => h.surplus_eq

theorem StmtsFrom.surplus_eq {stmts : List Stmt} {ts : List Token} :
    StmtsFrom stmts ts → surplus ts = 0
  | .nil => rfl
  | .cons h hrest => by
    rw [surplus_append, h.surplus_eq, hrest.surplus_eq]
    rfl
  | .semicolon h hrest => by
    rw [surplus_append, h.surplus_eq, surplus_cons_of_plain rfl, hrest.surplus_eq]
    rfl

theorem BlockFrom.surplus_eq {body : Block} {ts : List Token} : BlockFrom body ts → surplus ts = 0
  | .mk h => by
    rw [surplus_cons, surplus_append, h.surplus_eq]
    rfl

end

/-- A fragment has as many opening as closing delimiters. -/
theorem surplus_of_parse {source : String} {f : Fragment} (h : Fragment.parse source = .ok f) :
    ∃ stream, lex source = .ok stream ∧ surplus (stream.lexemes.map Lexeme.token) = 0 := by
  unfold Fragment.parse parseWith at h
  cases hlex : lex source with
  | error => rw [hlex] at h; cases h
  | ok stream =>
    rw [hlex] at h
    dsimp only at h
    unfold parseFragment at h
    cases hs : readStmts (depthFor stream.lexemes) false [] stream.lexemes with
    | error => rw [hs] at h; cases h
    | ok x =>
      obtain ⟨stmts, r⟩ := x
      obtain ⟨_, ts, _, hfrom, hts, hend⟩ := (faithful _).stmts hs
      obtain rfl : r = [] := by simpa using hend
      refine ⟨stream, rfl, ?_⟩
      rw [hts.map_eq]
      simpa using hfrom.surplus_eq

/-! ## Balanced texts -/

/-- A text that has tokens is balanced if it closes what it opens. -/
theorem isBalanced_of_lex {source : String} {stream : TokenStream} (h : lex source = .ok stream) :
    isBalanced source.toList = decide (surplus (stream.lexemes.map Lexeme.token) ≤ 0) := by
  have hscan := scan_of_lexFrom [] .start source.toList
  rw [← lex, h] at hscan
  obtain ⟨added, hadded, hlevel, -, hclosed⟩ := hscan
  obtain rfl : stream.lexemes = added := by simpa using hadded
  rw [isBalanced, balancedFrom_eq, hlevel, hclosed, Bool.and_true, Int.zero_add]

/-- A text whose end stands in a string or in a block comment is not balanced. -/
theorem not_isBalanced_of_lex {source : String} {e : SyntaxError} (h : lex source = .error e)
    (he : e.IsUnclosed) : isBalanced source.toList = false := by
  have hscan := scan_of_lexFrom [] .start source.toList
  rw [← lex, h] at hscan
  rw [isBalanced, balancedFrom_eq, hscan he, Bool.and_false]

theorem isBalanced_of_parse {source : String} {f : Fragment} (h : Fragment.parse source = .ok f) :
    isBalanced source.toList = true := by
  obtain ⟨stream, hlex, hsurplus⟩ := surplus_of_parse h
  rw [isBalanced_of_lex hlex, hsurplus]
  rfl

/-- The end of a line does not change whether a text is balanced. -/
theorem isBalanced_append_newline (s : List Char) : isBalanced (s ++ ['\n']) = isBalanced s := by
  obtain ⟨seen, next, h⟩ := exists_endsLine .code s
  have hscan := h.scan []
  have hclosed : (Region.code.after (s ++ ['\n'])).isClosed = (Region.code.after s).isClosed := by
    rw [hscan.closed_eq, Region.after, h.closed_eq]
  have hlevel : level (outside .code (s ++ ['\n'])) = level (outside .code s) := by
    rw [hscan.outside_eq, outside, List.append_nil, h.level_eq]
  rw [isBalanced, isBalanced, balancedFrom_eq, balancedFrom_eq, hclosed, hlevel]

end ScriptMachine.Source

namespace ScriptMachine.CommandLine

open Source

/-- The prompt counts the delimiters that the lexer reads as tokens, and asks for more of a string or a
block comment that the lexer finds unclosed. A fragment is always complete: once its lines are there,
they are run, or dropped if they are blank. -/
theorem prompt_agrees_with_lex (source : String) :
    (∀ stream, lex source = .ok stream →
      (isBalanced source.toList = true ↔
        stream.lexemes.countP (·.token.isOpening) ≤ stream.lexemes.countP (·.token.isClosing))) ∧
    (∀ e, lex source = .error e → e.fault = .unclosedString ∨ e.fault = .unclosedComment →
      isBalanced source.toList = false) ∧
    ∀ f, Fragment.parse source = .ok f →
      isBalanced source.toList = true ∧
      ∀ (t : Transcript) (line : List Char),
        source.toList = t.pending ++ line ∨ source.toList = t.pending ++ line ++ ['\n'] →
        t.takeLine line =
          if (Text.trim (t.pending ++ line ++ ['\n'])).isEmpty then { t with pending := [] }
          else t.runPending (Text.trim (t.pending ++ line ++ ['\n'])) := by
  refine ⟨fun stream h => ?_, fun e h he => not_isBalanced_of_lex h he, fun f h => ?_⟩
  · rw [isBalanced_of_lex h, decide_eq_true_iff, surplus, List.countP_map, List.countP_map]
    simp only [Function.comp_def]
    omega
  · have hbalanced := isBalanced_of_parse h
    refine ⟨hbalanced, fun t line hsource => ?_⟩
    have hline : isBalanced (t.pending ++ line ++ ['\n']) = true := by
      rcases hsource with hsource | hsource
      · rw [isBalanced_append_newline, ← hsource, hbalanced]
      · rw [← hsource, hbalanced]
    rw [Transcript.takeLine, hline]
    rfl

/-- A text with delimiters in a string and in comments. -/
def delimitersText : String :=
  "f(\"(\\\"\x7b\", /*/ ( */ 1) /**/ // )"

/-- A text that ends in a string. -/
def openString : String :=
  "f(\"a\\\") // b"

/-- A text that ends in a block comment. -/
def openComment : String :=
  "f(1) /*/"

/-- The lines of a function. -/
def functionText : String :=
  "fn f(x) \x7b\n  x\n\x7d"

/-- A session at a prompt that has read two of these lines. -/
def waitingForBrace : Transcript :=
  { Transcript.start
      (Session.new Session.standardCompiler (Session.FileTree.empty []).toFiles ⟨some 100, 0⟩)
      (.default none) with pending := "fn f(x) \x7b\n  x\n".toList }

/-- Why a text has no tokens. -/
def fault? (source : String) : Option SyntaxFault :=
  (lex source).casesOn (fun e => some e.fault) fun _ => none

theorem prompt_agrees_on_texts :
    isBalanced delimitersText.toList = true ∧ isBalanced openString.toList = false ∧
      isBalanced openComment.toList = false ∧ isBalanced functionText.toList = true ∧
      waitingForBrace.takeLine ['\x7d'] = waitingForBrace.runPending functionText.toList := by
  have hdelimiters : (lex delimitersText).toOption.map (fun stream =>
      (stream.lexemes.countP (·.token.isOpening), stream.lexemes.countP (·.token.isClosing))) =
      some (1, 1) := by
    decide +kernel
  have hstring : fault? openString = some .unclosedString := by
    decide +kernel
  have hcomment : fault? openComment = some .unclosedComment := by
    decide +kernel
  have hfunction : (Fragment.parse functionText).toOption.isSome = true := by decide +kernel
  refine ⟨?_, ?_, ?_, ?_⟩
  · cases h : lex delimitersText with
    | error e => rw [h] at hdelimiters; cases hdelimiters
    | ok stream =>
      rw [h] at hdelimiters
      have hcounts := Prod.mk.inj (Option.some.inj hdelimiters)
      refine ((prompt_agrees_with_lex delimitersText).1 stream h).2 ?_
      exact Nat.le_of_eq (hcounts.1.trans hcounts.2.symm)
  · cases h : lex openString with
    | error e =>
      rw [fault?, h] at hstring
      exact (prompt_agrees_with_lex openString).2.1 e h (.inl (Option.some.inj hstring))
    | ok stream => rw [fault?, h] at hstring; cases hstring
  · cases h : lex openComment with
    | error e =>
      rw [fault?, h] at hcomment
      exact (prompt_agrees_with_lex openComment).2.1 e h (.inr (Option.some.inj hcomment))
    | ok stream => rw [fault?, h] at hcomment; cases hcomment
  · cases h : Fragment.parse functionText with
    | error e => rw [h] at hfunction; cases hfunction
    | ok f =>
      obtain ⟨hbalanced, hline⟩ := (prompt_agrees_with_lex functionText).2.2 f h
      refine ⟨hbalanced, (hline waitingForBrace ['\x7d'] (.inl (by decide +kernel))).trans ?_⟩
      rw [if_neg (by decide +kernel)]
      exact congrArg waitingForBrace.runPending (by decide +kernel)

end ScriptMachine.CommandLine
