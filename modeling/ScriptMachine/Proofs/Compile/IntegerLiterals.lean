import ScriptMachine.Proofs.Compile.Combination
import ScriptMachine.Proofs.Scoping.Acceptance
import ScriptMachine.Proofs.Source.Numerals
import ScriptMachine.Proofs.Source.Places

/-!
# What integer literals mean

A numeral is a digit with digits and underscores after it, however many. The lexer drops the underscores
and keeps the digits, zeros in front included. The compiler loads the number that they denote in
decimal, or refuses a number beyond the greatest payload. Whether such a number still fits a machine word
makes no difference, and no text has a literal that is no number.
-/

namespace ScriptMachine.Compile

open Source Bytecode Scoping

/-! ## Numerals -/

/-- A digit with digits and underscores after it. -/
def IsNumeralText (text : List Char) : Prop :=
  ∃ c run, text = c :: run ∧ isDigit c = true ∧ ∀ d ∈ run, isNumberPart d = true

/-- The number that a digit stands for. -/
def digitValue (c : Char) : Nat :=
  c.toNat - '0'.toNat

/-- The number that a numeral denotes in decimal: its last digit counts ones, and its underscores count
nothing. -/
def decimalValue (text : List Char) : Nat :=
  Nat.ofDigits 10 ((text.filter isDigit).reverse.map digitValue)

/-- What a literal says: its numeral without the underscores. -/
def digitsOf (text : List Char) : String :=
  String.ofList (text.filter (· != '_'))

/-- The characters of a text that begin at a place are a numeral, and what follows them is no part of
it. -/
structure NumeralAt (source : String) (p : Position) (text : List Char) : Prop where
  numeral : IsNumeralText text
  place : ∃ before after, source.toList = before ++ (text ++ after) ∧
    p = placeAfter before ∧ ∀ d ∈ after.head?, isNumberPart d = false

variable {text : List Char} {digits source : String} {p : Position} {names : Names}

theorem spells_integer_iff :
    Spells text (.integer digits) ↔ IsNumeralText text ∧ digits = digitsOf text := by
  constructor
  · intro h
    generalize ht : Token.integer digits = t at h
    cases h with
    | @integer c run hc hrun =>
      cases ht
      exact ⟨⟨c, run, rfl, hc, hrun⟩, rfl⟩
    | text | ident | keyword | sign => cases ht
  · rintro ⟨⟨c, run, rfl, hc, hrun⟩, rfl⟩
    exact .integer hc hrun

/-- Left in a numeral without its underscores are its digits. -/
theorem filter_numeral (h : IsNumeralText text) :
    text.filter (· != '_') = text.filter isDigit := by
  obtain ⟨c, run, rfl, hc, hrun⟩ := h
  have hpart : ∀ d ∈ c :: run, isNumberPart d = true := by
    rintro d (_ | ⟨_, hd⟩)
    · simp [isNumberPart, hc]
    · exact hrun d hd
  refine List.filter_congr fun d hd => ?_
  by_cases hunderscore : d = '_'
  · subst hunderscore
    rfl
  · have hdigit : isDigit d = true := by
      simpa [isNumberPart, hunderscore] using hpart d hd
    rw [hdigit, bne_iff_ne]
    exact hunderscore

/-- Digits are read from the first to the last, each of which makes the number before it tenfold. -/
theorem ofDigits_eq (s : List Char) :
    Text.ofDigits s = Nat.ofDigits 10 (s.reverse.map digitValue) := by
  induction s using List.reverseRecOn with
  | nil => rfl
  | append_singleton s c ih =>
    have hlast : Text.ofDigits (s ++ [c]) = 10 * Text.ofDigits s + digitValue c := by
      simp [Text.ofDigits, digitValue]
    rw [hlast, ih, List.reverse_append, List.reverse_singleton, List.singleton_append,
      List.map_cons, Nat.ofDigits_cons]
    exact Nat.add_comm _ _

/-- The digits of a numeral denote what it denotes. -/
theorem ofDigits_numeral (h : IsNumeralText text) :
    Text.ofDigits (digitsOf text).toList = decimalValue text := by
  rw [digitsOf, String.toList_ofList, ofDigits_eq, filter_numeral h]
  rfl

/-- Underscores and zeros in front make no difference. -/
example : decimalValue ['0', '0', '_', '7', '_', '_', '1', '_'] = 71 := by
  decide

theorem areDigits_numeral (h : IsNumeralText text) :
    Text.areDigits (digitsOf text).toList = true := by
  obtain ⟨c, run, rfl, hc, hrun⟩ := h
  rw [digitsOf, String.toList_ofList]
  exact areDigits_filter hc hrun

/-! ## Numerals of a text -/

/-- An integer of a text is what the lexer made of a numeral there. -/
theorem numeralAt_of_mem {stream : TokenStream} (hlex : lex source = .ok stream)
    (h : (⟨.integer digits, p⟩ : Lexeme) ∈ stream.lexemes) :
    ∃ text, NumeralAt source p text ∧ digits = digitsOf text := by
  obtain ⟨earlier, later, hls⟩ := List.append_of_mem h
  have hmade := lex_eq_ok_iff.1 hlex
  rw [hls] at hmade
  obtain ⟨before, text, rest, hstands⟩ := hmade.cut
  obtain ⟨hnumeral, hdigits⟩ := spells_integer_iff.1 hstands.spells
  have hplace := hstands.made.stop_eq.trans (start_after before)
  refine ⟨text, ⟨hnumeral, before, rest, hstands.text_eq, hplace, fun d hd => ?_⟩, hdigits⟩
  obtain ⟨c, run, rfl, hc, hrun⟩ := hnumeral
  obtain ⟨more, rfl⟩ := List.head?_eq_some_iff.1 hd
  -- one more part of the number would make a longer token
  refine Bool.eq_false_iff.2 fun hpart => ?_
  refine hstands.longest [d] _ (by simp) ⟨more, rfl⟩ (@Spells.integer c (run ++ [d]) hc ?_)
  simpa [or_imp, forall_and] using ⟨hrun, hpart⟩

/-- A numeral alone is a text with one integer. -/
theorem lex_numeral (h : IsNumeralText text) :
    lex (String.ofList text) =
      .ok ⟨[⟨.integer (digitsOf text), .start⟩], Position.start.after text⟩ := by
  refine lex_eq_ok_iff.2 ?_
  have hspells := spells_integer_iff.2 ⟨h, rfl⟩
  obtain ⟨c, run, rfl, hc, -⟩ := h
  have hno : ¬BeginsComment (c :: run ++ []) := by
    have hslash : '/' ≠ c := by
      rintro rfl
      exact absurd hc (by decide)
    simp [BeginsComment, hslash]
  have hlongest : Longest (c :: run) [] := fun more _ hmore hprefix =>
    absurd (List.prefix_nil.1 hprefix) hmore
  have hmade := MadeOf.token (p := .start) .nil hno hspells hlongest (.stop .nil)
  simpa [String.toList_ofList] using hmade

theorem parse_numeral (h : IsNumeralText text) :
    Fragment.parse (String.ofList text) = .ok [.expr (.number (digitsOf text) .start)] :=
  parse_expr (lex_numeral h) rfl rfl rfl

/-! ## The code of a literal -/

/-- A literal of these digits means a number: it loads the number as a constant, if that is no greater
than the greatest payload, and is refused otherwise. -/
structure Means (digits : String) (value : Nat) : Prop where
  loaded : value ≤ 2 ^ 59 - 1 → ∃ n : Int64, n.toInt = value ∧
    ∀ p target, compileInto (.number digits p) target = loadConstant (.int n) target
  refused : ¬value ≤ 2 ^ 59 - 1 →
    ∀ p target, compileInto (.number digits p) target = throw (.integerOutOfRange digits)

theorem compileInto_number (digits : String) (p : Position) (target : Nat) :
    compileInto (.number digits p) target =
      match literalValue digits with
      | .ok n => loadConstant (.int (Int64.ofInt n)) target
      | .error e => throw e := by
  rw [compileInto]
  cases literalValue digits <;> rfl

/-- A literal means what its numeral denotes. -/
theorem means_numeral (h : IsNumeralText text) : Means (digitsOf text) (decimalValue text) := by
  have hvalue := literalValue_digits (areDigits_numeral h)
  rw [ofDigits_numeral h, maxLiteral] at hvalue
  constructor
  · intro hle
    refine ⟨_, toInt_ofInt ((Value.fits_iff _).2 ⟨by omega, by omega⟩), fun p target => ?_⟩
    rw [compileInto_number, hvalue, if_pos (by omega)]
  · intro hlt p target
    rw [compileInto_number, hvalue, if_neg (by omega)]

/-- The first constant of a body is found at the start of its pool. -/
theorem loadConstant_first (k : Constant) (target : Nat) {b : Builder}
    (h : b.body.constants = #[]) : loadConstant k target b = .ok ((), { b with body :=
      { b.body with constants := #[k], code := b.body.code.push (.abx .loadConst target 0) } }) := by
  have hindex : b.body.constantIndex k = .ok (0, { b.body with constants := #[k] }) := by
    simp [Body.constantIndex, h]
  exact bind_eq_ok.2 ⟨0, _, takeFromBody_eq_ok.2 ⟨_, hindex, rfl⟩, rfl⟩

/-- The builder in which the first statement of a fragment is compiled. -/
def firstStatement (names : Names) : Builder :=
  ⟨names, ⟨"main", 0, [], 0, #[.abx .loadNil 0 0], #[], 1, 1⟩, none, #[], #[], []⟩

/-- A fragment that is an expression starts out nil, goes on with the expression and returns. -/
theorem compileMain_expr (names : Names) (e : Expr) :
    compileMain [.expr e] (.new names) =
      (compileInto e resultReg >>= fun _ => emitABC .ret resultReg 0 0) (firstStatement names) := by
  simp only [compileMain, compileStmts, compileStmt, bind_assoc, pure_bind]
  rfl

/-- A fragment that is just a constant has it in its pool and returns it. -/
theorem compileFragment_loadConstant {e : Expr} {k : Constant}
    (h : compileInto e resultReg = loadConstant k resultReg) (names : Names) :
    compileFragment names [.expr e] = .ok ⟨⟨#[], #[], ⟨"main", 0, 1, #[k],
      #[.abx .loadNil 0 0, .abx .loadConst 0 0, .abc .ret 0 0 0]⟩⟩, [], true⟩ := by
  have hload := loadConstant_first k resultReg (b := firstStatement names) rfl
  have hmain := compileMain_expr names e
  rw [h, bind_eq_ok.2 ⟨(), _, hload, rfl⟩] at hmain
  rw [compileFragment, hmain]
  rfl

theorem compileFragment_throw {e : Expr} {err : CompileError}
    (h : compileInto e resultReg = throw err) (names : Names) :
    compileFragment names [.expr e] = .error err := by
  have hmain := compileMain_expr names e
  rw [h] at hmain
  rw [compileFragment, hmain]
  rfl

/-! ## Literals of a program -/

/-- A numeral alone is a program whose one constant is the number, or is refused. -/
theorem compile_numeral (h : IsNumeralText text) (names : Names) :
    (decimalValue text ≤ 2 ^ 59 - 1 → ∃ c n, compile names (String.ofList text) = .ok c ∧
      c.program.main.constants = #[.int n] ∧ n.toInt = decimalValue text) ∧
    (¬decimalValue text ≤ 2 ^ 59 - 1 →
      compile names (String.ofList text) = .error (.integerOutOfRange (digitsOf text))) := by
  have hmeans := means_numeral h
  rw [compile, parse_numeral h]
  refine ⟨fun hle => ?_, fun hlt => ?_⟩
  · obtain ⟨n, hn, hinto⟩ := hmeans.loaded hle
    exact ⟨_, n, compileFragment_loadConstant (hinto _ _) names, rfl, hn⟩
  · exact compileFragment_throw (hmeans.refused hlt _ _) names

/-- A literal of a program that is parsed is the lexer's reading of a numeral. -/
theorem numeralAt_of_site {f : Fragment} (hf : Fragment.parse source = .ok f) {s : Site}
    (hs : s ∈ fragmentSites names f) (huse : s.use = .literal digits) :
    ∃ text, NumeralAt source s.pos text ∧ digits = digitsOf text := by
  obtain ⟨stream, hlex, hsub⟩ := lexemes_of_parse hf
  have hmem := (hsub (.start names)).subset (List.mem_map_of_mem hs)
  rw [Site.lexeme, huse] at hmem
  exact numeralAt_of_mem hlex hmem

/-- The literals of a program that is parsed are made of digits. -/
theorem numeral_fragmentSites {f : Fragment} (hf : Fragment.parse source = .ok f) (names : Names) :
    Numeral (fragmentSites names f) := by
  intro s hs digits huse
  obtain ⟨text, htext, rfl⟩ := numeralAt_of_site hf hs huse
  exact areDigits_numeral htext.numeral

/-- A program that is compiled has no literal beyond the greatest payload. -/
theorem le_of_compile_ok {f : Fragment} (hf : Fragment.parse source = .ok f) {c : Compiled}
    (hc : compile names source = .ok c) {s : Site} (hs : s ∈ fragmentSites names f)
    (huse : s.use = .literal (digitsOf text)) (htext : IsNumeralText text) :
    decimalValue text ≤ 2 ^ 59 - 1 := by
  rw [compile, hf] at hc
  have hallowed := (compileFragment_checks names (numeral_fragmentSites hf names)).1 c hc s hs
  simp only [Site.Allowed, huse, ofDigits_numeral htext, maxLiteral] at hallowed
  omega

/-- What a program is refused for, unless it is a limit of the instruction format, is a site of its
text. -/
theorem firstOffence_of_compile {e : CompileError} (he : compile names source = .error e)
    (hlimit : ¬IsLimit e) (hsource : ∀ e', e ≠ .source e') :
    ∃ f, Fragment.parse source = .ok f ∧ ∃ s ∈ fragmentSites names f, s.Offends e := by
  rw [compile] at he
  cases hf : Fragment.parse source with
  | error e' =>
    rw [hf] at he
    cases he
    exact absurd rfl (hsource e')
  | ok f =>
    rw [hf] at he
    obtain ⟨before, s, after, hsites, -, hoffends⟩ :=
      ((compileFragment_checks names (numeral_fragmentSites hf names)).2 e he).resolve_left hlimit
    refine ⟨f, rfl, s, ?_, hoffends⟩
    rw [fragmentSites, hsites]
    simp

/-- No program is refused for a literal that is no number. -/
theorem compile_ne_invalidNumber (names : Names) (source lexeme : String) :
    compile names source ≠ .error (.invalidNumber lexeme) := by
  intro h
  have hlimit : ¬IsLimit (.invalidNumber lexeme) := id
  obtain ⟨f, -, s, -, hoffends⟩ := firstOffence_of_compile h hlimit fun _ he => by cases he
  cases hoffends

/-- A program that is refused for a literal has a numeral beyond the greatest payload. -/
theorem lt_of_compile_outOfRange (h : compile names source = .error (.integerOutOfRange digits)) :
    ∃ p text, NumeralAt source p text ∧ digits = digitsOf text ∧
      ¬decimalValue text ≤ 2 ^ 59 - 1 := by
  have hlimit : ¬IsLimit (.integerOutOfRange digits) := id
  obtain ⟨f, hf, s, hs, hoffends⟩ := firstOffence_of_compile h hlimit fun _ he => by cases he
  cases hoffends with
  | @tooLarge around digits p hlarge =>
    obtain ⟨text, htext, rfl⟩ := numeralAt_of_site hf hs rfl
    rw [ofDigits_numeral htext.numeral, maxLiteral] at hlarge
    exact ⟨p, text, htext, rfl, by omega⟩

/-- Integer literals mean their decimal value or are refused. An integer token of a text is a numeral
that stands at its place, and a literal of it means the number that the numeral denotes, however many
digits, underscores or zeros in front it has. Every numeral is such a token, and alone it is a program
with the number for its one constant. No text is refused for a literal that is no number; one that is
refused for its range has a numeral beyond the range, and a program that is compiled has none among its
literals. -/
theorem integer_literals_exact (names : Names) (source : String) :
    (∀ stream digits p, lex source = .ok stream →
      (⟨.integer digits, p⟩ : Lexeme) ∈ stream.lexemes →
      ∃ text, NumeralAt source p text ∧ Means digits (decimalValue text)) ∧
    (∀ text, IsNumeralText text →
      lex (String.ofList text) =
        .ok ⟨[⟨.integer (digitsOf text), .start⟩], Position.start.after text⟩ ∧
      (decimalValue text ≤ 2 ^ 59 - 1 → ∃ c n, compile names (String.ofList text) = .ok c ∧
        c.program.main.constants = #[.int n] ∧ n.toInt = decimalValue text) ∧
      (¬decimalValue text ≤ 2 ^ 59 - 1 →
        compile names (String.ofList text) = .error (.integerOutOfRange (digitsOf text)))) ∧
    (∀ lexeme, compile names source ≠ .error (.invalidNumber lexeme)) ∧
    (∀ digits, compile names source = .error (.integerOutOfRange digits) →
      ∃ p text, NumeralAt source p text ∧ digits = digitsOf text ∧
        ¬decimalValue text ≤ 2 ^ 59 - 1) ∧
    ∀ f, Fragment.parse source = .ok f →
      ∀ s ∈ fragmentSites names f, ∀ digits, s.use = .literal digits →
        ∃ text, NumeralAt source s.pos text ∧ Means digits (decimalValue text) ∧
          ∀ c, compile names source = .ok c → decimalValue text ≤ 2 ^ 59 - 1 := by
  refine ⟨fun stream digits p hlex hmem => ?_,
    fun text h => ⟨lex_numeral h, compile_numeral h names⟩,
    compile_ne_invalidNumber names source, fun digits h => lt_of_compile_outOfRange h,
    fun f hf s hs digits huse => ?_⟩
  · obtain ⟨text, htext, rfl⟩ := numeralAt_of_mem hlex hmem
    exact ⟨text, htext, means_numeral htext.numeral⟩
  · obtain ⟨text, htext, rfl⟩ := numeralAt_of_site hf hs huse
    exact ⟨text, htext, means_numeral htext.numeral,
      fun c hc => le_of_compile_ok hf hc hs huse htext.numeral⟩

end ScriptMachine.Compile
