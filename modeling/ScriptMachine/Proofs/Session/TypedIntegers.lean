import ScriptMachine.Proofs.Compile.IntegerLiterals
import ScriptMachine.Proofs.Simulation.ConstantRuns
import ScriptMachine.Proofs.Source.Numerals

/-!
# Integers typed back

The text that an integer is displayed as can be typed into a session: as a fragment of its own and as
an operand in parentheses it stands for the integer. The least integer is the one exception. Its text
has a number that no literal may denote, since the sign before it is an operator.
-/

namespace ScriptMachine

open Source Bytecode Compile Evaluation Simulation Link

namespace Session

variable {s : Session} {source : String} {e f : Expr} {n : Int}

/-- The outcome of a turn that reports a value or stops at a fault, and what the session goes on with.
Such a turn defines nothing and prints nothing. -/
inductive Reports (s : Session) : Except Fault Datum → TurnOutcome × Session → Prop
  | value {d : Datum} {v : Value} {t : Session} (hv : Shows t.image.heap v d)
    (hnames : t.names = s.names) (houtput : t.output = s.output) :
    Reports s (.ok d) (.evaluated [] (some (t.shown v)), t)
  | fault {e : Fault} {t : Session} (hnames : t.names = s.names) (houtput : t.output = s.output) :
    Reports s (.error e) (.faulted e, t)

theorem Reports.of_same {s' : Session} {result : Except Fault Datum} {r : TurnOutcome × Session}
    (h : s'.Reports result r) (hnames : s'.names = s.names) (houtput : s'.output = s.output) :
    s.Reports result r := by
  cases h with
  | value hv hn ho => exact .value hv (hn.trans hnames) (ho.trans houtput)
  | fault hn ho => exact .fault (hn.trans hnames) (ho.trans houtput)

/-- Running a source text comes to this value or fault. -/
def ComesTo (s : Session) (source : String) (result : Except Fault Datum) : Prop :=
  s.Reports result (s.runSource source.toList)

/-- The session has a handle for one more function. -/
def HasHandle (s : Session) : Prop :=
  s.image.heap.functions.size < handleCount

/-- A run may take this many steps. -/
def CanTake (s : Session) (steps : Nat) : Prop :=
  steps ≤ s.limits.fuel.getD s.limits.patience

theorem reports_of_settled (s : Session) {c : Compiled} (hdefinitions : c.definitions = [])
    (hyields : c.yieldsValue = true) {unit : LinkedUnit} {image : Image}
    {result : Except Fault Datum}
    (h : Settled unit image ⟨s.output, none⟩ s.limits.fuel s.limits.patience result) :
    s.Reports result (finish s (.ofCompiled c)
      (unit.run image ⟨s.output, none⟩ s.limits.fuel s.limits.patience)) := by
  cases result with
  | error e =>
    rw [show unit.run image _ _ _ = _ from h]
    exact .fault (t := { s with image := image }) rfl rfl
  | ok d =>
    obtain ⟨v, hv, hrun⟩ := h
    obtain ⟨table, -, -, hcommit⟩ :=
      commit_writes { s with image := image } (.ofCompiled c) v ∅
    have hempty : (∅ : Writes).toList = [] := List.eq_nil_of_length_eq_zero rfl
    rw [hempty] at hcommit
    have hfinish : finish s (.ofCompiled c) (.finished ⟨v, []⟩, image, ⟨s.output, none⟩) =
        (.evaluated [] (some (({ s with image := { image with globals := table } } : Session).shown
          v)), { s with image := { image with globals := table } }) := by
      refine hcommit.trans ?_
      simp only [FragmentUnit.ofCompiled, hdefinitions, hyields]
      rfl
    rw [hrun, hfinish]
    exact .value hv rfl rfl

/-- A text that is read as a constant expression comes to its value. -/
theorem comesTo_constant (h : s.Standard) (hhandle : s.HasHandle)
    (hparse : Fragment.parse source = .ok [.expr e]) (he : IsConstant e)
    (hsize : constantSize e + 2 ≤ maxWide) (hheight : constantHeight e ≤ 254)
    (hsteps : s.CanTake (constantSize e + 2)) : s.ComesTo source (constantValue e) := by
  obtain ⟨c, unit, image, hcompile, hdefinitions, hyields, hdecode, hbind, hsettled⟩ :=
    settled_constant h.order h.primitives hhandle he hsize hheight ⟨s.output, none⟩ hsteps
  obtain ⟨hverify, hplace⟩ := bind_eq_ok_iff.1 hbind
  have hread : (s.linker.read s.image.primitives.count c.bytes c.sizeHint).1 = .ok c.program := by
    unfold Linker.read
    rw [h.backend]
    simp only [Backend.bytecode, hdecode, hverify]
  obtain ⟨linker, hlinker⟩ : ∃ linker,
      s.linker.read s.image.primitives.count c.bytes c.sizeHint = (.ok c.program, linker) :=
    ⟨_, Prod.ext hread rfl⟩
  have hrun : s.runSource source.toList = finish { s with linker := linker } (.ofCompiled c)
      (unit.run image ⟨s.output, none⟩ s.limits.fuel s.limits.patience) := by
    have hu : s.compiler s.names (String.ofList source.toList) = .ok (.ofCompiled c) := by
      rw [h.compiler, String.ofList_toList, standardCompiler, compile, hparse]
      simp only [hcompile]
    have hunit := s.runUnit_eq (.ofCompiled c)
    simp only [FragmentUnit.ofCompiled, hlinker, hplace] at hunit
    simp only [runSource, hu]
    exact hunit
  unfold ComesTo
  rw [hrun]
  exact (reports_of_settled { s with linker := linker } hdefinitions hyields hsettled).of_same rfl rfl

/-! ## Numerals -/

/-- The integers whose text can be typed back: all but the least. -/
def CanBeTyped (n : Int) : Prop :=
  -(2 ^ 59 - 1) ≤ n ∧ n ≤ 2 ^ 59 - 1

theorem literalValue_numeral (h : CanBeTyped n) :
    literalValue (Nat.repr n.natAbs) = .ok (n.natAbs : Int) := by
  have hmax : n.natAbs ≤ Scoping.maxLiteral := by
    obtain ⟨hle, hlt⟩ := h
    unfold Scoping.maxLiteral
    omega
  rw [Scoping.literalValue_digits (areDigits_repr n.natAbs), ofDigits_repr, if_pos hmax]

/-- A numeral is a constant expression, and its value is the integer. -/
structure IsNumeral (n : Int) (e : Expr) : Prop where
  constant : IsConstant e
  value : constantValue e = .ok (.int n)
  size : constantSize e ≤ 2
  height : constantHeight e = 0

theorem isNumeral_numeral (h : CanBeTyped n) : IsNumeral n (numeral n) := by
  have hvalue := literalValue_numeral h
  unfold numeral
  split_ifs with hneg
  · refine ⟨⟨_, hvalue⟩, ?_, Nat.le_refl _, rfl⟩
    have hfits : Value.fits n = true := by
      rw [Value.fits_iff]
      obtain ⟨hle, hlt⟩ := h
      omega
    have habs : -(n.natAbs : Int) = n := by omega
    simp only [constantValue, hvalue, Except.bind, Evaluation.unary, Evaluation.exact, habs]
    rw [if_pos hfits]
  · refine ⟨⟨_, hvalue⟩, ?_, Nat.le_succ _, rfl⟩
    have habs : (n.natAbs : Int) = n := by omega
    simp only [constantValue, hvalue, habs]

theorem isNumeral_of_unplaced (h : CanBeTyped n) (he : e.unplaced = (numeral n).unplaced) :
    IsNumeral n e := by
  have hsame := sameConstant_of_unplaced he
  have hnumeral := isNumeral_numeral h
  exact ⟨hsame.constant.2 hnumeral.constant, hsame.value.trans hnumeral.value,
    Nat.le_trans (Nat.le_of_eq hsame.size) hnumeral.size, hsame.height.trans hnumeral.height⟩

/-- Wherever an expression stands, it stands for an integer: evaluation comes to it, and where its code
is laid out a run loads it into the target and leaves all else alone. -/
structure StandsFor (e : Expr) (n : Int) : Prop where
  evaluates : ∀ (call : Datum → List Datum → Eval Datum) (fuel : Nat) (names : Names) (st : Store),
    evalExpr call fuel names e st = .ok (.int n) st
  loads : ∀ (σ : Slots) (bound : Nat) (A : Activation) (C : Coding) (names : Names) (sc : Scope)
    (t i j : Nat) (m : Machine), σ.Distinct → sc.InOrder C → sc.Spare t → ExprAt C names e sc t i j →
    Poised A C i m → m.Allows 2 → Comes 2 m (.ok (.int n)) (Filled σ bound A C sc.top t j m)

theorem IsNumeral.standsFor (h : IsNumeral n e) : StandsFor e n where
  evaluates call fuel names st := by
    rw [evalExpr_constant _ _ _ e h.constant, h.value]
    rfl
  loads σ bound A C names sc t i j m hσ hsc ht he hm hfuel := by
    have hsize := h.size
    rw [← h.value]
    refine (comes_constant hσ e h.constant hsc ht he m hm fun limit hlimit => ?_).less hsize
    have := hfuel limit hlimit
    omega

/-- An operand that is a constant expression within the limits of the compiler. -/
structure ConstantOperand (e : Expr) : Prop where
  wellFormed : e.wellFormed = true
  constant : IsConstant e
  size : constantSize e + 5 ≤ maxWide
  height : constantHeight e ≤ 253

theorem constantOperand_numeral (h : CanBeTyped n) : ConstantOperand (numeral n) := by
  have hnumeral := isNumeral_numeral h
  have hsize := hnumeral.size
  have hheight := hnumeral.height
  refine ⟨numeral_wellFormed n, hnumeral.constant, ?_, by omega⟩
  unfold maxWide
  omega

/-! ## Operations -/

theorem comesTo_unaryText (h : s.Standard) (hhandle : s.HasHandle) (op : UnaryOp) {text : String}
    (htext : OperandText text e.tokens) (he : ConstantOperand e)
    (hsteps : s.CanTake (constantSize e + 3)) :
    s.ComesTo (unaryText op text) ((constantValue e).bind (Evaluation.unary op)) := by
  obtain ⟨e', p, hparse, hsame⟩ := parse_unaryText op he.wellFormed htext
  have hconstant := sameConstant_of_unplaced hsame
  have hsize := he.size
  have hheight := he.height
  have hvalue : constantValue (.unary op e' p) = (constantValue e).bind (Evaluation.unary op) := by
    rw [constantValue, hconstant.value]
  have hcount : constantSize (.unary op e' p) = constantSize e + 1 :=
    congrArg (· + 1) hconstant.size
  rw [← hvalue]
  refine comesTo_constant h hhandle hparse (hconstant.constant.2 he.constant) ?_ ?_ ?_
  · omega
  · have : constantHeight (.unary op e' p) = constantHeight e := hconstant.height
    omega
  · rw [hcount]
    exact hsteps

theorem comesTo_binaryText (h : s.Standard) (hhandle : s.HasHandle) (op : BinaryOp)
    {left right : String} (hleft : OperandText left e.tokens) (hright : OperandText right f.tokens)
    (he : ConstantOperand e) (hf : ConstantOperand f)
    (hsize : constantSize e + constantSize f + 3 ≤ maxWide)
    (hsteps : s.CanTake (constantSize e + constantSize f + 3)) :
    s.ComesTo (binaryText op left right)
      ((constantValue e).bind fun d => operate op d (constantValue f)) := by
  obtain ⟨e', f', p, hparse, hsame, hsame'⟩ :=
    parse_binaryText op he.wellFormed hf.wellFormed hleft hright
  have hl := sameConstant_of_unplaced hsame
  have hr := sameConstant_of_unplaced hsame'
  have hheight := he.height
  have hheight' := hf.height
  have hvalue : constantValue (.binary op e' f' p) =
      (constantValue e).bind fun d => operate op d (constantValue f) := by
    rw [constantValue, hl.value, hr.value]
  have hcount : constantSize (.binary op e' f' p) = constantSize e + constantSize f + 1 := by
    rw [constantSize, hl.size, hr.size]
  rw [← hvalue]
  refine comesTo_constant h hhandle hparse
    ⟨hl.constant.2 he.constant, hr.constant.2 hf.constant⟩ ?_ ?_ ?_
  · omega
  · rw [constantHeight, hl.height, hr.height]
    omega
  · rw [hcount]
    exact hsteps

/-! ## The least integer -/

/-- A literal out of range is refused before any code is made. -/
theorem compileFragment_of_literal {names : Names} {digits : String} {p q : Position} {op : UnaryOp}
    {error : CompileError} (h : literalValue digits = .error error) :
    compileFragment names [.expr (.unary op (.number digits p) q)] = .error error := by
  have hinto : compileInto (.unary op (.number digits p) q) resultReg = throw error := by
    simp only [compileInto, h]
    rfl
  exact compileFragment_throw hinto names

/-- The text of the least integer is refused for the number in it. -/
theorem compile_least (names : Names) : compile names (decimal (-2 ^ 59)) =
    .error (.integerOutOfRange "576460752303423488") := by
  obtain ⟨e, hparse, hsame⟩ := parse_decimal (-2 ^ 59)
  have hdigits : Nat.repr (-2 ^ 59 : Int).natAbs = "576460752303423488" := by decide +kernel
  have hnumeral : numeral (-2 ^ 59) = .unary .neg (.number "576460752303423488" .start) .start := by
    rw [numeral, if_pos (by decide), hdigits]
  have hliteral : literalValue "576460752303423488" =
      .error (.integerOutOfRange "576460752303423488") := by decide +kernel
  rw [hnumeral] at hsame
  cases e with
  | unary op operand q =>
    cases operand with
    | number digits p =>
      cases hsame
      simp only [compile, hparse]
      exact compileFragment_of_literal hliteral
    | _ => cases hsame
  | _ => cases hsame

/-! ## Typed back -/

/-- Integers can be typed back. An integer is displayed as its decimal text. In a session with a handle
and steps to spare this text comes to the integer, and in parentheses it is an operand that stands for
it, on either side of any operator and beside any other operand. The least integer is left out: its
text is refused. -/
theorem integers_typed_back (h : s.Standard) (hhandle : s.HasHandle) (hsteps : s.CanTake 7)
    (hn : CanBeTyped n) :
    (∀ l : Legend, l.display (.int n) = decimal n) ∧
    s.ComesTo (decimal n) (.ok (.int n)) ∧
    (∀ op, s.ComesTo (unaryText op (decimal n)) (Evaluation.unary op (.int n))) ∧
    (∀ op m, CanBeTyped m → s.ComesTo (binaryText op (decimal n) (decimal m))
      (operate op (.int n) (.ok (.int m)))) ∧
    (∀ op e, ConstantOperand e → s.CanTake (constantSize e + 5) →
      s.ComesTo (binaryText op (decimal n) e.padded) (operate op (.int n) (constantValue e)) ∧
      s.ComesTo (binaryText op e.padded (decimal n))
        ((constantValue e).bind fun d => operate op d (.ok (.int n)))) ∧
    (∀ (op : BinaryOp) (e : Expr), e.wellFormed = true →
      (∃ operand e' p, Fragment.parse (binaryText op (decimal n) e.padded) =
        .ok [.expr (.binary op operand e' p)] ∧ StandsFor operand n ∧ e'.unplaced = e.unplaced) ∧
      ∃ operand e' p, Fragment.parse (binaryText op e.padded (decimal n)) =
        .ok [.expr (.binary op e' operand p)] ∧ StandsFor operand n ∧ e'.unplaced = e.unplaced) ∧
    compile s.names (decimal (-2 ^ 59)) = .error (.integerOutOfRange "576460752303423488") := by
  have hnumeral := isNumeral_numeral hn
  have hsize := hnumeral.size
  have hoperand := constantOperand_numeral hn
  have htext := operandText_decimal n
  have hless : ∀ {k l : Nat}, s.CanTake l → k ≤ l → s.CanTake k := fun hl hk => Nat.le_trans hk hl
  refine ⟨fun l => ?_, ?_, fun op => ?_, fun op m hm => ?_, fun op e he hcan => ⟨?_, ?_⟩,
    fun op e he => ⟨?_, ?_⟩, compile_least s.names⟩
  · have hfits : Value.fits n = true := by
      rw [Value.fits_iff]
      obtain ⟨hle, hlt⟩ := hn
      omega
    simp [Legend.display, Legend.render, Value.asInt?_int hfits]
  · obtain ⟨e, hparse, hsame⟩ := parse_decimal n
    have he := isNumeral_of_unplaced hn hsame
    have hcount := he.size
    have hheight := he.height
    rw [← he.value]
    refine comesTo_constant h hhandle hparse he.constant ?_ (by omega) (hless hsteps (by omega))
    unfold maxWide
    omega
  · have hunary := comesTo_unaryText h hhandle op htext hoperand (hless hsteps (by omega))
    rwa [hnumeral.value] at hunary
  · have hother := isNumeral_numeral hm
    have hcount := hother.size
    have hbinary := comesTo_binaryText h hhandle op htext (operandText_decimal m) hoperand
      (constantOperand_numeral hm) (by unfold maxWide; omega) (hless hsteps (by omega))
    rwa [hnumeral.value, hother.value] at hbinary
  · have hbinary := comesTo_binaryText h hhandle op htext (operandText_padded he.wellFormed) hoperand
      he (by have := he.size; omega) (hless hcan (by omega))
    rwa [hnumeral.value] at hbinary
  · have hbinary := comesTo_binaryText h hhandle op (operandText_padded he.wellFormed) htext he
      hoperand (by have := he.size; omega) (hless hcan (by omega))
    rwa [hnumeral.value] at hbinary
  · obtain ⟨operand, e', p, hparse, hsame, hsame'⟩ := parse_binaryText op
      (numeral_wellFormed n) he htext (operandText_padded he)
    exact ⟨operand, e', p, hparse, (isNumeral_of_unplaced hn hsame).standsFor, hsame'⟩
  · obtain ⟨e', operand, p, hparse, hsame', hsame⟩ := parse_binaryText op he
      (numeral_wellFormed n) (operandText_padded he) htext
    exact ⟨operand, e', p, hparse, (isNumeral_of_unplaced hn hsame).standsFor, hsame'⟩

/-- A session that has run nothing, without files. -/
def typingSession : Session :=
  .new standardCompiler (FileTree.empty []).toFiles ⟨none, 1000⟩

/-- The second integer from the bottom, alone, negated and less one. -/
theorem integers_typed_back_low :
    typingSession.Standard ∧ typingSession.HasHandle ∧ typingSession.CanTake 7 ∧
      CanBeTyped (-576460752303423487) ∧
      typingSession.ComesTo (decimal (-576460752303423487)) (.ok (.int (-576460752303423487))) ∧
      typingSession.ComesTo (unaryText .neg (decimal (-576460752303423487)))
        (.ok (.int 576460752303423487)) ∧
      typingSession.ComesTo (binaryText .sub (decimal (-576460752303423487)) (decimal 1))
        (.ok (.int (-576460752303423488))) := by
  have hstandard : typingSession.Standard := standard_new _ _
  have hhandle : typingSession.HasHandle := by
    unfold HasHandle
    decide
  have hsteps : typingSession.CanTake 7 := by
    unfold CanTake
    decide
  have hn : CanBeTyped (-576460752303423487) := by
    unfold CanBeTyped
    decide
  obtain ⟨-, halone, hunary, hbinary, -⟩ := integers_typed_back hstandard hhandle hsteps hn
  exact ⟨hstandard, hhandle, hsteps, hn, halone, hunary .neg, hbinary .sub 1 ⟨by decide, by decide⟩⟩

/-- The text of the least integer cannot be typed back. -/
theorem least_not_typed_back :
    Value.fits (-576460752303423488) = true ∧
      Legend.display typingSession.image.legend (.int (-576460752303423488)) =
        "-576460752303423488" ∧
      ¬ typingSession.ComesTo "-576460752303423488" (.ok (.int (-576460752303423488))) := by
  refine ⟨by decide, by decide +kernel, fun hcomes => ?_⟩
  have hdecimal : decimal (-2 ^ 59) = "-576460752303423488" := by decide +kernel
  have hcompile := compile_least typingSession.names
  rw [hdecimal] at hcompile
  have hrun := hcomes
  unfold ComesTo runSource at hrun
  rw [String.ofList_toList, show typingSession.compiler = standardCompiler from rfl, standardCompiler,
    hcompile] at hrun
  cases hrun

end Session
end ScriptMachine
