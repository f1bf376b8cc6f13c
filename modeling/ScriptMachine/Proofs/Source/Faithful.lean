import ScriptMachine.Proofs.Source.Wording

/-!
# The parser keeps to its tokens

Whatever the parser accepts, it reads from just the tokens that it takes. The loop over operators is
entered with a left operand; what carries the proof is that nothing ahead would have been drawn into
that operand, so that it fits the operator that follows.
-/

namespace ScriptMachine.Source

/-! ## Tokens taken -/

namespace Ahead

variable {t : Token} {ts us : List Token} {ls m r : List Lexeme}

theorem append (h : Ahead ts ls m) (h' : Ahead us m r) : Ahead (ts ++ us) ls r := by
  induction h with
  | nil => exact h'
  | cons p _ ih => exact .cons p (ih h')

/-- Lexemes that are all taken have just these tokens. -/
theorem map_eq (h : Ahead ts ls []) : ls.map Lexeme.token = ts := by
  generalize hr : ([] : List Lexeme) = r at h
  induction h with
  | nil => rw [← hr]; rfl
  | cons p _ ih => rw [List.map_cons, ih hr]

theorem one (p : Position) : Ahead [t] (⟨t, p⟩ :: r) r :=
  .cons p .nil

/-- One more token at the end. -/
theorem snoc {p : Position} (h : Ahead ts ls (⟨t, p⟩ :: r)) : Ahead (ts ++ [t]) ls r :=
  h.append (.one p)

end Ahead

theorem ahead_of_readSign {g : Sign} {p : Position} {ls r : List Lexeme}
    (h : readSign g ls = .ok (p, r)) : Ahead [.sign g] ls r := by
  unfold readSign at h
  split at h
  · next g' q r' =>
    split_ifs at h with hg
    · cases h
      exact hg ▸ .one p
    · cases h
  · cases h

theorem ahead_of_readIdent {name : String} {ls r : List Lexeme}
    (h : readIdent ls = .ok (name, r)) : Ahead [.ident name] ls r := by
  unfold readIdent at h
  split at h
  · next name' q r' =>
    cases h
    exact .one q
  · cases h

theorem ahead_of_nextSign? {g : Sign} {ls : List Lexeme} (h : nextSign? ls = some g) :
    Ahead [.sign g] ls ls.tail := by
  unfold nextSign? at h
  split at h
  · next g' q r =>
    cases h
    exact .one q
  · cases h

/-- An operator ahead is the token of its sign. -/
theorem ahead_of_nextOperator? {op : BinaryOp} {ls : List Lexeme}
    (h : nextOperator? ls = some op) : Ahead [.sign op.sign] ls ls.tail := by
  obtain ⟨g, hg, hop⟩ := Option.bind_eq_some_iff.1 h
  have hsign : g = op.sign := by
    revert hop
    cases g <;> simp only [BinaryOp.ofSign?, Option.some.injEq, reduceCtorEq, false_implies] <;>
      rintro rfl <;> rfl
  exact hsign ▸ ahead_of_nextSign? hg

theorem UnaryOp.eq_sign_of_ofSign? {g : Sign} {op : UnaryOp} (h : UnaryOp.ofSign? g = some op) :
    g = op.sign := by
  revert h
  cases g <;> simp only [UnaryOp.ofSign?, Option.some.injEq, reduceCtorEq, false_implies] <;>
    rintro rfl <;> rfl

/-- A semicolon is taken or left out. -/
theorem skipSign_cases (g : Sign) (ls : List Lexeme) :
    skipSign g ls = ls ∨ Ahead [.sign g] ls (skipSign g ls) := by
  unfold skipSign
  split
  · next g' q r =>
    split_ifs with hg
    · exact .inr (hg ▸ .one q)
    · exact .inl rfl
  · exact .inl rfl

theorem paramsFrom_of_readParams {done params : List String} {ls r : List Lexeme}
    (h : readParams done ls = .ok (params, r)) : ∃ new ts, params = done.reverse ++ new ∧
      ParamsFrom new ts ∧ Ahead (ts ++ [.sign .rparen]) ls r := by
  fun_induction readParams done ls with
  | case1 done p r' =>
    cases h
    exact ⟨[], [], by simp, .nil, .one p⟩
  | case2 done name p q r' ih =>
    obtain ⟨new, ts, rfl, hnew, hts⟩ := ih h
    exact ⟨name :: new, _, by simp, .cons hnew, .cons p (.cons q hts)⟩
  | case3 => cases h
  | case4 done name p r' _ q r'' hsign =>
    cases h
    exact ⟨[name], _, by simp, .one, .cons p (ahead_of_readSign hsign)⟩
  | case5 => cases h

/-! ## Operands in front of what follows -/

/-- Nothing that follows would have been drawn into the operand: after an operation there is no call,
and after a binary operation no tighter operator, nor one comparison after another. -/
structure Expr.EndsBefore (e : Expr) (r : List Lexeme) : Prop where
  noCall : e.isOperation = true → nextSign? r ≠ some .lparen
  weaker : ∀ op ∈ e.operator?, ∀ next ∈ nextOperator? r,
    next.strength ≤ op.strength ∧ (op.isComparison && next.isComparison) = false

/-- Neither a call nor an operator that binds tighter than `min` follows. -/
structure Ended (min : Nat) (r : List Lexeme) : Prop where
  noCall : nextSign? r ≠ some .lparen
  noTighter : tighterOperator? min r = none

theorem operator?_eq_none {e : Expr} (h : e.isOperation = false) : e.operator? = none := by
  cases e <;> first | rfl | cases h

/-- What is no operation takes all that follows as it comes. -/
theorem Expr.endsBefore_of_atom {e : Expr} (h : e.isOperation = false) (r : List Lexeme) :
    e.EndsBefore r where
  noCall hop := absurd (h.symm.trans hop) Bool.false_ne_true
  weaker op hop := by
    rw [operator?_eq_none h] at hop
    cases hop

theorem Expr.above_of_atom {e : Expr} (h : e.operator? = none) (min : Nat) : e.Above min := by
  intro op hop
  rw [h] at hop
  cases hop

/-- An operand fits on the left of the operator that follows it. -/
theorem Expr.EndsBefore.groupsLeft {e : Expr} {r : List Lexeme} {op : BinaryOp}
    (h : e.EndsBefore r) (hop : nextOperator? r = some op) : op.groupsLeft e = false := by
  unfold BinaryOp.groupsLeft
  cases he : e.operator? with
  | none => rfl
  | some inner =>
    obtain ⟨hle, hchain⟩ := h.weaker inner he op hop
    simpa [hchain] using hle

theorem Expr.Above.groupsRight {e : Expr} {op : BinaryOp} (h : e.Above op.strength) :
    op.groupsRight e = false := by
  unfold BinaryOp.groupsRight
  cases he : e.operator? with
  | none => rfl
  | some inner => simpa using h inner he

/-- No binary operator binds tighter than a unary one. -/
theorem operator?_of_above {e : Expr} (h : e.Above UnaryOp.strength) : e.operator? = none := by
  cases he : e.operator? with
  | none => rfl
  | some op => exact absurd (h op he) (Nat.not_lt.2 (Nat.le_of_lt op.strength_lt))

theorem Ended.strength_le {min : Nat} {r : List Lexeme} (h : Ended min r) {next : BinaryOp}
    (hnext : nextOperator? r = some next) : next.strength ≤ min := by
  have hnone := h.noTighter
  unfold tighterOperator? at hnone
  rw [hnext] at hnone
  simpa using hnone

/-! ## Readers -/

/-- What an expression is read from, when its operators are to bind tighter than `min`. -/
def ReadsExpr (min : Nat) (e : Expr) (ls r : List Lexeme) : Prop :=
  ∃ grouped ts, Ahead ts ls r ∧ ExprFrom grouped e ts ∧ (grouped = false → e.Above min)

/-- What the loop over operators adds to its left operand. -/
def ReadsOn (min : Nat) (lhs e : Expr) (ls r : List Lexeme) : Prop :=
  ∀ grouped ts, ExprFrom grouped lhs ts → (grouped = false → lhs.EndsBefore ls ∧ lhs.Above min) →
    ∃ grouped' us, Ahead us ls r ∧ ExprFrom grouped' e (ts ++ us) ∧
      (grouped' = false → e.Above min)

/-- All readers of this depth keep to the tokens that they take. -/
structure Faithful (n : Nat) : Prop where
  expr : ∀ {min e ls r}, readExpr n min ls = .ok (e, r) → ReadsExpr min e ls r ∧ Ended min r
  operators : ∀ {min lhs e ls r}, readOperators n min lhs ls = .ok (e, r) →
    ReadsOn min lhs e ls r ∧ Ended min r
  operand : ∀ {e ls r}, readOperand n ls = .ok (e, r) → ∃ grouped ts, Ahead ts ls r ∧
    ExprFrom grouped e ts ∧ (grouped = false → e.EndsBefore r ∧ e.operator? = none)
  atom : ∀ {e ls r}, readAtom n ls = .ok (e, r) → ∃ grouped ts, Ahead ts ls r ∧
    ExprFrom grouped e ts ∧ (grouped = false → e.isOperation = false)
  args : ∀ {done args ls r}, readArgs n done ls = .ok (args, r) → ∃ new ts,
    args = done.reverse ++ new ∧ ArgsFrom new ts ∧ Ahead (ts ++ [.sign .rparen]) ls r
  cond : ∀ {test body otherwise ls r}, readCond n ls = .ok ((test, body, otherwise), r) →
    ∃ grouped ts bs os, ExprFrom grouped test ts ∧ BlockFrom body bs ∧ ElseFrom otherwise os ∧
      Ahead (ts ++ (bs ++ os)) ls r
  block : ∀ {body ls r}, readBlock n ls = .ok (body, r) → ∃ ts, BlockFrom body ts ∧ Ahead ts ls r
  stmts : ∀ {inBlock done stmts ls r}, readStmts n inBlock done ls = .ok (stmts, r) →
    ∃ new ts, stmts = done.reverse ++ new ∧ StmtsFrom new ts ∧ Ahead ts ls r ∧
      (r.isEmpty || (inBlock && nextSign? r == some .rbrace)) = true
  stmt : ∀ {s ls r}, readStmt n ls = .ok (s, r) → ∃ ts, StmtFrom s ts ∧ Ahead ts ls r
  binding : ∀ {mutable p s ls r}, readBinding n mutable p ls = .ok (s, r) →
    ∃ ts, StmtFrom s (.keyword (if mutable then .kwMut else .kwLet) :: ts) ∧ Ahead ts ls r

/-- Without depth nothing is read. -/
theorem faithful_zero : Faithful 0 := by
  constructor <;> intros <;> rename_i h <;>
    simp only [readExpr, readOperators, readOperand, readAtom, readArgs, readCond, readBlock,
      readStmts, readStmt, readBinding, refuse, reduceCtorEq] at h

namespace Faithful

variable {n : Nat} (h : Faithful n)

include h

/-! ### Expressions -/

theorem readExpr {min : Nat} {e : Expr} {ls r : List Lexeme}
    (he : Source.readExpr (n + 1) min ls = .ok (e, r)) : ReadsExpr min e ls r ∧ Ended min r := by
  unfold Source.readExpr at he
  cases ho : readOperand n ls with
  | error => rw [ho] at he; cases he
  | ok x =>
    obtain ⟨lhs, m⟩ := x
    rw [ho] at he
    obtain ⟨grouped, ts, hts, hlhs, hfits⟩ := h.operand ho
    obtain ⟨hon, hended⟩ := h.operators he
    obtain ⟨grouped', us, hus, hfrom, habove⟩ := hon grouped ts hlhs fun hg =>
      ⟨(hfits hg).1, Expr.above_of_atom (hfits hg).2 min⟩
    exact ⟨⟨grouped', ts ++ us, hts.append hus, hfrom, habove⟩, hended⟩

/-- A call is no operation, so all that follows it may be drawn into what comes next. -/
theorem readCall {min : Nat} {lhs e : Expr} {ls r : List Lexeme} {args : List Expr}
    {m : List Lexeme} (hsign : nextSign? ls = some .lparen)
    (hargs : readArgs n [] ls.tail = .ok (args, m))
    (hrest : Source.readOperators n min (.call lhs args lhs.pos) m = .ok (e, r)) :
    ReadsOn min lhs e ls r ∧ Ended min r := by
  obtain ⟨hon, hended⟩ := h.operators hrest
  refine ⟨fun grouped ts hlhs hfits => ?_, hended⟩
  obtain ⟨new, as, rfl, has, hahead⟩ := h.args hargs
  have hcallee : grouped = false → lhs.isOperation = false := fun hg =>
    Bool.eq_false_iff.2 fun hop => (hfits hg).1.noCall hop hsign
  obtain ⟨grouped', us, hus, hfrom, habove⟩ := hon false _ (.call hlhs hcallee has) fun _ =>
    ⟨Expr.endsBefore_of_atom rfl _, Expr.above_of_atom rfl _⟩
  refine ⟨grouped', .sign .lparen :: (as ++ [.sign .rparen]) ++ us, ?_, ?_, habove⟩
  · exact ((ahead_of_nextSign? hsign).append hahead).append hus
  · simpa using hfrom

/-- An operation ends before what its right operand has ended before. -/
theorem readBinary {min : Nat} {lhs rhs e : Expr} {op : BinaryOp} {ls m r : List Lexeme}
    (hop : tighterOperator? min ls = some op)
    (hrhs : Source.readExpr n op.strength ls.tail = .ok (rhs, m))
    (hchain : (op.isComparison && (nextOperator? m).any BinaryOp.isComparison) = false)
    (hrest : Source.readOperators n min (.binary op lhs rhs lhs.pos) m = .ok (e, r)) :
    ReadsOn min lhs e ls r ∧ Ended min r := by
  obtain ⟨hnext, hmin⟩ := Option.filter_eq_some_iff.1 hop
  obtain ⟨hon, hended⟩ := h.operators hrest
  refine ⟨fun grouped ts hlhs hfits => ?_, hended⟩
  obtain ⟨⟨right, rs, hrs, hright, habove⟩, hend⟩ := h.expr hrhs
  have hbefore : (Expr.binary op lhs rhs lhs.pos).EndsBefore m := by
    refine ⟨fun _ => hend.noCall, fun op' hop' next hnext' => ?_⟩
    cases hop'
    refine ⟨hend.strength_le hnext', ?_⟩
    rw [Option.mem_def.1 hnext'] at hchain
    exact hchain
  obtain ⟨grouped', us, hus, hfrom, habove'⟩ := hon false _
    (.binary hlhs (fun hg => (hfits hg).1.groupsLeft hnext) hright fun hg =>
      (habove hg).groupsRight) fun _ =>
    ⟨hbefore, fun op' hop' => by cases hop'; exact of_decide_eq_true hmin⟩
  refine ⟨grouped', .sign op.sign :: rs ++ us, ?_, ?_, habove'⟩
  · exact ((ahead_of_nextOperator? hnext).append hrs).append hus
  · simpa using hfrom

theorem readOperators {min : Nat} {lhs e : Expr} {ls r : List Lexeme}
    (he : Source.readOperators (n + 1) min lhs ls = .ok (e, r)) :
    ReadsOn min lhs e ls r ∧ Ended min r := by
  unfold Source.readOperators at he
  split at he
  · next hsign =>
    cases hargs : readArgs n [] ls.tail with
    | error => rw [hargs] at he; cases he
    | ok x =>
      rw [hargs] at he
      exact h.readCall hsign hargs he
  · next hsign =>
    split at he
    · next hop =>
      cases he
      refine ⟨fun grouped ts hlhs hfits => ?_, hsign, hop⟩
      exact ⟨grouped, [], .nil, by rwa [List.append_nil], fun hg => (hfits hg).2⟩
    · next op hop =>
      cases hrhs : Source.readExpr n op.strength ls.tail with
      | error => rw [hrhs] at he; cases he
      | ok x =>
        obtain ⟨rhs, m⟩ := x
        rw [hrhs] at he
        dsimp only at he
        by_cases hchain : (op.isComparison && (nextOperator? m).any BinaryOp.isComparison) = true
        · rw [hchain] at he
          cases m with
          | nil => simp [nextOperator?, nextSign?] at hchain
          | cons found m => cases he
        · have hfalse := Bool.eq_false_iff.2 hchain
          rw [hfalse] at he
          exact h.readBinary hop hrhs hfalse he

theorem readOperand {e : Expr} {ls r : List Lexeme}
    (he : Source.readOperand (n + 1) ls = .ok (e, r)) : ∃ grouped ts, Ahead ts ls r ∧
      ExprFrom grouped e ts ∧ (grouped = false → e.EndsBefore r ∧ e.operator? = none) := by
  have hatom : Source.readAtom n ls = .ok (e, r) → ∃ grouped ts, Ahead ts ls r ∧
      ExprFrom grouped e ts ∧ (grouped = false → e.EndsBefore r ∧ e.operator? = none) := by
    intro ha
    obtain ⟨grouped, ts, hts, hfrom, hfits⟩ := h.atom ha
    exact ⟨grouped, ts, hts, hfrom, fun hg =>
      ⟨Expr.endsBefore_of_atom (hfits hg) r, operator?_eq_none (hfits hg)⟩⟩
  unfold Source.readOperand at he
  split at he
  · next g p l =>
    split at he
    · next op hop =>
      obtain rfl : g = op.sign := UnaryOp.eq_sign_of_ofSign? hop
      cases ho : Source.readExpr n UnaryOp.strength l with
      | error => rw [ho] at he; cases he
      | ok x =>
        obtain ⟨operand, m⟩ := x
        rw [ho] at he
        cases he
        obtain ⟨⟨grouped, ts, hts, hfrom, habove⟩, hend⟩ := h.expr ho
        refine ⟨false, _, .cons p hts, .unary hfrom fun hg => operator?_of_above (habove hg),
          fun _ => ⟨⟨fun _ => hend.noCall, fun op' hop' => ?_⟩, rfl⟩⟩
        cases hop'
    · exact hatom he
  · exact hatom he

theorem readAtom {e : Expr} {ls r : List Lexeme}
    (he : Source.readAtom (n + 1) ls = .ok (e, r)) : ∃ grouped ts, Ahead ts ls r ∧
      ExprFrom grouped e ts ∧ (grouped = false → e.isOperation = false) := by
  unfold Source.readAtom at he
  split at he
  · next digits p l => cases he; exact ⟨false, _, .one p, .number, fun _ => rfl⟩
  · next raw p l => cases he; exact ⟨false, _, .one p, .text, fun _ => rfl⟩
  · next name p l => cases he; exact ⟨false, _, .one p, .name, fun _ => rfl⟩
  · next p l => cases he; exact ⟨false, _, .one p, .bool, fun _ => rfl⟩
  · next p l => cases he; exact ⟨false, _, .one p, .bool, fun _ => rfl⟩
  · next p l => cases he; exact ⟨false, _, .one p, .nil, fun _ => rfl⟩
  · next p l =>
    cases hc : readCond n l with
    | error => rw [hc] at he; cases he
    | ok x =>
      obtain ⟨⟨test, body, otherwise⟩, m⟩ := x
      rw [hc] at he
      cases he
      obtain ⟨grouped, ts, bs, os, ht, hb, ho, hahead⟩ := h.cond hc
      exact ⟨false, _, .cons p hahead, .cond ht hb ho, fun _ => rfl⟩
  · cases hb : readBlock n _ with
    | error => rw [hb] at he; cases he
    | ok x =>
      rw [hb] at he
      cases he
      obtain ⟨ts, hfrom, hahead⟩ := h.block hb
      exact ⟨false, ts, hahead, .block hfrom, fun _ => rfl⟩
  · next p l =>
    cases hi : Source.readExpr n 0 l with
    | error => rw [hi] at he; cases he
    | ok x =>
      obtain ⟨inner, m⟩ := x
      rw [hi] at he
      dsimp only at he
      cases hs : readSign .rparen m with
      | error => rw [hs] at he; cases he
      | ok y =>
        obtain ⟨q, m'⟩ := y
        rw [hs] at he
        cases he
        obtain ⟨⟨grouped, ts, hts, hfrom, -⟩, -⟩ := h.expr hi
        exact ⟨true, _, .cons p (hts.append (ahead_of_readSign hs)), .group hfrom,
          fun hg => Bool.noConfusion hg⟩
  · cases he

theorem readArgs {done args : List Expr} {ls r : List Lexeme}
    (ha : Source.readArgs (n + 1) done ls = .ok (args, r)) : ∃ new ts,
      args = done.reverse ++ new ∧ ArgsFrom new ts ∧ Ahead (ts ++ [.sign .rparen]) ls r := by
  unfold Source.readArgs at ha
  split at ha
  · next hsign =>
    cases ha
    exact ⟨[], [], by simp, .nil, ahead_of_nextSign? hsign⟩
  · cases he : Source.readExpr n 0 ls with
    | error => rw [he] at ha; cases ha
    | ok x =>
      obtain ⟨arg, m⟩ := x
      rw [he] at ha
      dsimp only at ha
      obtain ⟨⟨grouped, ts, hts, hfrom, -⟩, -⟩ := h.expr he
      split at ha
      · next hsign =>
        obtain ⟨new, us, rfl, hnew, hus⟩ := h.args ha
        refine ⟨arg :: new, _, by simp, .cons hfrom hnew, ?_⟩
        simpa using hts.append ((ahead_of_nextSign? hsign).append hus)
      · cases hs : readSign .rparen m with
        | error => rw [hs] at ha; cases ha
        | ok y =>
          rw [hs] at ha
          cases ha
          exact ⟨[arg], ts, by simp, .one hfrom, hts.append (ahead_of_readSign hs)⟩

theorem readCond {test : Expr} {body : Block} {otherwise : Else} {ls r : List Lexeme}
    (hc : Source.readCond (n + 1) ls = .ok ((test, body, otherwise), r)) :
    ∃ grouped ts bs os, ExprFrom grouped test ts ∧ BlockFrom body bs ∧ ElseFrom otherwise os ∧
      Ahead (ts ++ (bs ++ os)) ls r := by
  unfold Source.readCond at hc
  cases he : Source.readExpr n 0 ls with
  | error => rw [he] at hc; cases hc
  | ok x =>
    obtain ⟨test', l⟩ := x
    rw [he] at hc
    dsimp only at hc
    cases hb : readBlock n l with
    | error => rw [hb] at hc; cases hc
    | ok y =>
      obtain ⟨body', m⟩ := y
      rw [hb] at hc
      dsimp only at hc
      obtain ⟨⟨grouped, ts, hts, htest, -⟩, -⟩ := h.expr he
      obtain ⟨bs, hbody, hbs⟩ := h.block hb
      split at hc
      · next p q m' =>
        cases ho : Source.readCond n m' with
        | error => rw [ho] at hc; cases hc
        | ok z =>
          obtain ⟨⟨test₂, body₂, otherwise₂⟩, m₂⟩ := z
          rw [ho] at hc
          cases hc
          obtain ⟨grouped₂, ts₂, bs₂, os₂, ht₂, hb₂, ho₂, hahead⟩ := h.cond ho
          exact ⟨grouped, ts, bs, _, htest, hbody, .elseIf ht₂ hb₂ ho₂,
            hts.append (hbs.append (.cons p (.cons q hahead)))⟩
      · next p m' _ =>
        cases ho : readBlock n m' with
        | error => rw [ho] at hc; cases hc
        | ok z =>
          rw [ho] at hc
          cases hc
          obtain ⟨os, hother, hos⟩ := h.block ho
          exact ⟨grouped, ts, bs, _, htest, hbody, .block hother,
            hts.append (hbs.append (.cons p hos))⟩
      · cases hc
        exact ⟨grouped, ts, bs, [], htest, hbody, .absent, by simpa using hts.append hbs⟩

/-! ### Statements -/

theorem readBlock {body : Block} {ls r : List Lexeme}
    (hb : Source.readBlock (n + 1) ls = .ok (body, r)) :
    ∃ ts, BlockFrom body ts ∧ Ahead ts ls r := by
  unfold Source.readBlock at hb
  cases hl : readSign .lbrace ls with
  | error => rw [hl] at hb; cases hb
  | ok x =>
    obtain ⟨p, l⟩ := x
    rw [hl] at hb
    dsimp only at hb
    cases hs : readStmts n true [] l with
    | error => rw [hs] at hb; cases hb
    | ok y =>
      obtain ⟨stmts, m⟩ := y
      rw [hs] at hb
      dsimp only at hb
      cases hr : readSign .rbrace m with
      | error => rw [hr] at hb; cases hb
      | ok z =>
        rw [hr] at hb
        cases hb
        obtain ⟨new, ts, rfl, hnew, hts, -⟩ := h.stmts hs
        refine ⟨.sign .lbrace :: (ts ++ [.sign .rbrace]), .mk (by simpa using hnew), ?_⟩
        exact (ahead_of_readSign hl).append (hts.append (ahead_of_readSign hr))

theorem readStmts {inBlock : Bool} {done stmts : List Stmt} {ls r : List Lexeme}
    (hs : Source.readStmts (n + 1) inBlock done ls = .ok (stmts, r)) :
    ∃ new ts, stmts = done.reverse ++ new ∧ StmtsFrom new ts ∧ Ahead ts ls r ∧
      (r.isEmpty || (inBlock && nextSign? r == some .rbrace)) = true := by
  unfold Source.readStmts at hs
  split_ifs at hs with hend
  · cases hs
    exact ⟨[], [], by simp, .nil, .nil, hend⟩
  · cases hst : readStmt n ls with
    | error => rw [hst] at hs; cases hs
    | ok x =>
      obtain ⟨stmt, m⟩ := x
      rw [hst] at hs
      dsimp only at hs
      obtain ⟨ts, hstmt, hts⟩ := h.stmt hst
      obtain ⟨new, us, rfl, hnew, hus, hend'⟩ := h.stmts hs
      rcases skipSign_cases .semicolon m with hsame | hskip
      · rw [hsame] at hus
        exact ⟨stmt :: new, _, by simp, .cons hstmt hnew, hts.append hus, hend'⟩
      · exact ⟨stmt :: new, _, by simp, .semicolon hstmt hnew, hts.append (hskip.append hus), hend'⟩

theorem readBinding {mutable : Bool} {p : Position} {s : Stmt} {ls r : List Lexeme}
    (hb : Source.readBinding (n + 1) mutable p ls = .ok (s, r)) :
    ∃ ts, StmtFrom s (.keyword (if mutable then .kwMut else .kwLet) :: ts) ∧ Ahead ts ls r := by
  unfold Source.readBinding at hb
  cases hi : readIdent ls with
  | error => rw [hi] at hb; cases hb
  | ok x =>
    obtain ⟨name, l⟩ := x
    rw [hi] at hb
    dsimp only at hb
    cases ha : readSign .assign l with
    | error => rw [ha] at hb; cases hb
    | ok y =>
      obtain ⟨q, m⟩ := y
      rw [ha] at hb
      dsimp only at hb
      cases he : Source.readExpr n 0 m with
      | error => rw [he] at hb; cases hb
      | ok z =>
        rw [he] at hb
        cases hb
        obtain ⟨⟨grouped, ts, hts, hfrom, -⟩, -⟩ := h.expr he
        exact ⟨_, .bind hfrom,
          (ahead_of_readIdent hi).append ((ahead_of_readSign ha).append hts)⟩

theorem readFunc {p : Position} {s : Stmt} {l r : List Lexeme}
    (hf : Source.readStmt (n + 1) (⟨.keyword .kwFn, p⟩ :: l) = .ok (s, r)) :
    ∃ ts, StmtFrom s ts ∧ Ahead ts (⟨.keyword .kwFn, p⟩ :: l) r := by
  unfold Source.readStmt at hf
  dsimp only at hf
  cases hi : readIdent l with
  | error => rw [hi] at hf; cases hf
  | ok x =>
    obtain ⟨name, l₁⟩ := x
    rw [hi] at hf
    dsimp only at hf
    cases ho : readSign .lparen l₁ with
    | error => rw [ho] at hf; cases hf
    | ok y =>
      obtain ⟨q, l₂⟩ := y
      rw [ho] at hf
      dsimp only at hf
      cases hp : readParams [] l₂ with
      | error => rw [hp] at hf; cases hf
      | ok z =>
        obtain ⟨params, l₃⟩ := z
        rw [hp] at hf
        dsimp only at hf
        cases hb : Source.readBlock n l₃ with
        | error => rw [hb] at hf; cases hf
        | ok u =>
          rw [hb] at hf
          cases hf
          obtain ⟨new, ps, rfl, hparams, hps⟩ := paramsFrom_of_readParams hp
          obtain ⟨bs, hbody, hbs⟩ := h.block hb
          refine ⟨_, .func (by simpa using hparams) hbody, .cons p ?_⟩
          simpa using (ahead_of_readIdent hi).append
            ((ahead_of_readSign ho).append (hps.append hbs))

/-- What begins with no keyword of a statement is an assignment or an expression. -/
theorem readSimple {s : Stmt} {ls r l : List Lexeme} {target : Expr}
    (hs : (match nextSign? l, target with
      | some .assign, .name ident p =>
        match Source.readExpr n 0 l.tail with
        | .error e => .error e
        | .ok (value, r) => .ok (.assign (.name ident p) value p, r)
      | some .assign, _ => .error (.invalidTarget target.pos)
      | _, _ => .ok (.expr target, l) : Parsed Stmt) = .ok (s, r))
    (ht : Source.readExpr n 0 ls = .ok (target, l)) :
    ∃ ts, StmtFrom s ts ∧ Ahead ts ls r := by
  obtain ⟨⟨grouped, ts, hts, htarget, -⟩, -⟩ := h.expr ht
  split at hs
  · next ident p hsign =>
    cases hv : Source.readExpr n 0 l.tail with
    | error => rw [hv] at hs; cases hs
    | ok x =>
      rw [hv] at hs
      cases hs
      obtain ⟨⟨grouped', vs, hvs, hvalue, -⟩, -⟩ := h.expr hv
      exact ⟨_, .assign htarget hvalue, hts.append ((ahead_of_nextSign? hsign).append hvs)⟩
  · cases hs
  · cases hs
    exact ⟨ts, .expr htarget, hts⟩

theorem readStmt {s : Stmt} {ls r : List Lexeme}
    (hs : Source.readStmt (n + 1) ls = .ok (s, r)) : ∃ ts, StmtFrom s ts ∧ Ahead ts ls r := by
  unfold Source.readStmt at hs
  split at hs
  · next p l =>
    obtain ⟨ts, hfrom, hts⟩ := h.binding hs
    exact ⟨_, hfrom, .cons p hts⟩
  · next p l =>
    obtain ⟨ts, hfrom, hts⟩ := h.binding hs
    exact ⟨_, hfrom, .cons p hts⟩
  · next p l => exact h.readFunc hs
  · next p l =>
    split_ifs at hs
    · cases he : Source.readExpr n 0 l with
      | error => rw [he] at hs; cases hs
      | ok x =>
        rw [he] at hs
        cases hs
        obtain ⟨⟨grouped, ts, hts, hfrom, -⟩, -⟩ := h.expr he
        exact ⟨_, .ret hfrom, .cons p hts⟩
    · cases hs
      exact ⟨_, .retNil, .one p⟩
  · next p l =>
    cases he : Source.readExpr n 0 l with
    | error => rw [he] at hs; cases hs
    | ok x =>
      obtain ⟨test, m⟩ := x
      rw [he] at hs
      dsimp only at hs
      cases hb : Source.readBlock n m with
      | error => rw [hb] at hs; cases hs
      | ok y =>
        rw [hb] at hs
        cases hs
        obtain ⟨⟨grouped, ts, hts, hfrom, -⟩, -⟩ := h.expr he
        obtain ⟨bs, hbody, hbs⟩ := h.block hb
        exact ⟨_, .loop hfrom hbody, .cons p (hts.append hbs)⟩
  · cases ht : Source.readExpr n 0 ls with
    | error => rw [ht] at hs; cases hs
    | ok x =>
      rw [ht] at hs
      exact h.readSimple hs ht

end Faithful

/-- However deep they may go, the readers keep to the tokens that they take. -/
theorem faithful (n : Nat) : Faithful n := by
  induction n with
  | zero => exact faithful_zero
  | succ n h =>
    exact ⟨h.readExpr, h.readOperators, h.readOperand, h.readAtom, h.readArgs, h.readCond,
      h.readBlock, h.readStmts, h.readStmt, h.readBinding⟩

/-! ## Fragments -/

/-- A fragment that is parsed is read from all tokens of its text: none is dropped, made up or moved,
and the operators group as their strengths say. -/
theorem parse_reads_tokens {source : String} {f : Fragment} (h : Fragment.parse source = .ok f) :
    ∃ stream, lex source = .ok stream ∧ StmtsFrom f (stream.lexemes.map Lexeme.token) := by
  unfold Fragment.parse parseWith at h
  cases hlex : lex source with
  | error => rw [hlex] at h; cases h
  | ok stream =>
    rw [hlex] at h
    dsimp only at h
    unfold parseFragment at h
    cases hs : readStmts (depthFor stream.lexemes) false [] stream.lexemes with
    | error => rw [hs] at h; cases h
    | ok x =>
      obtain ⟨stmts, r⟩ := x
      rw [hs] at h
      cases h
      obtain ⟨new, ts, hnew, hfrom, hts, hend⟩ := (faithful _).stmts hs
      obtain rfl : r = [] := by simpa using hend
      refine ⟨stream, rfl, ?_⟩
      rw [hts.map_eq, hnew]
      simpa using hfrom

/-- A text with parentheses that group, with a semicolon, and with a comma at the end of a list. -/
def groupedText : String :=
  "f((a + 1) * -b,); if a < b { c }"

theorem groupedText_reads_tokens : ∃ f, Fragment.parse groupedText = .ok f ∧ f.length = 2 ∧
    StmtsFrom f [.ident "f", .sign .lparen, .sign .lparen, .ident "a", .sign .plus, .integer "1",
      .sign .rparen, .sign .star, .sign .minus, .ident "b", .sign .comma, .sign .rparen,
      .sign .semicolon, .keyword .kwIf, .ident "a", .sign .lt, .ident "b", .sign .lbrace,
      .ident "c", .sign .rbrace] := by
  have hlength : (Fragment.parse groupedText).toOption.map List.length = some 2 := by
    decide +kernel
  cases hf : Fragment.parse groupedText with
  | error => rw [hf] at hlength; cases hlength
  | ok f =>
    rw [hf] at hlength
    obtain ⟨stream, hlex, hfrom⟩ := parse_reads_tokens hf
    refine ⟨f, rfl, Option.some.inj hlength, ?_⟩
    have htokens : (lex groupedText).toOption.map (fun s => s.lexemes.map Lexeme.token) =
        some [.ident "f", .sign .lparen, .sign .lparen, .ident "a", .sign .plus, .integer "1",
          .sign .rparen, .sign .star, .sign .minus, .ident "b", .sign .comma, .sign .rparen,
          .sign .semicolon, .keyword .kwIf, .ident "a", .sign .lt, .ident "b", .sign .lbrace,
          .ident "c", .sign .rbrace] := by
      decide +kernel
    rw [hlex] at htokens
    rwa [← Option.some.inj htokens]

end ScriptMachine.Source
