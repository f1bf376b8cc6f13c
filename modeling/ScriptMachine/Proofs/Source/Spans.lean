import ScriptMachine.Proofs.Source.Faithful
import ScriptMachine.Proofs.Source.Places

/-!
# Where the nodes of a tree begin

A node is read from neighbouring tokens of the text and placed at the first of them. Parentheses that
group stand around an expression without being part of it, so those that are opened before the first
token are passed over. An operation or a call takes its place from its left part, which may itself be
an operation or a call; what carries the proof is that the left part is already placed at the first of
its own tokens.
-/

namespace ScriptMachine.Source

/-! ## First tokens -/

/-- The first of these tokens that is no opening parenthesis stands at `p`. -/
inductive BeginsAt (p : Position) : List Lexeme → Prop
  | here {t : Token} {ls : List Lexeme} (ht : t ≠ .sign .lparen) : BeginsAt p (⟨t, p⟩ :: ls)
  | grouped {q : Position} {ls : List Lexeme} (h : BeginsAt p ls) :
    BeginsAt p (⟨.sign .lparen, q⟩ :: ls)

/-- What follows does not move the beginning. -/
theorem BeginsAt.append {p : Position} {ls : List Lexeme} (h : BeginsAt p ls) (rs : List Lexeme) :
    BeginsAt p (ls ++ rs) := by
  induction h with
  | here ht => exact .here ht
  | grouped _ ih => exact .grouped ih

/-! ## Trees over the tokens they are read from -/

mutual

/-- An expression is read from these tokens of the text, parentheses around it included, and each of its
nodes is at the first of its own tokens. -/
inductive ExprOver : Expr → List Lexeme → Prop
  | number {digits : String} {p : Position} : ExprOver (.number digits p) [⟨.integer digits, p⟩]
  | text {raw : String} {p : Position} : ExprOver (.text raw p) [⟨.text raw, p⟩]
  | name {ident : String} {p : Position} : ExprOver (.name ident p) [⟨.ident ident, p⟩]
  | bool {value : Bool} {p : Position} :
    ExprOver (.bool value p) [⟨.keyword (if value then .kwTrue else .kwFalse), p⟩]
  | nil {p : Position} : ExprOver (.nil p) [⟨.keyword .kwNil, p⟩]
  | group {e : Expr} {q q' : Position} {ls : List Lexeme} (h : ExprOver e ls) :
    ExprOver e (⟨.sign .lparen, q⟩ :: (ls ++ [⟨.sign .rparen, q'⟩]))
  | binary {op : BinaryOp} {lhs rhs : Expr} {p q : Position} {ls rs : List Lexeme}
    (hp : BeginsAt p ls) (hl : ExprOver lhs ls) (hr : ExprOver rhs rs) :
    ExprOver (.binary op lhs rhs p) (ls ++ ⟨.sign op.sign, q⟩ :: rs)
  | unary {op : UnaryOp} {operand : Expr} {p : Position} {ls : List Lexeme}
    (h : ExprOver operand ls) : ExprOver (.unary op operand p) (⟨.sign op.sign, p⟩ :: ls)
  | call {callee : Expr} {args : List Expr} {p q q' : Position} {cs as : List Lexeme}
    (hp : BeginsAt p cs) (hc : ExprOver callee cs) (ha : ArgsOver args as) :
    ExprOver (.call callee args p)
      (cs ++ ⟨.sign .lparen, q⟩ :: (as ++ [⟨.sign .rparen, q'⟩]))
  | cond {test : Expr} {body : Block} {otherwise : Else} {p : Position} {ts bs os : List Lexeme}
    (ht : ExprOver test ts) (hb : BlockOver body bs) (ho : ElseOver otherwise os) :
    ExprOver (.cond test body otherwise p) (⟨.keyword .kwIf, p⟩ :: (ts ++ (bs ++ os)))
  | block {body : Block} {bs : List Lexeme} (hb : BlockOver body bs) : ExprOver (.block body) bs

/-- Arguments are read from these tokens, with commas between them and perhaps one after the last. -/
inductive ArgsOver : List Expr → List Lexeme → Prop
  | nil : ArgsOver [] []
  | one {e : Expr} {ls : List Lexeme} (h : ExprOver e ls) : ArgsOver [e] ls
  | cons {e : Expr} {rest : List Expr} {q : Position} {ls rs : List Lexeme} (h : ExprOver e ls)
    (hrest : ArgsOver rest rs) : ArgsOver (e :: rest) (ls ++ ⟨.sign .comma, q⟩ :: rs)

/-- An alternative is read from these tokens; one with a test of its own is at its `if`. -/
inductive ElseOver : Else → List Lexeme → Prop
  | absent : ElseOver .absent []
  | block {body : Block} {q : Position} {bs : List Lexeme} (hb : BlockOver body bs) :
    ElseOver (.block body) (⟨.keyword .kwElse, q⟩ :: bs)
  | elseIf {test : Expr} {body : Block} {otherwise : Else} {p q : Position}
    {ts bs os : List Lexeme} (ht : ExprOver test ts) (hb : BlockOver body bs)
    (ho : ElseOver otherwise os) :
    ElseOver (.elseIf test body otherwise p)
      (⟨.keyword .kwElse, q⟩ :: ⟨.keyword .kwIf, p⟩ :: (ts ++ (bs ++ os)))

/-- A statement is read from these tokens, and it and its nodes are at the first of their own. -/
inductive StmtOver : Stmt → List Lexeme → Prop
  | bind {mutable : Bool} {name : String} {value : Expr} {p q q' : Position} {ls : List Lexeme}
    (hv : ExprOver value ls) :
    StmtOver (.bind mutable name value p)
      (⟨.keyword (if mutable then .kwMut else .kwLet), p⟩ :: ⟨.ident name, q⟩ ::
        ⟨.sign .assign, q'⟩ :: ls)
  | assign {target value : Expr} {p q : Position} {ls vs : List Lexeme} (hp : BeginsAt p ls)
    (ht : ExprOver target ls) (hv : ExprOver value vs) :
    StmtOver (.assign target value p) (ls ++ ⟨.sign .assign, q⟩ :: vs)
  | func {name : String} {params : List String} {body : Block} {p q q' q'' : Position}
    {ts : List Token} {ps bs : List Lexeme} (hp : ParamsFrom params ts)
    (hps : ps.map Lexeme.token = ts) (hb : BlockOver body bs) :
    StmtOver (.func name params body p)
      (⟨.keyword .kwFn, p⟩ :: ⟨.ident name, q⟩ :: ⟨.sign .lparen, q'⟩ ::
        (ps ++ ⟨.sign .rparen, q''⟩ :: bs))
  | retNil {p : Position} : StmtOver (.retNil p) [⟨.keyword .kwReturn, p⟩]
  | ret {value : Expr} {p : Position} {ls : List Lexeme} (hv : ExprOver value ls) :
    StmtOver (.ret value p) (⟨.keyword .kwReturn, p⟩ :: ls)
  | loop {test : Expr} {body : Block} {p : Position} {ts bs : List Lexeme}
    (ht : ExprOver test ts) (hb : BlockOver body bs) :
    StmtOver (.loop test body p) (⟨.keyword .kwWhile, p⟩ :: (ts ++ bs))
  | expr {e : Expr} {ls : List Lexeme} (h : ExprOver e ls) : StmtOver (.expr e) ls

/-- Statements are read from these tokens, each with or without a semicolon after it. -/
inductive StmtsOver : List Stmt → List Lexeme → Prop
  | nil : StmtsOver [] []
  | cons {s : Stmt} {rest : List Stmt} {ls rs : List Lexeme} (h : StmtOver s ls)
    (hrest : StmtsOver rest rs) : StmtsOver (s :: rest) (ls ++ rs)
  | semicolon {s : Stmt} {rest : List Stmt} {q : Position} {ls rs : List Lexeme}
    (h : StmtOver s ls) (hrest : StmtsOver rest rs) :
    StmtsOver (s :: rest) (ls ++ ⟨.sign .semicolon, q⟩ :: rs)

/-- A block is read from these tokens and is at its opening brace. -/
inductive BlockOver : Block → List Lexeme → Prop
  | mk {stmts : List Stmt} {p q : Position} {ls : List Lexeme} (h : StmtsOver stmts ls) :
    BlockOver (.mk stmts p) (⟨.sign .lbrace, p⟩ :: (ls ++ [⟨.sign .rbrace, q⟩]))

end

/-! ## Nodes are at their first tokens -/

theorem BlockOver.beginsAt {body : Block} {ls : List Lexeme} (h : BlockOver body ls) :
    BeginsAt body.pos ls := by
  cases h with
  | mk => exact .here (by decide)

theorem ExprOver.beginsAt {e : Expr} {ls : List Lexeme} : ExprOver e ls → BeginsAt e.pos ls
  | .number | .text | .name | .nil | .cond _ _ _ => .here nofun
  | .bool => .here (by split <;> nofun)
  | @ExprOver.unary op .. => .here (by cases op <;> nofun)
  | .group h => .grouped (h.beginsAt.append _)
  | .binary hp _ _ => hp.append _
  | .call hp _ _ => hp.append _
  | .block hb => hb.beginsAt

theorem StmtOver.beginsAt {s : Stmt} {ls : List Lexeme} (h : StmtOver s ls) :
    BeginsAt s.pos ls := by
  cases h with
  | bind => exact .here (by split <;> nofun)
  | assign hp => exact hp.append _
  | func | retNil | ret | loop => exact .here nofun
  | expr h => exact h.beginsAt

/-! ## Tokens taken -/

namespace Ahead

variable {t : Token} {ts : List Token} {ls r : List Lexeme}

theorem single (h : Ahead [t] ls r) : ∃ p, ls = ⟨t, p⟩ :: r := by
  cases h with
  | cons p h =>
    cases h
    exact ⟨p, rfl⟩

theorem taken (h : Ahead ts ls r) : ∃ taken, ls = taken ++ r ∧ taken.map Lexeme.token = ts := by
  induction h with
  | nil => exact ⟨[], rfl, rfl⟩
  | cons p _ ih =>
    obtain ⟨taken, rfl, rfl⟩ := ih
    exact ⟨⟨_, p⟩ :: taken, rfl, rfl⟩

end Ahead

theorem eq_of_readSign {g : Sign} {p : Position} {ls r : List Lexeme}
    (h : readSign g ls = .ok (p, r)) : ls = ⟨.sign g, p⟩ :: r := by
  unfold readSign at h
  split at h
  · split_ifs at h with hg
    · cases h
      rw [hg]
    · cases h
  · cases h

/-- The names of parameters are taken with the parenthesis after them. -/
theorem eq_of_readParams {params : List String} {ls r : List Lexeme}
    (h : readParams [] ls = .ok (params, r)) : ∃ ts ps q, ParamsFrom params ts ∧
      ps.map Lexeme.token = ts ∧ ls = ps ++ ⟨.sign .rparen, q⟩ :: r := by
  obtain ⟨new, ts, rfl, hparams, hahead⟩ := paramsFrom_of_readParams h
  obtain ⟨taken, rfl, htaken⟩ := hahead.taken
  obtain ⟨ps, last, rfl, hps, hlast⟩ := List.map_eq_append_iff.1 htaken
  obtain ⟨⟨t, q⟩, rfl, rfl⟩ := List.map_eq_singleton_iff.1 hlast
  exact ⟨ts, ps, q, hparams, hps, by simp⟩

/-! ## Readers -/

/-- What readers of this depth read stands over the lexemes that they take. -/
structure Spanning (n : Nat) : Prop where
  expr : ∀ {min e ls r}, readExpr n min ls = .ok (e, r) → ∃ taken, ls = taken ++ r ∧ ExprOver e taken
  operators : ∀ {min lhs e before ls r}, ExprOver lhs before →
    readOperators n min lhs ls = .ok (e, r) → ∃ taken, ls = taken ++ r ∧ ExprOver e (before ++ taken)
  operand : ∀ {e ls r}, readOperand n ls = .ok (e, r) → ∃ taken, ls = taken ++ r ∧ ExprOver e taken
  atom : ∀ {e ls r}, readAtom n ls = .ok (e, r) → ∃ taken, ls = taken ++ r ∧ ExprOver e taken
  args : ∀ {done args ls r}, readArgs n done ls = .ok (args, r) → ∃ new taken q,
    args = done.reverse ++ new ∧ ls = taken ++ ⟨.sign .rparen, q⟩ :: r ∧ ArgsOver new taken
  cond : ∀ {test body otherwise ls r}, readCond n ls = .ok ((test, body, otherwise), r) →
    ∃ ts bs os, ls = ts ++ (bs ++ os) ++ r ∧ ExprOver test ts ∧ BlockOver body bs ∧
      ElseOver otherwise os
  block : ∀ {body ls r}, readBlock n ls = .ok (body, r) →
    ∃ taken, ls = taken ++ r ∧ BlockOver body taken
  stmts : ∀ {inBlock done stmts ls r}, readStmts n inBlock done ls = .ok (stmts, r) →
    ∃ new taken, stmts = done.reverse ++ new ∧ ls = taken ++ r ∧ StmtsOver new taken
  stmt : ∀ {s ls r}, readStmt n ls = .ok (s, r) → ∃ taken, ls = taken ++ r ∧ StmtOver s taken
  binding : ∀ {mutable p s ls r}, readBinding n mutable p ls = .ok (s, r) →
    ∃ taken, ls = taken ++ r ∧
      StmtOver s (⟨.keyword (if mutable then .kwMut else .kwLet), p⟩ :: taken)

/-- Without depth nothing is read. -/
theorem spanning_zero : Spanning 0 where
  expr h := by cases h
  operators _ h := by cases h
  operand h := by cases h
  atom h := by cases h
  args h := by cases h
  cond h := by cases h
  block h := by cases h
  stmts h := by cases h
  stmt h := by cases h
  binding h := by cases h

namespace Spanning

variable {n : Nat} (h : Spanning n)

include h

theorem readExpr {min : Nat} {e : Expr} {ls r : List Lexeme}
    (he : Source.readExpr (n + 1) min ls = .ok (e, r)) :
    ∃ taken, ls = taken ++ r ∧ ExprOver e taken := by
  unfold Source.readExpr at he
  split at he
  · cases he
  · next lhs m hlhs =>
    obtain ⟨first, rfl, hfirst⟩ := h.operand hlhs
    obtain ⟨more, rfl, hmore⟩ := h.operators hfirst he
    exact ⟨first ++ more, by simp, hmore⟩

/-- What follows the callee or the left operand is taken after it. -/
theorem readOperators {min : Nat} {lhs e : Expr} {before ls r : List Lexeme}
    (hlhs : ExprOver lhs before) (he : Source.readOperators (n + 1) min lhs ls = .ok (e, r)) :
    ∃ taken, ls = taken ++ r ∧ ExprOver e (before ++ taken) := by
  unfold Source.readOperators at he
  split at he
  · next hsign =>
    split at he
    · cases he
    · next args m hargs =>
      obtain ⟨p, hls⟩ := (ahead_of_nextSign? hsign).single
      obtain ⟨new, as, q, hnew, htail, has⟩ := h.args hargs
      obtain rfl : args = new := by simpa using hnew
      have hcall : ExprOver (.call lhs args lhs.pos)
          (before ++ ⟨.sign .lparen, p⟩ :: (as ++ [⟨.sign .rparen, q⟩])) :=
        .call hlhs.beginsAt hlhs has
      obtain ⟨more, rfl, hmore⟩ := h.operators hcall he
      refine ⟨⟨.sign .lparen, p⟩ :: (as ++ ⟨.sign .rparen, q⟩ :: more), ?_, ?_⟩
      · rw [hls, htail]
        simp
      · simpa using hmore
  · split at he
    · cases he
      exact ⟨[], rfl, by simpa using hlhs⟩
    · next op hop =>
      obtain ⟨hnext, -⟩ := Option.filter_eq_some_iff.1 hop
      obtain ⟨p, hls⟩ := (ahead_of_nextOperator? hnext).single
      split at he
      · cases he
      · next rhs m hrhs =>
        have hrest : Source.readOperators n min (.binary op lhs rhs lhs.pos) m = .ok (e, r) := by
          split at he
          · cases he
          · exact he
        obtain ⟨rs, htail, hright⟩ := h.expr hrhs
        have hbinary : ExprOver (.binary op lhs rhs lhs.pos) (before ++ ⟨.sign op.sign, p⟩ :: rs) :=
          .binary hlhs.beginsAt hlhs hright
        obtain ⟨more, rfl, hmore⟩ := h.operators hbinary hrest
        refine ⟨⟨.sign op.sign, p⟩ :: (rs ++ more), ?_, ?_⟩
        · rw [hls, htail]
          simp
        · simpa using hmore

theorem readOperand {e : Expr} {ls r : List Lexeme}
    (he : Source.readOperand (n + 1) ls = .ok (e, r)) :
    ∃ taken, ls = taken ++ r ∧ ExprOver e taken := by
  unfold Source.readOperand at he
  split at he
  · next g p l =>
    split at he
    · next op hop =>
      obtain rfl : g = op.sign := UnaryOp.eq_sign_of_ofSign? hop
      split at he
      · cases he
      · next operand m hoperand =>
        cases he
        obtain ⟨taken, rfl, hover⟩ := h.expr hoperand
        exact ⟨_, rfl, .unary hover⟩
    · exact h.atom he
  · exact h.atom he

theorem readAtom {e : Expr} {ls r : List Lexeme}
    (he : Source.readAtom (n + 1) ls = .ok (e, r)) :
    ∃ taken, ls = taken ++ r ∧ ExprOver e taken := by
  unfold Source.readAtom at he
  split at he
  · cases he; exact ⟨[_], rfl, .number⟩
  · cases he; exact ⟨[_], rfl, .text⟩
  · cases he; exact ⟨[_], rfl, .name⟩
  · cases he; exact ⟨[_], rfl, .bool⟩
  · cases he; exact ⟨[_], rfl, .bool⟩
  · cases he; exact ⟨[_], rfl, .nil⟩
  · split at he
    · cases he
    · next test body otherwise m hcond =>
      cases he
      obtain ⟨ts, bs, os, rfl, ht, hb, ho⟩ := h.cond hcond
      exact ⟨_, rfl, .cond ht hb ho⟩
  · split at he
    · cases he
    · next body m hbody =>
      cases he
      obtain ⟨taken, htaken, hover⟩ := h.block hbody
      exact ⟨taken, htaken, .block hover⟩
  · next p l =>
    split at he
    · cases he
    · next inner m hinner =>
      split at he
      · cases he
      · next q m' hclose =>
        cases he
        obtain ⟨taken, rfl, hover⟩ := h.expr hinner
        obtain rfl := eq_of_readSign hclose
        exact ⟨⟨.sign .lparen, p⟩ :: (taken ++ [⟨.sign .rparen, q⟩]), by simp, .group hover⟩
  · cases he

theorem readArgs {done args : List Expr} {ls r : List Lexeme}
    (ha : Source.readArgs (n + 1) done ls = .ok (args, r)) : ∃ new taken q,
      args = done.reverse ++ new ∧ ls = taken ++ ⟨.sign .rparen, q⟩ :: r ∧ ArgsOver new taken := by
  unfold Source.readArgs at ha
  split at ha
  · next hsign =>
    cases ha
    obtain ⟨q, hls⟩ := (ahead_of_nextSign? hsign).single
    exact ⟨[], [], q, by simp, hls, .nil⟩
  · split at ha
    · cases ha
    · next arg m harg =>
      obtain ⟨first, rfl, hfirst⟩ := h.expr harg
      split at ha
      · next hsign =>
        obtain ⟨p, hm⟩ := (ahead_of_nextSign? hsign).single
        obtain ⟨new, rest, q, rfl, htail, hrest⟩ := h.args ha
        refine ⟨arg :: new, first ++ ⟨.sign .comma, p⟩ :: rest, q, by simp, ?_, .cons hfirst hrest⟩
        rw [hm, htail]
        simp
      · split at ha
        · cases ha
        · next q m' hclose =>
          cases ha
          obtain rfl := eq_of_readSign hclose
          exact ⟨[arg], first, q, by simp, rfl, .one hfirst⟩

theorem readCond {test : Expr} {body : Block} {otherwise : Else} {ls r : List Lexeme}
    (hc : Source.readCond (n + 1) ls = .ok ((test, body, otherwise), r)) :
    ∃ ts bs os, ls = ts ++ (bs ++ os) ++ r ∧ ExprOver test ts ∧ BlockOver body bs ∧
      ElseOver otherwise os := by
  unfold Source.readCond at hc
  split at hc
  · cases hc
  · next test' m htest =>
    split at hc
    · cases hc
    · next body' m' hbody =>
      obtain ⟨ts, rfl, ht⟩ := h.expr htest
      obtain ⟨bs, rfl, hb⟩ := h.block hbody
      split at hc
      · next q p l =>
        split at hc
        · cases hc
        · next inner m₂ hinner =>
          cases hc
          obtain ⟨ts', bs', os', rfl, ht', hb', ho'⟩ := h.cond hinner
          exact ⟨ts, bs, ⟨.keyword .kwElse, q⟩ :: ⟨.keyword .kwIf, p⟩ :: (ts' ++ (bs' ++ os')),
            by simp, ht, hb, .elseIf ht' hb' ho'⟩
      · next q l _ =>
        split at hc
        · cases hc
        · next alternative m₂ halternative =>
          cases hc
          obtain ⟨os, rfl, ho⟩ := h.block halternative
          exact ⟨ts, bs, ⟨.keyword .kwElse, q⟩ :: os, by simp, ht, hb, .block ho⟩
      · cases hc
        exact ⟨ts, bs, [], by simp, ht, hb, .absent⟩

theorem readBlock {body : Block} {ls r : List Lexeme}
    (hb : Source.readBlock (n + 1) ls = .ok (body, r)) :
    ∃ taken, ls = taken ++ r ∧ BlockOver body taken := by
  unfold Source.readBlock at hb
  split at hb
  · cases hb
  · next p m hopen =>
    split at hb
    · cases hb
    · next stmts m' hstmts =>
      split at hb
      · cases hb
      · next q m₂ hclose =>
        cases hb
        obtain ⟨new, taken, rfl, rfl, hover⟩ := h.stmts hstmts
        obtain rfl := eq_of_readSign hclose
        exact ⟨⟨.sign .lbrace, p⟩ :: (taken ++ [⟨.sign .rbrace, q⟩]),
          by simp [eq_of_readSign hopen], .mk hover⟩

theorem readStmts {inBlock : Bool} {done stmts : List Stmt} {ls r : List Lexeme}
    (hs : Source.readStmts (n + 1) inBlock done ls = .ok (stmts, r)) :
    ∃ new taken, stmts = done.reverse ++ new ∧ ls = taken ++ r ∧ StmtsOver new taken := by
  unfold Source.readStmts at hs
  split_ifs at hs
  · cases hs
    exact ⟨[], [], by simp, rfl, .nil⟩
  · split at hs
    · cases hs
    · next stmt m hstmt =>
      obtain ⟨first, rfl, hfirst⟩ := h.stmt hstmt
      obtain ⟨new, rest, rfl, hrest, hover⟩ := h.stmts hs
      rcases skipSign_cases .semicolon m with hsame | hskip
      · rw [hsame] at hrest
        exact ⟨stmt :: new, first ++ rest, by simp, by simp [hrest], .cons hfirst hover⟩
      · obtain ⟨p, hm⟩ := hskip.single
        refine ⟨stmt :: new, first ++ ⟨.sign .semicolon, p⟩ :: rest, by simp, ?_,
          .semicolon hfirst hover⟩
        rw [hm, hrest]
        simp

theorem readBinding {mutable : Bool} {p : Position} {s : Stmt} {ls r : List Lexeme}
    (hb : Source.readBinding (n + 1) mutable p ls = .ok (s, r)) : ∃ taken, ls = taken ++ r ∧
      StmtOver s (⟨.keyword (if mutable then .kwMut else .kwLet), p⟩ :: taken) := by
  unfold Source.readBinding at hb
  split at hb
  · cases hb
  · next name m hname =>
    split at hb
    · cases hb
    · next q m' hassign =>
      split at hb
      · cases hb
      · next value m₂ hvalue =>
        cases hb
        obtain ⟨taken, rfl, hover⟩ := h.expr hvalue
        obtain rfl := eq_of_readSign hassign
        obtain ⟨q', rfl⟩ := (ahead_of_readIdent hname).single
        exact ⟨_, rfl, .bind hover⟩

theorem readStmt {s : Stmt} {ls r : List Lexeme} (hs : Source.readStmt (n + 1) ls = .ok (s, r)) :
    ∃ taken, ls = taken ++ r ∧ StmtOver s taken := by
  unfold Source.readStmt at hs
  split at hs
  · obtain ⟨taken, rfl, hover⟩ := h.binding hs
    exact ⟨_, rfl, hover⟩
  · obtain ⟨taken, rfl, hover⟩ := h.binding hs
    exact ⟨_, rfl, hover⟩
  · next p l =>
    split at hs
    · cases hs
    · next name m hname =>
      split at hs
      · cases hs
      · next q m' hopen =>
        split at hs
        · cases hs
        · next params m₂ hparams =>
          split at hs
          · cases hs
          · next body m₃ hbody =>
            cases hs
            obtain ⟨bs, rfl, hover⟩ := h.block hbody
            obtain ⟨ts, ps, q', hfrom, hps, rfl⟩ := eq_of_readParams hparams
            obtain rfl := eq_of_readSign hopen
            obtain ⟨q'', rfl⟩ := (ahead_of_readIdent hname).single
            exact ⟨⟨.keyword .kwFn, p⟩ :: ⟨.ident name, q''⟩ :: ⟨.sign .lparen, q⟩ ::
              (ps ++ ⟨.sign .rparen, q'⟩ :: bs), by simp, .func hfrom hps hover⟩
  · split_ifs at hs
    · split at hs
      · cases hs
      · next value m hvalue =>
        cases hs
        obtain ⟨taken, rfl, hover⟩ := h.expr hvalue
        exact ⟨_, rfl, .ret hover⟩
    · cases hs
      exact ⟨[_], rfl, .retNil⟩
  · next p l =>
    split at hs
    · cases hs
    · next test m htest =>
      split at hs
      · cases hs
      · next body m' hbody =>
        cases hs
        obtain ⟨ts, rfl, ht⟩ := h.expr htest
        obtain ⟨bs, rfl, hb⟩ := h.block hbody
        exact ⟨⟨.keyword .kwWhile, p⟩ :: (ts ++ bs), by simp, .loop ht hb⟩
  · split at hs
    · cases hs
    · next target m htarget =>
      obtain ⟨first, rfl, hfirst⟩ := h.expr htarget
      split at hs
      · next ident p hsign =>
        split at hs
        · cases hs
        · next value m' hvalue =>
          cases hs
          obtain ⟨q, hm⟩ := (ahead_of_nextSign? hsign).single
          obtain ⟨taken, htail, hover⟩ := h.expr hvalue
          refine ⟨first ++ ⟨.sign .assign, q⟩ :: taken, ?_, .assign hfirst.beginsAt hfirst hover⟩
          rw [hm, htail]
          simp
      · cases hs
      · cases hs
        exact ⟨first, rfl, .expr hfirst⟩

end Spanning

/-- However deep they may go, what the readers read stands over what they take. -/
theorem spanning (n : Nat) : Spanning n := by
  induction n with
  | zero => exact spanning_zero
  | succ n h =>
    exact ⟨h.readExpr, h.readOperators, h.readOperand, h.readAtom, h.readArgs, h.readCond,
      h.readBlock, h.readStmts, h.readStmt, h.readBinding⟩

/-! ## Whole texts -/

/-- A fragment stands over all lexemes. -/
theorem stmtsOver_of_parseFragment {ls : List Lexeme} {f : Fragment}
    (h : parseFragment ls = .ok f) : StmtsOver f ls := by
  unfold parseFragment at h
  cases hs : readStmts (depthFor ls) false [] ls with
  | error => rw [hs] at h; cases h
  | ok x =>
    obtain ⟨stmts, r⟩ := x
    rw [hs] at h
    cases h
    obtain ⟨new, taken, hnew, hls, hover⟩ := (spanning _).stmts hs
    obtain ⟨-, -, -, -, -, hend⟩ := (faithful _).stmts hs
    obtain rfl : r = [] := by simpa using hend
    rw [hls, List.append_nil, hnew]
    simpa using hover

theorem blockOver_of_parseBlock {ls : List Lexeme} {body : Block} (h : parseBlock ls = .ok body) :
    BlockOver body ls := by
  unfold parseBlock at h
  split at h
  · cases h
  · next hbody =>
    cases h
    obtain ⟨taken, htaken, hover⟩ := (spanning _).block hbody
    rwa [htaken, List.append_nil]
  · cases h

/-- What is read from a source text is read from all of its lexemes. -/
theorem eq_ok_of_parseWith {α : Type} {read : List Lexeme → Except Refusal α} {source : String}
    {x : α} (h : parseWith read source = .ok x) :
    ∃ stream, lex source = .ok stream ∧ read stream.lexemes = .ok x := by
  unfold parseWith at h
  split at h
  · cases h
  · next stream hlex =>
    refine ⟨stream, hlex, ?_⟩
    cases hread : read stream.lexemes with
    | error => rw [hread] at h; cases h
    | ok y =>
      rw [hread] at h
      cases h
      rfl

/-- Positions are exact. A token is at the line after the newlines before it and at the column after
the characters since the last of them, and the text before it has just the tokens before it; the end of
a text is where all of it ends. The nodes of a fragment or a block are at the first of the tokens that
they are read from, without the parentheses that group. -/
theorem positions_exact (source : String) :
    (∀ stream, lex source = .ok stream →
      (∀ earlier l later, stream.lexemes = earlier ++ l :: later → ∃ before text rest,
        StandsIn .start source.toList earlier l later stream.stop before text rest ∧
          l.pos = placeAfter before) ∧
        stream.stop = placeAfter source.toList) ∧
    (∀ f, Fragment.parse source = .ok f →
      ∃ stream, lex source = .ok stream ∧ StmtsOver f stream.lexemes) ∧
    (∀ body, Block.parse source = .ok body →
      ∃ stream, lex source = .ok stream ∧ BlockOver body stream.lexemes) ∧
    (∀ e ls, ExprOver e ls → BeginsAt e.pos ls) ∧ (∀ s ls, StmtOver s ls → BeginsAt s.pos ls) ∧
    ∀ body ls, BlockOver body ls → BeginsAt body.pos ls := by
  refine ⟨fun _ => places_of_lex, fun f hf => ?_, fun body hbody => ?_, fun _ _ => ExprOver.beginsAt,
    fun _ _ => StmtOver.beginsAt, fun _ _ => BlockOver.beginsAt⟩
  · obtain ⟨stream, hlex, hread⟩ := eq_ok_of_parseWith hf
    exact ⟨stream, hlex, stmtsOver_of_parseFragment hread⟩
  · obtain ⟨stream, hlex, hread⟩ := eq_ok_of_parseWith hbody
    exact ⟨stream, hlex, blockOver_of_parseBlock hread⟩

/-- A text with newlines in a string and in a comment, with a character of two bytes, and with a callee
and a sum in parentheses. -/
def raggedText : String :=
  "\"a\né\"; /*\n*/ ((f)(x) + 1)"

theorem positions_exact_ragged : ∃ stream f, lex raggedText = .ok stream ∧
    Fragment.parse raggedText = .ok f ∧ f.map Stmt.pos = [⟨1, 1⟩, ⟨3, 6⟩] ∧
    StmtsOver f stream.lexemes ∧ ⟨3, 16⟩ = placeAfter raggedText.toList ∧
    ∃ before text rest, StandsIn .start raggedText.toList [⟨.text "a\né", ⟨1, 1⟩⟩]
      ⟨.sign .semicolon, ⟨2, 3⟩⟩ stream.lexemes.tail.tail stream.stop before text rest ∧
        ⟨2, 3⟩ = placeAfter before := by
  have hlex : lex raggedText = .ok ⟨[⟨.text "a\né", ⟨1, 1⟩⟩, ⟨.sign .semicolon, ⟨2, 3⟩⟩,
      ⟨.sign .lparen, ⟨3, 4⟩⟩, ⟨.sign .lparen, ⟨3, 5⟩⟩, ⟨.ident "f", ⟨3, 6⟩⟩,
      ⟨.sign .rparen, ⟨3, 7⟩⟩, ⟨.sign .lparen, ⟨3, 8⟩⟩, ⟨.ident "x", ⟨3, 9⟩⟩,
      ⟨.sign .rparen, ⟨3, 10⟩⟩, ⟨.sign .plus, ⟨3, 12⟩⟩, ⟨.integer "1", ⟨3, 14⟩⟩,
      ⟨.sign .rparen, ⟨3, 15⟩⟩], ⟨3, 16⟩⟩ := by
    cbv
  have hplaces : (Fragment.parse raggedText).toOption.map (List.map Stmt.pos) =
      some [⟨1, 1⟩, ⟨3, 6⟩] := by
    decide +kernel
  obtain ⟨htokens, htrees, -⟩ := positions_exact raggedText
  cases hf : Fragment.parse raggedText with
  | error => rw [hf] at hplaces; cases hplaces
  | ok f =>
    rw [hf] at hplaces
    obtain ⟨stream, hstream, hover⟩ := htrees f hf
    obtain rfl := Except.ok.inj (hlex.symm.trans hstream)
    obtain ⟨hat, hstop⟩ := htokens _ hlex
    exact ⟨_, f, hlex, rfl, Option.some.inj hplaces, hover, hstop, hat _ _ _ rfl⟩

end ScriptMachine.Source
