import ScriptMachine.Proofs.Source.Faithful
import ScriptMachine.Proofs.Scoping.Sites

/-!
# Sites in a text

The sites of a tree that was parsed stand at tokens of its text, each at the token that it is about,
and in the order of these tokens; and the tokens of a text stand one after the other. So the first of
some sites is the one with the first place in the text.
-/

namespace ScriptMachine.Scoping

open Source

/-! ## Places -/

/-- The place `p` is before the place `q`. -/
def Before (p q : Position) : Prop :=
  p.line < q.line ∨ p.line = q.line ∧ p.col < q.col

theorem Before.trans {p q r : Position} (h : Before p q) (h' : Before q r) : Before p r := by
  unfold Before at *
  omega

theorem Before.asymm {p q : Position} (h : Before p q) : ¬ Before q p := by
  unfold Before at *
  omega

theorem before_next (p : Position) (c : Char) : Before p (p.next c) := by
  unfold Before Position.next
  split_ifs
  · exact .inl (Nat.lt_succ_self _)
  · exact .inr ⟨rfl, Nat.lt_succ_self _⟩

theorem before_after {text : List Char} (h : text ≠ []) (p : Position) :
    Before p (p.after text) := by
  induction text generalizing p with
  | nil => exact absurd rfl h
  | cons c rest ih =>
    rw [Position.after_cons]
    cases rest with
    | nil => exact before_next p c
    | cons d rest => exact (before_next p c).trans (ih (List.cons_ne_nil d rest) _)

/-- A gap goes on in the text. -/
theorem before_of_skipGap {g : Gap} {p q : Position} {s r : List Char}
    (h : skipGap g p s = .ok (q, r)) {o : Position} (ho : Before o p) : Before o q := by
  fun_induction skipGap g p s with
  | case1 p r ih => exact ih h ((ho.trans (before_next p _)).trans (before_next _ _))
  | case2 p r ih => exact ih h ((ho.trans (before_next p _)).trans (before_next _ _))
  | case3 p c r _ _ _ ih => exact ih h (ho.trans (before_next p c))
  | case4 => cases h; exact ho
  | case5 p r ih => exact ih h (ho.trans (before_next p _))
  | case6 p c r _ ih => exact ih h (ho.trans (before_next p c))
  | case7 o p r ih => exact ih h ((ho.trans (before_next p _)).trans (before_next _ _))
  | case8 o p c r _ ih => exact ih h (ho.trans (before_next p c))
  | case9 => cases h
  | case10 => cases h; exact ho

/-! ## Tokens -/

/-- An integer token holds digits. -/
def Sound (t : Token) : Prop :=
  ∀ digits, t = .integer digits → Text.areDigits digits.toList = true

theorem sound_of_readToken {p : Position} {c : Char} {r : List Char} {t : Reading}
    (h : readToken p c r = .ok t) : Sound t.token := by
  unfold readToken at h
  split_ifs at h with hdigit hword hquote
  · cases h
    intro digits hdigits
    cases hdigits
    rw [String.toList_ofList]
    exact areDigits_filter hdigit (List.all_eq_true.1 List.all_takeWhile)
  · cases h
    intro digits hdigits
    cases hk : Keyword.ofWord? (String.ofList (c :: r.takeWhile isWordPart)) with
    | none => rw [hk] at hdigits; cases hdigits
    | some k => rw [hk] at hdigits; cases hdigits
  · split at h
    · cases h
    · cases h
      intro digits hdigits
      cases hdigits
  · split at h
    · cases h
    · cases h
      intro digits hdigits
      cases hdigits

/-- Lexemes stand one after the other, and are sound. -/
structure InOrder (ls : List Lexeme) : Prop where
  order : ls.Pairwise fun l m => Before l.pos m.pos
  sound : ∀ l ∈ ls, Sound l.token

/-- What is lexed stands after what was lexed before. -/
theorem inOrder_lexFrom {done : List Lexeme} {p : Position} {s : List Char} {stream : TokenStream}
    (h : lexFrom done p s = .ok stream) (hdone : InOrder done.reverse)
    (hp : ∀ l ∈ done, Before l.pos p) : InOrder stream.lexemes := by
  induction hn : s.length using Nat.strongRecOn generalizing done p s with
  | ind n ih =>
    rw [lexFrom_eq] at h
    cases hgap : skipGap .blank p s with
    | error e => rw [hgap] at h; cases h
    | ok x =>
      obtain ⟨q, rest⟩ := x
      rw [hgap] at h
      have hq : ∀ l ∈ done, Before l.pos q := fun l hl => before_of_skipGap hgap (hp l hl)
      cases rest with
      | nil =>
        cases h
        exact hdone
      | cons c r =>
        dsimp only at h
        cases htoken : readToken q c r with
        | error e => rw [htoken] at h; cases h
        | ok t =>
          rw [htoken] at h
          have hshort : t.rest.length < n := by
            have hgap := length_le_of_skipGap hgap
            have htoken := rest_length_lt_of_readToken htoken
            omega
          have hafter : Before q (q.after t.text) := before_after (text_ne_nil_of_readToken htoken) q
          refine ih _ hshort h ?_ ?_ rfl
          · rw [List.reverse_cons]
            refine ⟨List.pairwise_append.2 ⟨hdone.order, List.pairwise_singleton _ _, ?_⟩, ?_⟩
            · intro l hl m hm
              rw [List.mem_singleton.1 hm]
              exact hq l (List.mem_reverse.1 hl)
            · intro l hl
              rcases List.mem_append.1 hl with hl | hl
              · exact hdone.sound l hl
              · rw [List.mem_singleton.1 hl]
                exact sound_of_readToken htoken
          · intro l hl
            rcases List.mem_cons.1 hl with rfl | hl
            · exact hafter
            · exact (hq l hl).trans hafter

theorem inOrder_lex {source : String} {stream : TokenStream} (h : lex source = .ok stream) :
    InOrder stream.lexemes :=
  inOrder_lexFrom h ⟨.nil, fun _ hl => absurd hl List.not_mem_nil⟩
    fun _ hl => absurd hl List.not_mem_nil

/-! ## Readers -/

/-- Between `ls` and what is left of it, these sites stand, in this order and perhaps among others. -/
def Finds (sites : List Site) (ls r : List Lexeme) : Prop :=
  ∃ taken, ls = taken ++ r ∧ (sites.map Site.lexeme).Sublist taken

namespace Finds

variable {sites others : List Site} {ts : List Token} {ls m r : List Lexeme}

theorem append (h : Finds sites ls m) (h' : Finds others m r) : Finds (sites ++ others) ls r := by
  obtain ⟨taken, rfl, hsites⟩ := h
  obtain ⟨taken', rfl, hothers⟩ := h'
  refine ⟨taken ++ taken', by rw [List.append_assoc], ?_⟩
  rw [List.map_append]
  exact hsites.append hothers

theorem of_ahead (h : Ahead ts ls r) : Finds [] ls r := by
  induction h with
  | nil => exact ⟨[], rfl, .refl _⟩
  | cons p _ ih =>
    obtain ⟨taken, rfl, -⟩ := ih
    exact ⟨_ :: taken, rfl, List.nil_sublist _⟩

theorem after (h : Finds sites m r) (h' : Ahead ts ls m) : Finds sites ls r :=
  (of_ahead h').append h

theorem before (h : Finds sites ls m) (h' : Ahead ts m r) : Finds sites ls r := by
  have hboth := h.append (of_ahead h')
  rwa [List.append_nil] at hboth

/-- A site at the lexeme ahead. -/
theorem cons {s : Site} (h : Finds sites ls r) : Finds (s :: sites) (s.lexeme :: ls) r := by
  obtain ⟨taken, rfl, hsites⟩ := h
  exact ⟨s.lexeme :: taken, rfl, hsites.cons_cons _⟩

theorem one (s : Site) (r : List Lexeme) : Finds [s] (s.lexeme :: r) r :=
  cons (of_ahead .nil)

end Finds

/-- Readers of this depth find the sites of what they read, among whatever surroundings. -/
structure Placed (n : Nat) : Prop where
  expr : ∀ {min e ls r}, readExpr n min ls = .ok (e, r) → ∀ s, Finds (exprSites s e) ls r
  operators : ∀ {min lhs e ls r}, readOperators n min lhs ls = .ok (e, r) →
    ∀ s, ∃ more, exprSites s e = exprSites s lhs ++ more ∧ Finds more ls r
  operand : ∀ {e ls r}, readOperand n ls = .ok (e, r) → ∀ s, Finds (exprSites s e) ls r
  atom : ∀ {e ls r}, readAtom n ls = .ok (e, r) → ∀ s, Finds (exprSites s e) ls r
  args : ∀ {done args ls r}, readArgs n done ls = .ok (args, r) →
    ∃ new, args = done.reverse ++ new ∧ ∀ s, Finds (argSites s new) ls r
  cond : ∀ {test body otherwise ls r}, readCond n ls = .ok ((test, body, otherwise), r) →
    ∀ s, Finds (exprSites s test ++ (blockSites s body ++ elseSites s otherwise)) ls r
  block : ∀ {body ls r}, readBlock n ls = .ok (body, r) → ∀ s, Finds (blockSites s body) ls r
  stmts : ∀ {inBlock done stmts ls r}, readStmts n inBlock done ls = .ok (stmts, r) →
    ∃ new, stmts = done.reverse ++ new ∧ ∀ s, Finds (stmtSites s new) ls r
  stmt : ∀ {stmt ls r}, readStmt n ls = .ok (stmt, r) → ∀ s, Finds (oneSites s stmt) ls r
  binding : ∀ {mutable p stmt ls r}, readBinding n mutable p ls = .ok (stmt, r) →
    ∀ s, Finds (oneSites s stmt) ls r

/-- Without depth nothing is read. -/
theorem placed_zero : Placed 0 where
  expr h := by cases h
  operators h := by cases h
  operand h := by cases h
  atom h := by cases h
  args h := by cases h
  cond h := by cases h
  block h := by cases h
  stmts h := by cases h
  stmt h := by cases h
  binding h := by cases h

namespace Placed

variable {n : Nat} (h : Placed n)

include h

theorem readExpr {min : Nat} {e : Expr} {ls r : List Lexeme}
    (he : Source.readExpr (n + 1) min ls = .ok (e, r)) (s : Surroundings) :
    Finds (exprSites s e) ls r := by
  unfold Source.readExpr at he
  cases ho : readOperand n ls with
  | error => rw [ho] at he; cases he
  | ok x =>
    obtain ⟨lhs, m⟩ := x
    rw [ho] at he
    obtain ⟨more, heq, hmore⟩ := h.operators he s
    rw [heq]
    exact (h.operand ho s).append hmore

theorem readOperators {min : Nat} {lhs e : Expr} {ls r : List Lexeme}
    (he : Source.readOperators (n + 1) min lhs ls = .ok (e, r)) (s : Surroundings) :
    ∃ more, exprSites s e = exprSites s lhs ++ more ∧ Finds more ls r := by
  unfold Source.readOperators at he
  split at he
  · next hsign =>
    cases hargs : readArgs n [] ls.tail with
    | error => rw [hargs] at he; cases he
    | ok x =>
      obtain ⟨args, m⟩ := x
      rw [hargs] at he
      obtain ⟨new, hargs', hnew⟩ := h.args hargs
      obtain rfl : args = new := by simpa using hargs'
      obtain ⟨more, heq, hmore⟩ := h.operators he s
      refine ⟨argSites s args ++ more, ?_, ((hnew s).after (ahead_of_nextSign? hsign)).append hmore⟩
      rw [heq]
      simp [exprSites]
  · next hsign =>
    split at he
    · next hop =>
      cases he
      exact ⟨[], (List.append_nil _).symm, .of_ahead .nil⟩
    · next op hop =>
      obtain ⟨hnext, -⟩ := Option.filter_eq_some_iff.1 hop
      cases hrhs : Source.readExpr n op.strength ls.tail with
      | error => rw [hrhs] at he; cases he
      | ok x =>
        obtain ⟨rhs, m⟩ := x
        rw [hrhs] at he
        dsimp only at he
        have hrest : Source.readOperators n min (.binary op lhs rhs lhs.pos) m = .ok (e, r) := by
          split at he
          · cases he
          · exact he
        obtain ⟨more, heq, hmore⟩ := h.operators hrest s
        refine ⟨exprSites s rhs ++ more, ?_,
          ((h.expr hrhs s).after (ahead_of_nextOperator? hnext)).append hmore⟩
        rw [heq]
        simp [exprSites]

theorem readOperand {e : Expr} {ls r : List Lexeme}
    (he : Source.readOperand (n + 1) ls = .ok (e, r)) (s : Surroundings) :
    Finds (exprSites s e) ls r := by
  unfold Source.readOperand at he
  split at he
  · next g p l =>
    split at he
    · next op hop =>
      cases ho : Source.readExpr n UnaryOp.strength l with
      | error => rw [ho] at he; cases he
      | ok x =>
        rw [ho] at he
        cases he
        exact (h.expr ho s).after (.one p)
    · exact h.atom he s
  · exact h.atom he s

theorem readAtom {e : Expr} {ls r : List Lexeme}
    (he : Source.readAtom (n + 1) ls = .ok (e, r)) (s : Surroundings) :
    Finds (exprSites s e) ls r := by
  unfold Source.readAtom at he
  split at he
  · next digits p l => cases he; exact .one ⟨s, .literal digits, p⟩ _
  · next raw p l => cases he; exact .of_ahead (.one p)
  · next name p l => cases he; exact .one ⟨s, .read name, p⟩ _
  · next p l => cases he; exact .of_ahead (.one p)
  · next p l => cases he; exact .of_ahead (.one p)
  · next p l => cases he; exact .of_ahead (.one p)
  · next p l =>
    cases hc : readCond n l with
    | error => rw [hc] at he; cases he
    | ok x =>
      rw [hc] at he
      cases he
      exact (h.cond hc s).after (.one p)
  · next p l =>
    cases hb : readBlock n (⟨.sign .lbrace, p⟩ :: l) with
    | error => rw [hb] at he; cases he
    | ok x =>
      rw [hb] at he
      cases he
      exact h.block hb s
  · next p l =>
    cases hi : Source.readExpr n 0 l with
    | error => rw [hi] at he; cases he
    | ok x =>
      obtain ⟨inner, m⟩ := x
      rw [hi] at he
      dsimp only at he
      cases hs : readSign .rparen m with
      | error => rw [hs] at he; cases he
      | ok y =>
        rw [hs] at he
        cases he
        exact ((h.expr hi s).after (.one p)).before (ahead_of_readSign hs)
  · cases he

theorem readArgs {done args : List Expr} {ls r : List Lexeme}
    (ha : Source.readArgs (n + 1) done ls = .ok (args, r)) :
    ∃ new, args = done.reverse ++ new ∧ ∀ s, Finds (argSites s new) ls r := by
  unfold Source.readArgs at ha
  split at ha
  · next hsign =>
    cases ha
    exact ⟨[], (List.append_nil _).symm, fun s => .of_ahead (ahead_of_nextSign? hsign)⟩
  · cases he : Source.readExpr n 0 ls with
    | error => rw [he] at ha; cases ha
    | ok x =>
      obtain ⟨arg, m⟩ := x
      rw [he] at ha
      dsimp only at ha
      split at ha
      · next hsign =>
        obtain ⟨new, rfl, hnew⟩ := h.args ha
        refine ⟨arg :: new, by simp, fun s => ?_⟩
        exact (h.expr he s).append ((hnew s).after (ahead_of_nextSign? hsign))
      · cases hs : readSign .rparen m with
        | error => rw [hs] at ha; cases ha
        | ok y =>
          rw [hs] at ha
          cases ha
          refine ⟨[arg], by simp, fun s => ?_⟩
          exact (h.expr he s).append (.of_ahead (ahead_of_readSign hs))

theorem readCond {test : Expr} {body : Block} {otherwise : Else} {ls r : List Lexeme}
    (hc : Source.readCond (n + 1) ls = .ok ((test, body, otherwise), r)) (s : Surroundings) :
    Finds (exprSites s test ++ (blockSites s body ++ elseSites s otherwise)) ls r := by
  unfold Source.readCond at hc
  cases he : Source.readExpr n 0 ls with
  | error => rw [he] at hc; cases hc
  | ok x =>
    obtain ⟨test', m⟩ := x
    rw [he] at hc
    dsimp only at hc
    cases hb : Source.readBlock n m with
    | error => rw [hb] at hc; cases hc
    | ok y =>
      obtain ⟨body', m'⟩ := y
      rw [hb] at hc
      dsimp only at hc
      split at hc
      · next q p l =>
        cases hrest : Source.readCond n l with
        | error => rw [hrest] at hc; cases hc
        | ok z =>
          rw [hrest] at hc
          cases hc
          exact (h.expr he s).append ((h.block hb s).append
            ((h.cond hrest s).after (.cons q (.one p))))
      · next q l _ =>
        cases hrest : Source.readBlock n l with
        | error => rw [hrest] at hc; cases hc
        | ok z =>
          rw [hrest] at hc
          cases hc
          exact (h.expr he s).append ((h.block hb s).append ((h.block hrest s).after (.one q)))
      · cases hc
        exact (h.expr he s).append ((h.block hb s).append (.of_ahead .nil))

theorem readBlock {body : Block} {ls r : List Lexeme}
    (hb : Source.readBlock (n + 1) ls = .ok (body, r)) (s : Surroundings) :
    Finds (blockSites s body) ls r := by
  unfold Source.readBlock at hb
  cases hl : readSign .lbrace ls with
  | error => rw [hl] at hb; cases hb
  | ok x =>
    obtain ⟨p, m⟩ := x
    rw [hl] at hb
    dsimp only at hb
    cases hs : Source.readStmts n true [] m with
    | error => rw [hs] at hb; cases hb
    | ok y =>
      obtain ⟨stmts, m'⟩ := y
      rw [hs] at hb
      dsimp only at hb
      cases hr : readSign .rbrace m' with
      | error => rw [hr] at hb; cases hb
      | ok z =>
        rw [hr] at hb
        cases hb
        obtain ⟨new, rfl, hnew⟩ := h.stmts hs
        exact ((hnew s.inBlock).after (ahead_of_readSign hl)).before (ahead_of_readSign hr)

theorem readStmts {inBlock : Bool} {done stmts : List Stmt} {ls r : List Lexeme}
    (hs : Source.readStmts (n + 1) inBlock done ls = .ok (stmts, r)) :
    ∃ new, stmts = done.reverse ++ new ∧ ∀ s, Finds (stmtSites s new) ls r := by
  unfold Source.readStmts at hs
  split_ifs at hs
  · cases hs
    exact ⟨[], (List.append_nil _).symm, fun s => .of_ahead .nil⟩
  · cases ho : Source.readStmt n ls with
    | error => rw [ho] at hs; cases hs
    | ok x =>
      obtain ⟨stmt, m⟩ := x
      rw [ho] at hs
      dsimp only at hs
      obtain ⟨new, rfl, hnew⟩ := h.stmts hs
      refine ⟨stmt :: new, by simp, fun s => (h.stmt ho s).append ?_⟩
      rcases skipSign_cases .semicolon m with heq | hskip
      · exact heq ▸ hnew _
      · exact (hnew _).after hskip

theorem readBinding {mutable : Bool} {p : Position} {stmt : Stmt} {ls r : List Lexeme}
    (hb : Source.readBinding (n + 1) mutable p ls = .ok (stmt, r)) (s : Surroundings) :
    Finds (oneSites s stmt) ls r := by
  unfold Source.readBinding at hb
  cases hi : readIdent ls with
  | error => rw [hi] at hb; cases hb
  | ok x =>
    obtain ⟨name, m⟩ := x
    rw [hi] at hb
    dsimp only at hb
    cases hs : readSign .assign m with
    | error => rw [hs] at hb; cases hb
    | ok y =>
      obtain ⟨q, m'⟩ := y
      rw [hs] at hb
      dsimp only at hb
      cases hv : Source.readExpr n 0 m' with
      | error => rw [hv] at hb; cases hb
      | ok z =>
        rw [hv] at hb
        cases hb
        exact ((h.expr hv s).after (ahead_of_readSign hs)).after (ahead_of_readIdent hi)

/-- A declaration is a site at its keyword. -/
theorem readFunc {p : Position} {stmt : Stmt} {l r : List Lexeme}
    (hf : Source.readStmt (n + 1) (⟨.keyword .kwFn, p⟩ :: l) = .ok (stmt, r)) (s : Surroundings) :
    Finds (oneSites s stmt) (⟨.keyword .kwFn, p⟩ :: l) r := by
  unfold Source.readStmt at hf
  dsimp only at hf
  cases hi : readIdent l with
  | error => rw [hi] at hf; cases hf
  | ok x =>
    obtain ⟨name, m⟩ := x
    rw [hi] at hf
    dsimp only at hf
    cases hl : readSign .lparen m with
    | error => rw [hl] at hf; cases hf
    | ok y =>
      obtain ⟨q, m'⟩ := y
      rw [hl] at hf
      dsimp only at hf
      cases hp : readParams [] m' with
      | error => rw [hp] at hf; cases hf
      | ok z =>
        obtain ⟨params, m''⟩ := z
        rw [hp] at hf
        dsimp only at hf
        cases hb : Source.readBlock n m'' with
        | error => rw [hb] at hf; cases hf
        | ok w =>
          rw [hb] at hf
          cases hf
          obtain ⟨new, ts, -, -, hparams⟩ := paramsFrom_of_readParams hp
          have hbody := (h.block hb (s.inBody name params)).after hparams
          exact .cons ((hbody.after (ahead_of_readSign hl)).after (ahead_of_readIdent hi))

theorem readStmt {stmt : Stmt} {ls r : List Lexeme}
    (hs : Source.readStmt (n + 1) ls = .ok (stmt, r)) (s : Surroundings) :
    Finds (oneSites s stmt) ls r := by
  unfold Source.readStmt at hs
  split at hs
  · next p l => exact (h.binding hs s).after (.one p)
  · next p l => exact (h.binding hs s).after (.one p)
  · next p l => exact h.readFunc hs s
  · next p l =>
    split_ifs at hs
    · cases he : Source.readExpr n 0 l with
      | error => rw [he] at hs; cases hs
      | ok x =>
        rw [he] at hs
        cases hs
        exact .cons (h.expr he s)
    · cases hs
      exact .one ⟨s, .ret, p⟩ _
  · next p l =>
    cases he : Source.readExpr n 0 l with
    | error => rw [he] at hs; cases hs
    | ok x =>
      obtain ⟨test, m⟩ := x
      rw [he] at hs
      dsimp only at hs
      cases hb : Source.readBlock n m with
      | error => rw [hb] at hs; cases hs
      | ok y =>
        rw [hb] at hs
        cases hs
        exact ((h.expr he s).append (h.block hb s)).after (.one p)
  · cases ht : Source.readExpr n 0 ls with
    | error => rw [ht] at hs; cases hs
    | ok x =>
      obtain ⟨target, m⟩ := x
      rw [ht] at hs
      dsimp only at hs
      split at hs
      · next ident p hsign =>
        cases hv : Source.readExpr n 0 m.tail with
        | error => rw [hv] at hs; cases hs
        | ok y =>
          rw [hv] at hs
          cases hs
          -- the target is no site for itself, but the assignment is one at the same lexeme
          have htarget : Finds [⟨s, .assign (some ident), p⟩] ls m := h.expr ht s
          exact htarget.append ((h.expr hv s).after (ahead_of_nextSign? hsign))
      · cases hs
      · cases hs
        exact h.expr ht s

end Placed

/-- However deep they may go, the readers find the sites of what they read. -/
theorem placed (n : Nat) : Placed n := by
  induction n with
  | zero => exact placed_zero
  | succ n h =>
    exact ⟨h.readExpr, h.readOperators, h.readOperand, h.readAtom, h.readArgs, h.readCond,
      h.readBlock, h.readStmts, h.readStmt, h.readBinding⟩

/-! ## Fragments -/

/-- The sites of a fragment that is parsed stand at lexemes of its text, in their order. -/
theorem lexemes_of_parse {source : String} {f : Fragment} (h : Fragment.parse source = .ok f) :
    ∃ stream, lex source = .ok stream ∧
      ∀ s, ((stmtSites s f).map Site.lexeme).Sublist stream.lexemes := by
  unfold Fragment.parse parseWith at h
  cases hlex : lex source with
  | error => rw [hlex] at h; cases h
  | ok stream =>
    rw [hlex] at h
    dsimp only at h
    unfold parseFragment at h
    cases hs : readStmts (depthFor stream.lexemes) false [] stream.lexemes with
    | error => rw [hs] at h; cases h
    | ok x =>
      obtain ⟨stmts, r⟩ := x
      rw [hs] at h
      cases h
      obtain ⟨new, hnew, hfinds⟩ := (placed _).stmts hs
      refine ⟨stream, rfl, fun s => ?_⟩
      obtain ⟨taken, htaken, hsites⟩ := hfinds s
      rw [show stmts = new by simpa using hnew, htaken]
      exact hsites.trans (List.sublist_append_left taken r)

theorem sites_of_parse {source : String} {f : Fragment} (h : Fragment.parse source = .ok f)
    (s : Surroundings) : InOrder ((stmtSites s f).map Site.lexeme) := by
  obtain ⟨stream, hlex, hsub⟩ := lexemes_of_parse h
  have horder := inOrder_lex hlex
  exact ⟨horder.order.sublist (hsub s), fun l hl => horder.sound l ((hsub s).subset hl)⟩

end ScriptMachine.Scoping
