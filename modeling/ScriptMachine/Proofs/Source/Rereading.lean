import ScriptMachine.Proofs.Source.Climbing

/-!
# Printed fragments are parsed back

Printing a well-formed fragment and parsing the text gives the fragment again, but for the places of
its nodes: blocks, alternatives and statements are read back once the expressions in them are.
-/

namespace ScriptMachine.Source

/-! ## Blocks and alternatives -/

/-- A block is read back. -/
def Block.Reads (b : Block) : Prop :=
  ∀ {n : Nat} {ls r : List Lexeme}, Ahead b.tokens ls r → 8 * b.tokens.length ≤ n + 4 →
    ∃ b', readBlock n ls = .ok (b', r) ∧ b'.unplaced = b.unplaced

/-- After a test and a block an alternative is read back where no other one follows. -/
def Else.Reads (o : Else) : Prop :=
  ∀ {n : Nat} {ls l m r : List Lexeme} {test : Expr} {body : Block},
    readExpr n 0 ls = .ok (test, l) → readBlock n l = .ok (body, m) →
    Ahead o.tokens m r → 8 * o.tokens.length ≤ n → NoElse r →
    ∃ o', readCond (n + 1) ls = .ok ((test, body, o'), r) ∧ o'.unplaced = o.unplaced

/-- A test, a block and an alternative are read back together. -/
theorem readCond_ok {test : Expr} {body : Block} {otherwise : Else} (ht : test.Reads)
    (hb : body.Reads) (ho : otherwise.Reads) {n : Nat} {ls r : List Lexeme}
    (hls : Ahead (test.tokens ++ (body.tokens ++ otherwise.tokens)) ls r)
    (hn : 8 * (test.tokens ++ (body.tokens ++ otherwise.tokens)).length ≤ n) (hr : NoElse r) :
    ∃ test' body' otherwise', readCond n ls = .ok ((test', body', otherwise'), r) ∧
      test'.unplaced = test.unplaced ∧ body'.unplaced = body.unplaced ∧
        otherwise'.unplaced = otherwise.unplaced := by
  simp only [List.length_append] at hn
  have hpos := length_tokens_pos test
  have hbody : 2 ≤ body.tokens.length := by
    cases body
    simp [Block.tokens]
  obtain ⟨k, rfl⟩ : ∃ k, n = k + 1 := ⟨n - 1, by omega⟩
  obtain ⟨l, htest, hls⟩ := hls.of_append
  obtain ⟨m, hblock, helse⟩ := hls.of_append
  have hl : Closing l := by
    cases body
    rw [Block.tokens] at hblock
    cases hblock with
    | cons p hblock => exact .sign (by decide) rfl p _
  obtain ⟨test', heq, hsame⟩ := ht.closed htest (n := k) (by omega) hl
  obtain ⟨body', heq', hsame'⟩ := hb hblock (n := k) (by omega)
  obtain ⟨otherwise', heq'', hsame''⟩ := ho heq heq' helse (by omega) hr
  exact ⟨test', body', otherwise', heq'', hsame, hsame', hsame''⟩

theorem Else.reads_absent : Else.absent.Reads := by
  intro n ls l m r test body htest hbody hm _ hr
  cases hm
  refine ⟨.absent, ?_, rfl⟩
  conv => lhs; unfold readCond
  simp only [htest, hbody]
  split
  · exact absurd rfl (hr _ _)
  · exact absurd rfl (hr _ _)
  · rfl

theorem Else.reads_block {b : Block} (hb : b.Reads) : (Else.block b).Reads := by
  intro n ls l m r test body htest hbody hm hn _
  rw [Else.tokens] at hm hn
  rw [List.length_cons] at hn
  cases hm with
  | cons p hm =>
    obtain ⟨b', heq, hsame⟩ := hb hm (n := n) (by omega)
    refine ⟨.block b', ?_, ?_⟩
    · conv => lhs; unfold readCond
      simp only [htest, hbody]
      split
      · next hif =>
        -- a block begins with a brace, not with `if`
        cases b
        rw [Block.tokens] at hm
        cases hm
        cases hif
      · next hif =>
        cases hif
        simp only [heq]
      · next hno =>
        exact absurd rfl (hno _ _)
    · rw [Else.unplaced, Else.unplaced, hsame]

theorem Else.reads_elseIf {test : Expr} {body : Block} {otherwise : Else} {p : Position}
    (ht : test.Reads) (hb : body.Reads) (ho : otherwise.Reads) :
    (Else.elseIf test body otherwise p).Reads := by
  intro n ls l m r test₀ body₀ htest hbody hm hn hr
  rw [Else.tokens] at hm hn
  simp only [List.length_cons] at hn
  cases hm with
  | cons q hm =>
    cases hm with
    | cons q' hm =>
      obtain ⟨test', body', otherwise', heq, hsame, hsame', hsame''⟩ :=
        readCond_ok ht hb ho hm (n := n) (by omega) hr
      refine ⟨.elseIf test' body' otherwise' q', ?_, ?_⟩
      · conv => lhs; unfold readCond
        simp only [htest, hbody, heq]
      · rw [Else.unplaced, Else.unplaced, hsame, hsame', hsame'']

theorem Expr.reads_cond {test : Expr} {body : Block} {otherwise : Else} {p : Position}
    (ht : test.Reads) (hb : body.Reads) (ho : otherwise.Reads) :
    (Expr.cond test body otherwise p).Reads := by
  intro n min ls r hls hn _ hbefore
  rw [Expr.tokens] at hls hn ⊢
  rw [List.length_cons] at hn ⊢
  cases hls with
  | cons q hls =>
    obtain ⟨k, rfl⟩ : ∃ k, n = k + 3 := ⟨n - 3, by omega⟩
    obtain ⟨test', body', otherwise', heq, hsame, hsame', hsame''⟩ :=
      readCond_ok ht hb ho hls (n := k) (by omega) hbefore.noElse
    refine ⟨.cond test' body' otherwise' q, k + 2, readExpr_atom ?_ ?_, ?_, by omega⟩
    · rintro g p' l ⟨⟩
    · rw [readAtom]
      simp only [heq]
    · rw [Expr.unplaced, Expr.unplaced, hsame, hsame', hsame'']

theorem Expr.reads_block {b : Block} (hb : b.Reads) : (Expr.block b).Reads := by
  intro n min ls r hls hn _ _
  rw [Expr.tokens] at hls hn ⊢
  obtain ⟨stmts, p⟩ := b
  obtain ⟨k, rfl⟩ : ∃ k, n = k + 3 := ⟨n - 3, by
    simp only [Block.tokens, List.length_cons] at hn
    omega⟩
  obtain ⟨b', heq, hsame⟩ := hb hls (n := k) (by omega)
  rw [Block.tokens] at hls
  cases hls with
  | cons q hls =>
    refine ⟨.block b', k + 2, readExpr_atom ?_ ?_, ?_, ?_⟩
    · rintro g p' l ⟨⟩
      rfl
    · rw [readAtom]
      simp only [heq]
    · rw [Expr.unplaced, Expr.unplaced, hsame]
    · simp only [Block.tokens, List.length_cons]
      omega

/-! ## Statements -/

/-- A statement is read back before a semicolon. -/
def Stmt.Reads (s : Stmt) : Prop :=
  ∀ {n : Nat} {ls r : List Lexeme} {p : Position},
    Ahead s.tokens ls (⟨.sign .semicolon, p⟩ :: r) → 8 * s.tokens.length + 8 ≤ n →
    ∃ s', readStmt n ls = .ok (s', ⟨.sign .semicolon, p⟩ :: r) ∧ s'.unplaced = s.unplaced

/-- Statements are read back up to the end of the text or of the block. -/
def StmtsRead (stmts : List Stmt) : Prop :=
  ∀ (inBlock : Bool) (done : List Stmt) {n : Nat} {ls r : List Lexeme},
    Ahead (stmtTokens stmts) ls r → 8 * (stmtTokens stmts).length + 1 ≤ n →
    (r.isEmpty || (inBlock && nextSign? r == some .rbrace)) = true →
    ∃ stmts', readStmts n inBlock done ls = .ok (done.reverse ++ stmts', r) ∧
      unplacedStmts stmts' = unplacedStmts stmts

/-- No statement begins with a closing brace. -/
theorem Stmt.tokens_head (s : Stmt) :
    ∃ t ts, s.tokens = t :: ts ∧ t ≠ .sign .rbrace := by
  have hexpr : ∀ (e : Expr) (us : List Token),
      ∃ t ts, e.tokens ++ us = t :: ts ∧ t ≠ .sign .rbrace := by
    intro e us
    obtain ⟨t, ts, heq, hstart⟩ := startsExpr_tokens e
    refine ⟨t, ts ++ us, by rw [heq]; rfl, ?_⟩
    rintro rfl
    cases hstart
  cases s with
  | bind mutable name value p => exact ⟨_, _, rfl, by simp⟩
  | assign target value p => exact hexpr target _
  | func name params body p => exact ⟨_, _, rfl, by simp⟩
  | retNil p => exact ⟨_, _, rfl, by simp⟩
  | ret value p => exact ⟨_, _, rfl, by simp⟩
  | loop test body p => exact ⟨_, _, rfl, by simp⟩
  | expr e => simpa [Stmt.tokens] using hexpr e []

/-- What begins as an expression does is an assignment or an expression. -/
theorem readStmt_expr {n : Nat} {t : Token} {p : Position} {l : List Lexeme}
    (hstart : startsExpr t = true) :
    readStmt (n + 1) (⟨t, p⟩ :: l) =
      match readExpr n 0 (⟨t, p⟩ :: l) with
      | .error e => .error e
      | .ok (target, r) =>
        match nextSign? r, target with
        | some .assign, .name ident p =>
          match readExpr n 0 r.tail with
          | .error e => .error e
          | .ok (value, r) => .ok (.assign (.name ident p) value p, r)
        | some .assign, _ => .error (.invalidTarget target.pos)
        | _, _ => .ok (.expr target, r) := by
  conv => lhs; unfold readStmt
  split
  case h_6 => rfl
  all_goals
    next hkeyword =>
      cases hkeyword
      cases hstart

theorem Stmt.reads_expr {e : Expr} (h : e.Reads) : (Stmt.expr e).Reads := by
  intro n ls r p hls hn
  rw [Stmt.tokens] at hls hn
  obtain ⟨k, rfl⟩ : ∃ k, n = k + 1 := ⟨n - 1, by omega⟩
  obtain ⟨e', heq, hsame⟩ := h.closed hls (n := k) (by omega) (.sign (by decide) rfl p r)
  refine ⟨.expr e', ?_, ?_⟩
  · obtain ⟨t, ts, htokens, hstart⟩ := startsExpr_tokens e
    rw [htokens] at hls
    cases hls with
    | cons q hls =>
      rw [readStmt_expr hstart, heq]
      rfl
  · rw [Stmt.unplaced, Stmt.unplaced, hsame]

theorem Stmt.reads_assign {ident : String} {q : Position} {value : Expr} {q' : Position}
    (h : value.Reads) : (Stmt.assign (.name ident q) value q').Reads := by
  intro n ls r p hls hn
  rw [Stmt.tokens, Expr.tokens] at hls hn
  simp only [List.length_append, List.length_cons] at hn
  obtain ⟨k, rfl⟩ : ∃ k, n = k + 4 := ⟨n - 4, by omega⟩
  cases hls with
  | cons u hls =>
    cases hls with
    | @cons _ _ v l _ hls =>
      obtain ⟨value', heq, hsame⟩ := h.closed hls (n := k + 3) (by omega)
        (.sign (by decide) rfl p r)
      have hname : readExpr (k + 3) 0 (⟨.ident ident, u⟩ :: ⟨.sign .assign, v⟩ :: l) =
          .ok (.name ident u, ⟨.sign .assign, v⟩ :: l) := by
        rw [readExpr_atom (by rintro g p' l' ⟨⟩) (by rw [readAtom])]
        exact readOperators_stop (by simp [nextSign?]) rfl
      refine ⟨.assign (.name ident u) value' u, ?_, ?_⟩
      · rw [readStmt_expr rfl, hname]
        simp only [nextSign?, List.tail_cons, heq]
      · simp only [Stmt.unplaced, Expr.unplaced, hsame]

theorem Stmt.reads_bind {mutable : Bool} {name : String} {value : Expr} {q : Position}
    (h : value.Reads) : (Stmt.bind mutable name value q).Reads := by
  intro n ls r p hls hn
  rw [Stmt.tokens] at hls hn
  simp only [List.length_cons] at hn
  obtain ⟨k, rfl⟩ : ∃ k, n = k + 2 := ⟨n - 2, by omega⟩
  cases hls with
  | cons u hls =>
    cases hls with
    | cons v hls =>
      cases hls with
      | @cons _ _ w l _ hls =>
        obtain ⟨value', heq, hsame⟩ := h.closed hls (n := k) (by omega)
          (.sign (by decide) rfl p r)
        refine ⟨.bind mutable name value' u, ?_, ?_⟩
        · have hbinding : readBinding (k + 1) mutable u
              (⟨.ident name, v⟩ :: ⟨.sign .assign, w⟩ :: l) =
                .ok (.bind mutable name value' u, ⟨.sign .semicolon, p⟩ :: r) := by
            simp only [readBinding, readIdent, readSign, if_true, heq]
          cases mutable <;> exact hbinding
        · rw [Stmt.unplaced, Stmt.unplaced, hsame]

theorem Stmt.reads_retNil {q : Position} : (Stmt.retNil q).Reads := by
  intro n ls r p hls hn
  rw [Stmt.tokens] at hls hn
  obtain ⟨k, rfl⟩ : ∃ k, n = k + 1 := ⟨n - 1, by omega⟩
  cases hls with
  | cons u hls =>
    cases hls
    refine ⟨.retNil u, ?_, rfl⟩
    rw [readStmt]
    rfl

theorem Stmt.reads_ret {value : Expr} {q : Position} (h : value.Reads) :
    (Stmt.ret value q).Reads := by
  intro n ls r p hls hn
  rw [Stmt.tokens] at hls hn
  rw [List.length_cons] at hn
  obtain ⟨k, rfl⟩ : ∃ k, n = k + 1 := ⟨n - 1, by omega⟩
  cases hls with
  | @cons _ _ u l _ hls =>
    obtain ⟨value', heq, hsame⟩ := h.closed hls (n := k) (by omega) (.sign (by decide) rfl p r)
    refine ⟨.ret value' u, ?_, ?_⟩
    · have hstart : (l.head?.any fun t => startsExpr t.token) = true := by
        obtain ⟨t, ts, htokens, hstart⟩ := startsExpr_tokens value
        rw [htokens] at hls
        cases hls
        exact hstart
      rw [readStmt, if_pos hstart]
      simp only [heq]
    · rw [Stmt.unplaced, Stmt.unplaced, hsame]

theorem Stmt.reads_loop {test : Expr} {body : Block} {q : Position} (ht : test.Reads)
    (hb : body.Reads) : (Stmt.loop test body q).Reads := by
  intro n ls r p hls hn
  rw [Stmt.tokens] at hls hn
  simp only [List.length_cons, List.length_append] at hn
  obtain ⟨k, rfl⟩ : ∃ k, n = k + 1 := ⟨n - 1, by omega⟩
  cases hls with
  | cons u hls =>
    obtain ⟨l, htest, hbody⟩ := hls.of_append
    have hl : Closing l := by
      cases body
      rw [Block.tokens] at hbody
      cases hbody with
      | cons v hbody => exact .sign (by decide) rfl v _
    obtain ⟨test', heq, hsame⟩ := ht.closed htest (n := k) (by omega) hl
    obtain ⟨body', heq', hsame'⟩ := hb hbody (n := k) (by omega)
    refine ⟨.loop test' body' u, ?_, ?_⟩
    · rw [readStmt]
      simp only [heq, heq']
    · rw [Stmt.unplaced, Stmt.unplaced, hsame, hsame']

/-- Parameters are read back up to and with the parenthesis that closes them. -/
theorem readParams_tokens (params done : List String) {us : List Token} {ls r : List Lexeme}
    (hls : Ahead (paramTokens params ++ .sign .rparen :: us) ls r) :
    ∃ m, readParams done ls = .ok (done.reverse ++ params, m) ∧ Ahead us m r := by
  induction params generalizing done ls with
  | nil =>
    cases hls with
    | cons p hls => exact ⟨_, by rw [readParams, List.append_nil], hls⟩
  | cons name rest ih =>
    cases rest with
    | nil =>
      cases hls with
      | cons p hls =>
        cases hls with
        | cons q hls => exact ⟨_, by simp [readParams, readSign], hls⟩
    | cons next rest =>
      cases hls with
      | cons p hls =>
        cases hls with
        | cons q hls =>
          obtain ⟨m, heq, hm⟩ := ih (name :: done) hls
          refine ⟨m, ?_, hm⟩
          rw [readParams, heq]
          simp

theorem Stmt.reads_func {name : String} {params : List String} {body : Block} {q : Position}
    (hb : body.Reads) : (Stmt.func name params body q).Reads := by
  intro n ls r p hls hn
  rw [Stmt.tokens] at hls hn
  simp only [List.length_cons, List.length_append] at hn
  obtain ⟨k, rfl⟩ : ∃ k, n = k + 1 := ⟨n - 1, by omega⟩
  cases hls with
  | cons u hls =>
    cases hls with
    | cons v hls =>
      cases hls with
      | cons w hls =>
        obtain ⟨m, hparams, hbody⟩ := readParams_tokens params [] hls
        obtain ⟨body', heq, hsame⟩ := hb hbody (n := k) (by omega)
        refine ⟨.func name params body' u, ?_, ?_⟩
        · rw [readStmt]
          simp only [readIdent, readSign, if_true, hparams, heq]
          rfl
        · rw [Stmt.unplaced, Stmt.unplaced, hsame]

theorem stmtsRead_nil : StmtsRead [] := by
  intro inBlock done n ls r hls hn hr
  cases hls
  obtain ⟨k, rfl⟩ : ∃ k, n = k + 1 := ⟨n - 1, by omega⟩
  refine ⟨[], ?_, rfl⟩
  rw [readStmts, if_pos hr, List.append_nil]

theorem stmtsRead_cons {s : Stmt} {rest : List Stmt} (hs : s.Reads) (hrest : StmtsRead rest) :
    StmtsRead (s :: rest) := by
  intro inBlock done n ls r hls hn hr
  rw [stmtTokens] at hls hn
  simp only [List.length_append, List.length_cons] at hn
  obtain ⟨k, rfl⟩ : ∃ k, n = k + 1 := ⟨n - 1, by omega⟩
  have hgo : (ls.isEmpty || (inBlock && nextSign? ls == some .rbrace)) = false := by
    obtain ⟨t, ts, htokens, ht⟩ := s.tokens_head
    rw [htokens] at hls
    cases hls with
    | cons p hls => cases t <;> simp_all [nextSign?]
  obtain ⟨m, hfirst, hmore⟩ := hls.of_append
  cases hmore with
  | cons p hmore =>
    obtain ⟨s', heq, hsame⟩ := hs hfirst (n := k) (by omega)
    obtain ⟨rest', heq', hsame'⟩ := hrest inBlock (s' :: done) hmore (n := k) (by omega) hr
    refine ⟨s' :: rest', ?_, ?_⟩
    · rw [readStmts, hgo]
      simp only [heq]
      simpa [skipSign] using heq'
    · rw [unplacedStmts, unplacedStmts, hsame, hsame']

theorem Block.reads_mk {stmts : List Stmt} {p : Position} (h : StmtsRead stmts) :
    (Block.mk stmts p).Reads := by
  intro n ls r hls hn
  rw [Block.tokens] at hls hn
  simp only [List.length_cons, List.length_append, List.length_nil] at hn
  obtain ⟨k, rfl⟩ : ∃ k, n = k + 1 := ⟨n - 1, by omega⟩
  cases hls with
  | cons u hls =>
    obtain ⟨l, hstmts, hclose⟩ := hls.of_append
    cases hclose with
    | cons v hclose =>
      cases hclose
      obtain ⟨stmts', heq, hsame⟩ := h true [] hstmts (n := k) (by omega)
        (by simp [nextSign?])
      refine ⟨.mk stmts' u, ?_, ?_⟩
      · rw [readBlock]
        simp only [readSign, if_true, heq]
        rfl
      · rw [Block.unplaced, Block.unplaced, hsame]

/-! ## Whole trees -/

mutual

theorem Expr.reads : (e : Expr) → e.wellFormed = true → e.Reads
  | .number digits _, _ =>
    Expr.reads_leaf (.number digits) rfl (by simp) (fun _ => rfl) fun _ _ _ => by rw [readAtom]
  | .text raw _, _ =>
    Expr.reads_leaf (.text raw) rfl (by simp) (fun _ => rfl) fun _ _ _ => by rw [readAtom]
  | .name ident _, _ =>
    Expr.reads_leaf (.name ident) rfl (by simp) (fun _ => rfl) fun _ _ _ => by rw [readAtom]
  | .bool true _, _ =>
    Expr.reads_leaf (.bool true) rfl (by simp) (fun _ => rfl) fun _ _ _ => by rw [readAtom]
  | .bool false _, _ =>
    Expr.reads_leaf (.bool false) rfl (by simp) (fun _ => rfl) fun _ _ _ => by rw [readAtom]
  | .nil _, _ =>
    Expr.reads_leaf .nil rfl (by simp) (fun _ => rfl) fun _ _ _ => by rw [readAtom]
  | .binary _ lhs rhs _, h => by
    simp only [Expr.wellFormed, Bool.and_eq_true] at h
    exact Expr.reads_binary (Expr.reads lhs h.1) (Expr.reads rhs h.2)
  | .unary _ operand _, h => Expr.reads_unary (Expr.reads operand h)
  | .call callee args _, h => by
    simp only [Expr.wellFormed, Bool.and_eq_true] at h
    exact Expr.reads_call (Expr.reads callee h.1) (argsRead args h.2)
  | .cond test body otherwise _, h => by
    simp only [Expr.wellFormed, Bool.and_eq_true] at h
    exact Expr.reads_cond (Expr.reads test h.1.1) (Block.reads body h.1.2) (Else.reads otherwise h.2)
  | .block body, h => Expr.reads_block (Block.reads body h)

theorem argsRead : (args : List Expr) → allWellFormed args = true → ArgsRead args
  | [], _ => argsRead_nil
  | e :: rest, h => by
    simp only [allWellFormed, Bool.and_eq_true] at h
    exact argsRead_cons (Expr.reads e h.1) (argsRead rest h.2)

theorem Else.reads : (o : Else) → o.wellFormed = true → o.Reads
  | .absent, _ => Else.reads_absent
  | .block body, h => Else.reads_block (Block.reads body h)
  | .elseIf test body otherwise _, h => by
    simp only [Else.wellFormed, Bool.and_eq_true] at h
    exact Else.reads_elseIf (Expr.reads test h.1.1) (Block.reads body h.1.2) (Else.reads otherwise h.2)

theorem Stmt.reads : (s : Stmt) → s.wellFormed = true → s.Reads
  | .bind _ _ value _, h => by
    simp only [Stmt.wellFormed, Bool.and_eq_true] at h
    exact Stmt.reads_bind (Expr.reads value h.2)
  | .assign (.name _ _) value _, h => by
    simp only [Stmt.wellFormed, Bool.and_eq_true] at h
    exact Stmt.reads_assign (Expr.reads value h.2)
  | .func _ _ body _, h => by
    simp only [Stmt.wellFormed, Bool.and_eq_true] at h
    exact Stmt.reads_func (Block.reads body h.2)
  | .retNil _, _ => Stmt.reads_retNil
  | .ret value _, h => Stmt.reads_ret (Expr.reads value h)
  | .loop test body _, h => by
    simp only [Stmt.wellFormed, Bool.and_eq_true] at h
    exact Stmt.reads_loop (Expr.reads test h.1) (Block.reads body h.2)
  | .expr e, h => Stmt.reads_expr (Expr.reads e h)

theorem stmtsRead : (stmts : List Stmt) → stmtsWellFormed stmts = true → StmtsRead stmts
  | [], _ => stmtsRead_nil
  | s :: rest, h => by
    simp only [stmtsWellFormed, Bool.and_eq_true] at h
    exact stmtsRead_cons (Stmt.reads s h.1) (stmtsRead rest h.2)

theorem Block.reads : (b : Block) → b.wellFormed = true → b.Reads
  | .mk stmts _, h => Block.reads_mk (stmtsRead stmts h)

end

/-- A printed fragment is parsed back to the fragment, but for the places of its nodes. -/
theorem parse_print {f : Fragment} (h : stmtsWellFormed f = true) :
    ∃ g, Fragment.parse f.print = .ok g ∧ unplacedStmts g = unplacedStmts f := by
  obtain ⟨stream, hlex, htokens⟩ := lex_print h
  have hahead : Ahead (stmtTokens f) stream.lexemes [] := htokens ▸ .of_map stream.lexemes
  have hlength : (stmtTokens f).length = stream.lexemes.length := by
    rw [← htokens, List.length_map]
  obtain ⟨g, hread, hsame⟩ := stmtsRead f h false [] hahead
    (n := depthFor stream.lexemes) (by rw [depthFor]; omega) rfl
  refine ⟨g, ?_, hsame⟩
  rw [Fragment.parse, parseWith, hlex]
  simp only [parseFragment, hread]
  rfl

/-- A fragment with operands that need parentheses and others that do not. -/
def groupedOperands : Fragment :=
  let x := Expr.name "x" .start
  let one := Expr.number "1" .start
  let difference := Expr.binary .sub one (.binary .sub x one .start) .start
  let body := Block.mk [.ret (.unary .neg difference .start) .start] .start
  [.func "f" ["x"] body .start,
   .assign x (.call (.cond (.binary .lt x one .start) body (.elseIf x body .absent .start) .start)
     [.binary .mul (.unary .neg x .start) difference .start, .text "a\\n" .start] .start) .start]

example : groupedOperands.print =
    "fn f ( x ) { return - ( 1 - ( x - 1 ) ) ; } ; " ++
    "x = if x < 1 { return - ( 1 - ( x - 1 ) ) ; } else if x { return - ( 1 - ( x - 1 ) ) ; } " ++
    "( - x * ( 1 - ( x - 1 ) ) , \"a\\n\" ) ;" := by
  decide +kernel

theorem groupedOperands_parse : stmtsWellFormed groupedOperands = true ∧
    ∃ g, Fragment.parse groupedOperands.print = .ok g ∧
      unplacedStmts g = unplacedStmts groupedOperands :=
  have h : stmtsWellFormed groupedOperands = true := by decide
  ⟨h, parse_print h⟩

end ScriptMachine.Source
