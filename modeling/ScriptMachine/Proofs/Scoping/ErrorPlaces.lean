import ScriptMachine.Proofs.Scoping.Acceptance
import ScriptMachine.Proofs.Source.EarliestErrors
import ScriptMachine.Proofs.Source.Spans

/-!
# Where errors are reported

An error of the compiler that names a place names a place of the text: the place of one of its
characters, or the one after the last of them. The lexer reports a place that it has moved to, the
parser the place of a lexeme or the end of the text, and the rules on names the place of a site, which
is a lexeme of the text too.
-/

namespace ScriptMachine.Source

/-! ## Places that are moved to -/

/-- Where some beginning of the text `s` ends, if the text begins at `p`. -/
def ReachedIn (p : Position) (s : List Char) (q : Position) : Prop :=
  ∃ before, before <+: s ∧ q = p.after before

namespace ReachedIn

variable {p q : Position} {c : Char} {s : List Char}

theorem start (p : Position) (s : List Char) : ReachedIn p s p :=
  ⟨[], List.nil_prefix, rfl⟩

theorem cons (h : ReachedIn (p.next c) s q) : ReachedIn p (c :: s) q := by
  obtain ⟨before, hbefore, rfl⟩ := h
  exact ⟨c :: before, (List.prefix_cons_inj c).2 hbefore, rfl⟩

theorem append (t : List Char) (h : ReachedIn (p.after t) s q) : ReachedIn p (t ++ s) q := by
  obtain ⟨before, hbefore, rfl⟩ := h
  exact ⟨t ++ before, (List.prefix_append_right_inj t).2 hbefore, by rw [Position.after_append]⟩

end ReachedIn

/-- An unclosed comment is reported where it was opened. -/
theorem reachedIn_of_skipGap {g : Gap} {p : Position} {s : List Char} {e : SyntaxError}
    (h : skipGap g p s = .error e) : g = .block e.pos ∨ ReachedIn p s e.pos := by
  fun_induction skipGap g p s with
  | case1 p s ih =>
    rcases ih h with hblock | hreached
    · cases hblock
    · exact .inr hreached.cons.cons
  | case2 p s ih =>
    rcases ih h with hblock | hreached
    · cases hblock
      exact .inr (.start _ _)
    · exact .inr hreached.cons.cons
  | case3 p c s _ _ _ ih =>
    rcases ih h with hblock | hreached
    · cases hblock
    · exact .inr hreached.cons
  | case4 => cases h
  | case5 p s ih =>
    rcases ih h with hblock | hreached
    · cases hblock
    · exact .inr hreached.cons
  | case6 p c s _ ih =>
    rcases ih h with hblock | hreached
    · cases hblock
    · exact .inr hreached.cons
  | case7 o p s ih =>
    rcases ih h with hblock | hreached
    · cases hblock
    · exact .inr hreached.cons.cons
  | case8 o p c s _ ih => exact (ih h).imp id .cons
  | case9 o p =>
    cases h
    exact .inl rfl
  | case10 => cases h

/-- A fault of a string is reported at its opening quote or inside of it. -/
theorem reachedIn_of_readContents {o : Position} {done s : List Char} {e : SyntaxError}
    (h : readContents o done s = .error e) : ReachedIn o ('"' :: (done.reverse ++ s)) e.pos := by
  fun_induction readContents o done s with
  | case1 => cases h; exact .start _ _
  | case2 => cases h
  | case3 => cases h; exact .start _ _
  | case4 done c s _ ih => simpa using ih h
  | case5 done c s _ =>
    cases h
    exact ⟨_, ⟨c :: s, by simp⟩, rfl⟩
  | case6 done c s _ _ _ ih => simpa using ih h

theorem reachedIn_of_readToken {p : Position} {c : Char} {r : List Char} {e : SyntaxError}
    (h : readToken p c r = .error e) : ReachedIn p (c :: r) e.pos := by
  unfold readToken at h
  split_ifs at h with hdigit hword hquote
  · split at h
    · next he =>
      cases h
      exact hquote ▸ reachedIn_of_readContents he
    · cases h
  · split at h
    · cases h
      exact .start _ _
    · cases h

/-- A text that does not consist of tokens is refused at a place that it has. -/
theorem reachedIn_of_lexFrom {done : List Lexeme} {p : Position} {s : List Char} {e : SyntaxError}
    (h : lexFrom done p s = .error e) : ReachedIn p s e.pos := by
  induction hn : s.length using Nat.strongRecOn generalizing done p s with
  | ind n ih =>
    rw [lexFrom_eq] at h
    cases hgap : skipGap .blank p s with
    | error e' =>
      rw [hgap] at h
      cases h
      exact (reachedIn_of_skipGap hgap).resolve_left nofun
    | ok x =>
      obtain ⟨q, rest⟩ := x
      have hshorter := length_le_of_skipGap hgap
      rw [hgap] at h
      obtain ⟨gap, rfl, rfl, -⟩ := isGap_of_skipGap hgap
      cases rest with
      | nil => cases h
      | cons c r =>
        dsimp only at h
        refine .append gap ?_
        cases htoken : readToken (p.after gap) c r with
        | error e' =>
          rw [htoken] at h
          cases h
          exact reachedIn_of_readToken htoken
        | ok t =>
          rw [htoken] at h
          have hshort := rest_length_lt_of_readToken htoken
          rw [← text_append_rest_of_readToken htoken]
          exact .append t.text (ih _ (by omega) h rfl)

/-! ## Lexemes that are ahead -/

section

variable {ls r : List Lexeme} {p : Position}

/-- What stands at a lexeme that is ahead later stands at one that is ahead. -/
theorem mem_places_of_suffix (h : r <:+ ls) (hp : p ∈ r.map Lexeme.pos) :
    p ∈ ls.map Lexeme.pos :=
  (h.map Lexeme.pos).subset hp

theorem suffix_of_ahead {ts : List Token} (h : Ahead ts ls r) : r <:+ ls := by
  obtain ⟨taken, rfl, -⟩ := h.taken
  exact List.suffix_append taken r

theorem suffix_of_skipSign (g : Sign) (ls : List Lexeme) : skipSign g ls <:+ ls := by
  rcases skipSign_cases g ls with heq | hahead
  · rw [heq]
  · exact suffix_of_ahead hahead

theorem suffix_of_readExpr {n min : Nat} {e : Expr} (h : readExpr n min ls = .ok (e, r)) :
    r <:+ ls := by
  obtain ⟨taken, rfl, -⟩ := (spanning n).expr h
  exact List.suffix_append taken r

theorem suffix_of_readBlock {n : Nat} {body : Block} (h : readBlock n ls = .ok (body, r)) :
    r <:+ ls := by
  obtain ⟨taken, rfl, -⟩ := (spanning n).block h
  exact List.suffix_append taken r

theorem BeginsAt.mem_places (h : BeginsAt p ls) : p ∈ ls.map Lexeme.pos := by
  induction h with
  | here => exact List.mem_cons_self
  | grouped _ ih => exact List.mem_cons_of_mem _ ih

/-- Where an expression is read, its place is that of a lexeme. -/
theorem mem_places_of_readExpr {n min : Nat} {e : Expr} (h : readExpr n min ls = .ok (e, r)) :
    e.pos ∈ ls.map Lexeme.pos := by
  obtain ⟨taken, rfl, hover⟩ := (spanning n).expr h
  exact (hover.beginsAt.append r).mem_places

theorem readSign_ne_invalidTarget (g : Sign) (ls : List Lexeme) :
    readSign g ls ≠ .error (.invalidTarget p) := by
  unfold readSign refuse
  split
  · split_ifs <;> nofun
  · nofun

theorem readIdent_ne_invalidTarget (ls : List Lexeme) :
    readIdent ls ≠ .error (.invalidTarget p) := by
  unfold readIdent refuse
  split <;> nofun

theorem readParams_ne_invalidTarget (done : List String) (ls : List Lexeme) :
    readParams done ls ≠ .error (.invalidTarget p) := by
  fun_induction readParams done ls with
  | case1 => rintro ⟨⟩
  | case2 _ _ _ _ _ ih => exact ih
  | case3 _ _ _ _ _ _ he =>
    rintro ⟨⟩
    exact readSign_ne_invalidTarget _ _ he
  | case4 => rintro ⟨⟩
  | case5 => rintro ⟨⟩

end

/-- Readers of this depth that refuse a target refuse one that is ahead. -/
structure Aiming (n : Nat) : Prop where
  expr : ∀ {min ls p}, readExpr n min ls = .error (.invalidTarget p) → p ∈ ls.map Lexeme.pos
  operators : ∀ {min lhs ls p}, readOperators n min lhs ls = .error (.invalidTarget p) →
    p ∈ ls.map Lexeme.pos
  operand : ∀ {ls p}, readOperand n ls = .error (.invalidTarget p) → p ∈ ls.map Lexeme.pos
  atom : ∀ {ls p}, readAtom n ls = .error (.invalidTarget p) → p ∈ ls.map Lexeme.pos
  args : ∀ {done ls p}, readArgs n done ls = .error (.invalidTarget p) → p ∈ ls.map Lexeme.pos
  cond : ∀ {ls p}, readCond n ls = .error (.invalidTarget p) → p ∈ ls.map Lexeme.pos
  block : ∀ {ls p}, readBlock n ls = .error (.invalidTarget p) → p ∈ ls.map Lexeme.pos
  stmts : ∀ {inBlock done ls p}, readStmts n inBlock done ls = .error (.invalidTarget p) →
    p ∈ ls.map Lexeme.pos
  stmt : ∀ {ls p}, readStmt n ls = .error (.invalidTarget p) → p ∈ ls.map Lexeme.pos
  binding : ∀ {mutable q ls p}, readBinding n mutable q ls = .error (.invalidTarget p) →
    p ∈ ls.map Lexeme.pos

/-- Without depth only an expression is missed. -/
theorem aiming_zero : Aiming 0 where
  expr h := by cases h
  operators h := by cases h
  operand h := by cases h
  atom h := by cases h
  args h := by cases h
  cond h := by cases h
  block h := by cases h
  stmts h := by cases h
  stmt h := by cases h
  binding h := by cases h

namespace Aiming

variable {n : Nat} {ls : List Lexeme} {p : Position} (h : Aiming n)

include h

theorem readExpr {min : Nat} (he : Source.readExpr (n + 1) min ls = .error (.invalidTarget p)) :
    p ∈ ls.map Lexeme.pos := by
  unfold Source.readExpr at he
  split at he
  · next ho => cases he; exact h.operand ho
  · next lhs r ho =>
    obtain ⟨taken, rfl, -⟩ := (spanning n).operand ho
    exact mem_places_of_suffix (List.suffix_append taken r) (h.operators he)

theorem readOperators {min : Nat} {lhs : Expr}
    (he : Source.readOperators (n + 1) min lhs ls = .error (.invalidTarget p)) :
    p ∈ ls.map Lexeme.pos := by
  have htail := List.tail_suffix ls
  unfold Source.readOperators at he
  split at he
  · split at he
    · next ha => cases he; exact mem_places_of_suffix htail (h.args ha)
    · next args r ha =>
      obtain ⟨-, taken, q, -, hls, -⟩ := (spanning n).args ha
      have hr : r <:+ ls.tail := hls ▸ ((List.suffix_cons _ r).trans (List.suffix_append taken _))
      exact mem_places_of_suffix (hr.trans htail) (h.operators he)
  · split at he
    · cases he
    · split at he
      · next hrhs => cases he; exact mem_places_of_suffix htail (h.expr hrhs)
      · next rhs r hrhs =>
        have hr := (suffix_of_readExpr hrhs).trans htail
        split at he
        · cases he
        · exact mem_places_of_suffix hr (h.operators he)

theorem readOperand (he : Source.readOperand (n + 1) ls = .error (.invalidTarget p)) :
    p ∈ ls.map Lexeme.pos := by
  unfold Source.readOperand at he
  split at he
  · next g q r =>
    split at he
    · split at he
      · next ho => cases he; exact List.mem_cons_of_mem _ (h.expr ho)
      · cases he
    · exact h.atom he
  · exact h.atom he

theorem readAtom (he : Source.readAtom (n + 1) ls = .error (.invalidTarget p)) :
    p ∈ ls.map Lexeme.pos := by
  unfold Source.readAtom at he
  split at he
  case h_7 =>
    split at he
    · next hc => cases he; exact List.mem_cons_of_mem _ (h.cond hc)
    · cases he
  case h_8 =>
    split at he
    · next hb => cases he; exact h.block hb
    · cases he
  case h_9 =>
    split at he
    · next hi => cases he; exact List.mem_cons_of_mem _ (h.expr hi)
    · split at he
      · next hclose => cases he; exact absurd hclose (readSign_ne_invalidTarget _ _)
      · cases he
  all_goals cases he

theorem readArgs {done : List Expr}
    (he : Source.readArgs (n + 1) done ls = .error (.invalidTarget p)) :
    p ∈ ls.map Lexeme.pos := by
  unfold Source.readArgs at he
  split at he
  · cases he
  · split at he
    · next ha => cases he; exact h.expr ha
    · next arg r ha =>
      have hr := suffix_of_readExpr ha
      split at he
      · exact mem_places_of_suffix ((List.tail_suffix r).trans hr) (h.args he)
      · split at he
        · next hclose => cases he; exact absurd hclose (readSign_ne_invalidTarget _ _)
        · cases he

theorem readCond (he : Source.readCond (n + 1) ls = .error (.invalidTarget p)) :
    p ∈ ls.map Lexeme.pos := by
  unfold Source.readCond at he
  split at he
  · next ht => cases he; exact h.expr ht
  · next test m ht =>
    have hm := suffix_of_readExpr ht
    split at he
    · next hb => cases he; exact mem_places_of_suffix hm (h.block hb)
    · next body r hb =>
      have hr := (suffix_of_readBlock hb).trans hm
      split at he
      · next q q' r' =>
        have hr' : r' <:+ ls := ((List.suffix_cons _ _).trans (List.suffix_cons _ _)).trans hr
        split at he
        · next hc => cases he; exact mem_places_of_suffix hr' (h.cond hc)
        · cases he
      · next q r' _ =>
        have hr' : r' <:+ ls := (List.suffix_cons _ _).trans hr
        split at he
        · next hb' => cases he; exact mem_places_of_suffix hr' (h.block hb')
        · cases he
      · cases he

theorem readBlock (he : Source.readBlock (n + 1) ls = .error (.invalidTarget p)) :
    p ∈ ls.map Lexeme.pos := by
  unfold Source.readBlock at he
  split at he
  · next hopen => cases he; exact absurd hopen (readSign_ne_invalidTarget _ _)
  · next q r hopen =>
    rw [eq_of_readSign hopen]
    split at he
    · next hs => cases he; exact List.mem_cons_of_mem _ (h.stmts hs)
    · split at he
      · next hclose => cases he; exact absurd hclose (readSign_ne_invalidTarget _ _)
      · cases he

theorem readStmts {inBlock : Bool} {done : List Stmt}
    (he : Source.readStmts (n + 1) inBlock done ls = .error (.invalidTarget p)) :
    p ∈ ls.map Lexeme.pos := by
  unfold Source.readStmts at he
  split at he
  · cases he
  · split at he
    · next hs => cases he; exact h.stmt hs
    · next stmt r hs =>
      obtain ⟨taken, rfl, -⟩ := (spanning n).stmt hs
      have hr := (suffix_of_skipSign .semicolon r).trans (List.suffix_append taken r)
      exact mem_places_of_suffix hr (h.stmts he)

theorem readBinding {mutable : Bool} {q : Position}
    (he : Source.readBinding (n + 1) mutable q ls = .error (.invalidTarget p)) :
    p ∈ ls.map Lexeme.pos := by
  unfold Source.readBinding at he
  split at he
  · next hname => cases he; exact absurd hname (readIdent_ne_invalidTarget _)
  · next name m hname =>
    have hm := suffix_of_ahead (ahead_of_readIdent hname)
    split at he
    · next hassign => cases he; exact absurd hassign (readSign_ne_invalidTarget _ _)
    · next q' r hassign =>
      have hr := (suffix_of_ahead (ahead_of_readSign hassign)).trans hm
      split at he
      · next hv => cases he; exact mem_places_of_suffix hr (h.expr hv)
      · cases he

theorem readStmt (he : Source.readStmt (n + 1) ls = .error (.invalidTarget p)) :
    p ∈ ls.map Lexeme.pos := by
  unfold Source.readStmt at he
  split at he
  · exact List.mem_cons_of_mem _ (h.binding he)
  · exact List.mem_cons_of_mem _ (h.binding he)
  · next q r =>
    split at he
    · next hname => cases he; exact absurd hname (readIdent_ne_invalidTarget _)
    · next name m hname =>
      have hm := suffix_of_ahead (ahead_of_readIdent hname)
      split at he
      · next hopen => cases he; exact absurd hopen (readSign_ne_invalidTarget _ _)
      · next q' m' hopen =>
        have hm' := (suffix_of_ahead (ahead_of_readSign hopen)).trans hm
        split at he
        · next hparams => cases he; exact absurd hparams (readParams_ne_invalidTarget _ _)
        · next params r' hparams =>
          obtain ⟨-, ps, q'', -, -, rfl⟩ := eq_of_readParams hparams
          have hr' : r' <:+ r :=
            ((List.suffix_cons _ r').trans (List.suffix_append ps _)).trans hm'
          split at he
          · next hb =>
            cases he
            exact List.mem_cons_of_mem _ (mem_places_of_suffix hr' (h.block hb))
          · cases he
  · split at he
    · split at he
      · next hv => cases he; exact List.mem_cons_of_mem _ (h.expr hv)
      · cases he
    · cases he
  · next q r =>
    split at he
    · next ht => cases he; exact List.mem_cons_of_mem _ (h.expr ht)
    · next test m ht =>
      have hm := suffix_of_readExpr ht
      split at he
      · next hb => cases he; exact List.mem_cons_of_mem _ (mem_places_of_suffix hm (h.block hb))
      · cases he
  · split at he
    · next ht => cases he; exact h.expr ht
    · next target r ht =>
      have hr := suffix_of_readExpr ht
      split at he
      · split at he
        · next hv =>
          cases he
          exact mem_places_of_suffix ((List.tail_suffix r).trans hr) (h.expr hv)
        · cases he
      · -- the target that is refused is the expression that was read
        cases he
        exact mem_places_of_readExpr ht
      · cases he

end Aiming

/-- However deep they may go, readers that refuse a target refuse one that is ahead. -/
theorem aiming (n : Nat) : Aiming n := by
  induction n with
  | zero => exact aiming_zero
  | succ n h =>
    exact ⟨h.readExpr, h.readOperators, h.readOperand, h.readAtom, h.readArgs, h.readCond,
      h.readBlock, h.readStmts, h.readStmt, h.readBinding⟩

/-! ## Texts -/

/-- Where some beginning of a text ends. -/
def IsPlaceOf (s : List Char) (p : Position) : Prop :=
  ReachedIn .start s p

theorem isPlaceOf_lexeme {source : String} {stream : TokenStream} (h : lex source = .ok stream)
    {p : Position} (hp : p ∈ stream.lexemes.map Lexeme.pos ++ [stream.stop]) :
    IsPlaceOf source.toList p := by
  rcases List.mem_append.1 hp with hp | hp
  · obtain ⟨l, hl, rfl⟩ := List.mem_map.1 hp
    obtain ⟨earlier, later, hls⟩ := List.append_of_mem hl
    obtain ⟨before, text, rest, hstands, hpos⟩ := (places_of_lex h).1 earlier l later hls
    refine ⟨before, ⟨text ++ rest, hstands.text_eq.symm⟩, ?_⟩
    rw [hpos, start_after]
  · refine ⟨source.toList, List.prefix_refl _, ?_⟩
    rw [List.mem_singleton.1 hp, (places_of_lex h).2, start_after]

/-- A refusal is reported at a lexeme or at the end. -/
theorem place_of_refusal {ls : List Lexeme} {e : Refusal}
    (h : readStmts (depthFor ls) false [] ls = .error e) (stop : Position) :
    (e.toSyntaxError stop).pos ∈ ls.map Lexeme.pos ++ [stop] := by
  by_cases htarget : ∃ p, e = .invalidTarget p
  · obtain ⟨p, rfl⟩ := htarget
    exact List.mem_append_left _ ((aiming _).stmts h)
  · obtain ⟨taken, r, -, -, rfl, hat, -, -⟩ := stuck_of_readStmts h
    have hplace : (r.head?.map Lexeme.pos).getD stop = (e.toSyntaxError stop).pos := by
      refine hat.place_eq ?_
      cases e with
      | invalidTarget p => exact absurd ⟨p, rfl⟩ htarget
      | expected | chainedComparison => nofun
    rw [← hplace]
    cases r with
    | nil => simp
    | cons l r => simp

/-- A text that holds no fragment is refused at a place that it has. -/
theorem isPlaceOf_syntaxError {source : String} {e : SyntaxError}
    (h : Fragment.parse source = .error e) : IsPlaceOf source.toList e.pos := by
  cases hlex : lex source with
  | error e' =>
    rw [Fragment.parse, parseWith, hlex] at h
    cases h
    exact reachedIn_of_lexFrom hlex
  | ok stream =>
    rw [parse_eq hlex] at h
    cases hs : readStmts (depthFor stream.lexemes) false [] stream.lexemes with
    | ok x =>
      rw [hs] at h
      cases h
    | error refusal =>
      rw [hs] at h
      cases h
      exact isPlaceOf_lexeme hlex (place_of_refusal hs stream.stop)

end ScriptMachine.Source

namespace ScriptMachine.Scoping

open Source Compile

/-- The sites of a fragment stand at lexemes of its text. -/
theorem isPlaceOf_site {source : String} {f : Fragment} (h : Fragment.parse source = .ok f)
    {around : Surroundings} {s : Site} (hs : s ∈ stmtSites around f) :
    IsPlaceOf source.toList s.pos := by
  obtain ⟨stream, hlex, hread⟩ := eq_ok_of_parseWith h
  unfold parseFragment at hread
  cases hstmts : readStmts (depthFor stream.lexemes) false [] stream.lexemes with
  | error =>
    rw [hstmts] at hread
    cases hread
  | ok x =>
    obtain ⟨stmts, r⟩ := x
    rw [hstmts] at hread
    cases hread
    obtain ⟨new, hnew, hfinds⟩ := (placed _).stmts hstmts
    obtain rfl : stmts = new := by simpa using hnew
    obtain ⟨taken, htaken, hsites⟩ := hfinds around
    have hlexeme : s.lexeme ∈ stream.lexemes := by
      rw [htaken]
      exact List.mem_append_left _ (hsites.subset (List.mem_map_of_mem hs))
    exact isPlaceOf_lexeme hlex
      (List.mem_append_left _ (List.mem_map_of_mem (f := Lexeme.pos) hlexeme))

/-- What a rule reports, it reports at the site. -/
theorem Site.Offends.pos_eq {s : Site} {e : CompileError} (h : s.Offends e) {p : Position}
    (hp : e.pos? = some p) : p = s.pos := by
  cases h <;> cases hp <;> rfl

theorem IsLimit.pos?_eq_none {e : CompileError} (h : IsLimit e) : e.pos? = none := by
  cases e <;> first | rfl | exact absurd h id

/-- An error of the compiler that names a place names one that the text has. -/
theorem isPlaceOf_compileError {names : Names} {source : String} {e : CompileError}
    (h : compile names source = .error e) {p : Position} (hp : e.pos? = some p) :
    IsPlaceOf source.toList p := by
  unfold compile at h
  cases hf : Fragment.parse source with
  | error e' =>
    rw [hf] at h
    cases h
    cases hp
    exact isPlaceOf_syntaxError hf
  | ok f =>
    rw [hf] at h
    have horder : InOrder ((stmtSites (.start names) f).map Site.lexeme) := sites_of_parse hf _
    have hdigits : Numeral (stmtSites (.start names) f) := fun s hs digits huse =>
      horder.sound _ (List.mem_map_of_mem hs) digits (by rw [Site.lexeme, huse]; rfl)
    rcases (compileFragment_checks names hdigits).2 e h with hlimit | hoffence
    · rw [hlimit.pos?_eq_none] at hp
      cases hp
    · obtain ⟨before, s, after, hsites, -, hs⟩ := hoffence
      have hmem : s ∈ stmtSites (.start names) f := by simp [hsites]
      rw [hs.pos_eq hp]
      exact isPlaceOf_site hf hmem

end ScriptMachine.Scoping
