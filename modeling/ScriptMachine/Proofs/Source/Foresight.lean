import ScriptMachine.Proofs.Source.Prediction
import ScriptMachine.Proofs.Source.Spans

/-!
# Readers and the machine

What a reader takes, the machine takes for the goals of that reader. Where the reader goes on, so does
the machine; where it refuses a lexeme, the machine is stuck before that lexeme.
-/

namespace ScriptMachine.Source

/-! ## What is ahead -/

/-- The token ahead. -/
def aheadOf (ls : List Lexeme) : Option Token :=
  ls.head?.map Lexeme.token

theorem aheadOf_append (taken r : List Lexeme) :
    aheadOf (taken ++ r) = (taken.map Lexeme.token).head?.or (aheadOf r) := by
  cases taken <;> rfl

theorem aheadOf_ne {t : Token} {ls : List Lexeme} (h : ∀ p r, ls = ⟨t, p⟩ :: r → False) :
    aheadOf ls ≠ some t := by
  intro hahead
  obtain _ | ⟨⟨t', p⟩, r⟩ := ls
  · cases hahead
  · cases hahead
    exact h p r rfl

theorem nextSign?_eq (ls : List Lexeme) : nextSign? ls = signOf? (aheadOf ls) := by
  cases ls with
  | nil => rfl
  | cons l r =>
    obtain ⟨t, p⟩ := l
    cases t <;> rfl

theorem nextOperator?_eq (ls : List Lexeme) : nextOperator? ls = operatorOf? (aheadOf ls) := by
  rw [nextOperator?, nextSign?_eq]
  rfl

theorem eq_of_nextSign? {g : Sign} {ls : List Lexeme} (h : nextSign? ls = some g) :
    ∃ p r, ls = ⟨.sign g, p⟩ :: r := by
  obtain ⟨p, hls⟩ := (ahead_of_nextSign? h).single
  exact ⟨p, _, hls⟩

/-- An expression that may be assigned to. -/
def Expr.isTarget : Expr → Bool
  | .name _ _ => true
  | _ => false

/-- A refusal is reported at what is ahead; for a target that is not a name the target is. -/
def Refusal.At (r : List Lexeme) : Refusal → Prop
  | .expected _ found => found = r.head?
  | .chainedComparison found => r.head? = some found
  | .invalidTarget _ => True

/-! ## Results that the machine comes to -/

/-- A reader takes what the machine takes for these goals, and hands back something of which `P`
holds; or it refuses the lexeme before which the machine is stuck. -/
def Foreseen {α : Type} (goals : List Goal) (named : Bool) (ls : List Lexeme)
    (P : α → Bool → Prop) : Parsed α → Prop
  | .ok (x, r) => ∃ taken named', ls = taken ++ r ∧ P x named' ∧
      ∀ gs, Moves (goals ++ gs) named (taken.map Lexeme.token) (aheadOf r) gs named'
  | .error e => ∃ taken r gs' named', ls = taken ++ r ∧ e.At r ∧ Stuck gs' named' (aheadOf r) ∧
      ∀ gs, Moves (goals ++ gs) named (taken.map Lexeme.token) (aheadOf r) (gs' ++ gs) named'

namespace Foreseen

variable {α β : Type} {g : Goal} {new goals first rest : List Goal} {named named₁ : Bool}
  {l : Lexeme} {ls r : List Lexeme} {P : α → Bool → Prop} {Q : β → Bool → Prop}
  {result : Parsed α} {e : Refusal} {x : α}

theorem done (h : P x named) : Foreseen [] named ls P (.ok (x, ls)) :=
  ⟨[], named, rfl, h, fun _ => .here⟩

/-- What is foreseen after some lexemes is foreseen with them, where the machine takes them first. -/
theorem after (before : List Lexeme) (h : Foreseen new named₁ r P result)
    (hbefore : ∀ taken r' gs gs' named', r = taken ++ r' →
      Moves (new ++ gs) named₁ (taken.map Lexeme.token) (aheadOf r') gs' named' →
      Moves (goals ++ gs) named ((before ++ taken).map Lexeme.token) (aheadOf r') gs' named') :
    Foreseen goals named (before ++ r) P result := by
  cases result with
  | error e =>
    obtain ⟨taken, r', gs', named', rfl, he, hstuck, hmoves⟩ := h
    exact ⟨before ++ taken, r', gs', named', (List.append_assoc ..).symm, he, hstuck,
      fun gs => hbefore taken r' gs _ _ rfl (hmoves gs)⟩
  | ok y =>
    obtain ⟨taken, named', rfl, hP, hmoves⟩ := h
    exact ⟨before ++ taken, named', (List.append_assoc ..).symm, hP,
      fun gs => hbefore taken _ gs _ _ rfl (hmoves gs)⟩

theorem turn (hmove : g.move named (aheadOf ls) = .turn new named₁)
    (h : Foreseen (new ++ goals) named₁ ls P result) : Foreseen (g :: goals) named ls P result := by
  refine h.after [] fun taken r gs gs' named' hls hmoves => ?_
  rw [hls, aheadOf_append] at hmove
  rw [List.append_assoc] at hmoves
  exact .turn hmove hmoves

theorem take (hmove : g.move named (some l.token) = .take new named₁)
    (h : Foreseen (new ++ goals) named₁ r P result) :
    Foreseen (g :: goals) named (l :: r) P result := by
  refine h.after [l] fun taken r' gs gs' named' _ hmoves => ?_
  rw [List.append_assoc] at hmoves
  exact .take hmove hmoves

theorem stuck (hmove : g.move named (aheadOf ls) = .stuck) (he : e.At ls) :
    Foreseen (g :: goals) named ls P (.error e) :=
  ⟨[], ls, g :: goals, named, rfl, he, ⟨g, _, rfl, hmove⟩, fun _ => .here⟩

theorem length_le (h : Foreseen goals named ls P (.ok (x, r))) : r.length ≤ ls.length := by
  obtain ⟨taken, -, rfl, -⟩ := h
  rw [List.length_append]
  exact Nat.le_add_left _ _

/-- One reader after another. -/
theorem bind {whole : Parsed β} (h : Foreseen first named ls P result)
    (herror : ∀ e, result = .error e → whole = .error e)
    (hok : ∀ x r named', result = .ok (x, r) → r.length ≤ ls.length → P x named' →
      Foreseen rest named' r Q whole) : Foreseen (first ++ rest) named ls Q whole := by
  cases result with
  | error e =>
    obtain ⟨taken, r, gs', named', rfl, he, ⟨g, below, rfl, hstuck⟩, hmoves⟩ := h
    rw [herror e rfl]
    refine ⟨taken, r, g :: below ++ rest, named', rfl, he, ⟨g, _, rfl, hstuck⟩, fun gs => ?_⟩
    rw [List.append_assoc, List.append_assoc]
    exact hmoves (rest ++ gs)
  | ok y =>
    obtain ⟨x, r⟩ := y
    have hlength := h.length_le
    obtain ⟨taken, named', rfl, hP, hmoves⟩ := h
    have hrest := hok x r named' rfl hlength hP
    refine hrest.after taken fun taken' r' gs gs' named'' hr hmoves' => ?_
    rw [hr, aheadOf_append] at hmoves
    rw [List.map_append, List.append_assoc]
    exact (hmoves (rest ++ gs)).trans hmoves'

end Foreseen

/-! ## Readers of single lexemes -/

section

variable {ls : List Lexeme} {named : Bool} {g : Goal}

/-- A sign is taken for every goal that takes it and fits nothing else. -/
theorem foreseen_readSign_of_move {s : Sign}
    (htake : g.move named (some (.sign s)) = .take [] named)
    (hstuck : nextSign? ls ≠ some s → g.move named (aheadOf ls) = .stuck) :
    Foreseen [g] named ls (fun _ named' => named' = named) (readSign s ls) := by
  by_cases hs : nextSign? ls = some s
  · obtain ⟨p, r, rfl⟩ := eq_of_nextSign? hs
    rw [readSign, if_pos rfl]
    exact .take htake (.done rfl)
  · have hrefuse : readSign s ls = refuse (.sign s) ls := by
      unfold readSign
      split
      · next g' p r => exact if_neg fun hg => hs (congrArg some hg)
      · rfl
    rw [hrefuse]
    exact .stuck (hstuck hs) rfl

theorem foreseen_readSign {s : Sign} (named : Bool) :
    Foreseen [.sign s] named ls (fun _ named' => named' = named) (readSign s ls) := by
  refine foreseen_readSign_of_move (if_pos rfl) fun hs => if_neg fun hahead => hs ?_
  rw [nextSign?_eq, hahead]
  rfl

theorem foreseen_readIdent (named : Bool) :
    Foreseen [.ident] named ls (fun _ named' => named' = named) (readIdent ls) := by
  obtain _ | ⟨⟨t, p⟩, r⟩ := ls
  · exact .stuck rfl rfl
  · cases t with
    | ident name => exact .take rfl (.done rfl)
    | _ => exact .stuck rfl rfl

/-- After an item of a list comes a comma or the end of the list. -/
theorem move_more (hcomma : nextSign? ls ≠ some .comma) (hclose : nextSign? ls ≠ some .rparen)
    (named : Bool) : Goal.moreParams.move named (aheadOf ls) = .stuck ∧
      Goal.moreArgs.move named (aheadOf ls) = .stuck := by
  rw [nextSign?_eq] at hcomma hclose
  constructor <;>
  · rw [Goal.move]
    split
    · next h => exact absurd h hcomma
    · next h => exact absurd h hclose
    · rfl

theorem foreseen_readParams (done : List String) (named : Bool) :
    Foreseen [.params] named ls (fun _ _ => True) (readParams done ls) := by
  have hclose : ∀ r, (∀ p r', r ≠ ⟨.sign .comma, p⟩ :: r') →
      Foreseen [.moreParams] named r (fun _ named' => named' = named) (readSign .rparen r) := by
    intro r hcomma
    have hnext : nextSign? r ≠ some .comma := fun h => by
      obtain ⟨p, r', hr⟩ := eq_of_nextSign? h
      exact hcomma p r' hr
    exact foreseen_readSign_of_move rfl fun hclose => (move_more hnext hclose named).1
  fun_induction readParams done ls with
  | case1 done p r => exact .take rfl (.done trivial)
  | case2 done name p q r ih => exact .take rfl (.take rfl ih)
  | case3 done name p r hcomma e he =>
    have hread := hclose r hcomma
    rw [he] at hread
    exact .take rfl hread
  | case4 done name p r hcomma q r' he =>
    have hread := hclose r hcomma
    rw [he] at hread
    obtain ⟨taken, named', hr, -, hmoves⟩ := hread
    exact .take rfl ⟨taken, named', hr, trivial, hmoves⟩
  | case5 done ls hrparen _ hident =>
    refine .stuck ?_ rfl
    rw [Goal.move]
    · exact aheadOf_ne hrparen
    · exact fun name => aheadOf_ne (hident name)

end

/-! ## Readers -/

/-- The machine knows whether the expression that was read last is a name. -/
def Expr.Told (e : Expr) (named : Bool) : Prop :=
  named = e.isTarget

/-- With this depth, the readers are foreseen on so many lexemes; the bounds are those that a reader
leaves to the next one before a lexeme is taken. -/
structure Foresees (n : Nat) : Prop where
  expr : ∀ min ls named, 8 * ls.length + 4 ≤ n →
    Foreseen [.expr min] named ls Expr.Told (readExpr n min ls)
  operators : ∀ min lhs ls, 8 * ls.length + 1 ≤ n →
    Foreseen [.operators min] lhs.isTarget ls Expr.Told (readOperators n min lhs ls)
  operand : ∀ ls named, 8 * ls.length + 3 ≤ n →
    Foreseen [.operand] named ls Expr.Told (readOperand n ls)
  atom : ∀ ls named, 8 * ls.length + 2 ≤ n →
    (∀ g, nextSign? ls = some g → UnaryOp.ofSign? g = none) →
    Foreseen [.operand] named ls Expr.Told (readAtom n ls)
  args : ∀ done ls named, 8 * ls.length + 5 ≤ n →
    Foreseen [.args] named ls (fun _ _ => True) (readArgs n done ls)
  cond : ∀ ls named, 8 * ls.length + 5 ≤ n →
    Foreseen [.expr 0, .block, .alternative] named ls (fun _ _ => True) (readCond n ls)
  block : ∀ ls named, 8 * ls.length + 1 ≤ n →
    Foreseen [.block] named ls (fun _ _ => True) (readBlock n ls)
  stmts : ∀ inBlock done ls named, 8 * ls.length + 6 ≤ n →
    Foreseen [.stmts inBlock] named ls (fun _ _ => True) (readStmts n inBlock done ls)
  stmt : ∀ ls named, 8 * ls.length + 5 ≤ n →
    Foreseen [.stmt] named ls (fun _ _ => True) (readStmt n ls)
  binding : ∀ mutable p ls named, 8 * ls.length + 1 ≤ n →
    Foreseen [.ident, .sign .assign, .expr 0] named ls (fun _ _ => True)
      (readBinding n mutable p ls)

/-- No depth at all is not enough for any lexemes. -/
theorem foresees_zero : Foresees 0 := by
  constructor <;> intros <;> omega

namespace Foresees

variable {n : Nat} {ls : List Lexeme} {named : Bool}

theorem readExpr (h : Foresees n) {min : Nat} (hn : 8 * ls.length + 4 ≤ n + 1) :
    Foreseen [.expr min] named ls Expr.Told (Source.readExpr (n + 1) min ls) := by
  unfold Source.readExpr
  refine .turn rfl ((h.operand ls named (by omega)).bind (fun e he => by rw [he])
    fun lhs r named' he hr htold => ?_)
  rw [he, htold]
  exact h.operators min lhs r (by omega)

/-- After the right operand of a comparison no other comparison is taken. -/
theorem guarded (h : Foresees n) {min : Nat} {op : BinaryOp} {lhs rhs : Expr} :
    8 * ls.length + 1 ≤ n → Foreseen (guardOf op ++ [.unnamed, .operators min]) named ls Expr.Told
      (match op.isComparison && (nextOperator? ls).any BinaryOp.isComparison, ls with
      | true, found :: _ => .error (.chainedComparison found)
      | _, _ => Source.readOperators n min (.binary op lhs rhs lhs.pos) ls) := by
  intro hn
  have hrest : Foreseen [.unnamed, .operators min] named ls Expr.Told
      (Source.readOperators n min (.binary op lhs rhs lhs.pos) ls) :=
    .turn rfl (h.operators min (.binary op lhs rhs lhs.pos) ls hn)
  unfold guardOf
  cases op.isComparison with
  | false => exact hrest
  | true =>
    rw [Bool.true_and]
    cases hnext : (nextOperator? ls).any BinaryOp.isComparison with
    | false =>
      have hmove : Goal.unchained.move named (aheadOf ls) = .turn [] named := by
        rw [Goal.move, ← nextOperator?_eq, hnext, if_neg Bool.false_ne_true]
      exact .turn hmove hrest
    | true =>
      obtain _ | ⟨found, r⟩ := ls
      · cases hnext
      · refine .stuck ?_ rfl
        rw [Goal.move, ← nextOperator?_eq, hnext, if_pos rfl]

/-- The move for what follows an operand, where no call follows. -/
theorem move_operators (min : Nat) (named : Bool) (hcall : nextSign? ls ≠ some .lparen) :
    (Goal.operators min).move named (aheadOf ls) =
      match tighterOperator? min ls with
      | some op => .take (.expr op.strength :: (guardOf op ++ [.unnamed, .operators min])) named
      | none => .turn [] named := by
  rw [nextSign?_eq] at hcall
  rw [tighterOperator?, nextOperator?_eq, Goal.move]
  split
  · next hcall' => exact absurd hcall' hcall
  · rfl

theorem readOperators (h : Foresees n) {min : Nat} {lhs : Expr} (hn : 8 * ls.length + 1 ≤ n + 1) :
    Foreseen [.operators min] lhs.isTarget ls Expr.Told
      (Source.readOperators (n + 1) min lhs ls) := by
  unfold Source.readOperators
  split
  · next hcall =>
    obtain ⟨p, r, rfl⟩ := eq_of_nextSign? hcall
    rw [List.length_cons] at hn
    rw [List.tail_cons]
    refine .take rfl ((h.args [] r _ (by omega)).bind (fun e he => by rw [he])
      fun args r' named' he hr _ => ?_)
    rw [he]
    exact .turn rfl (h.operators min (.call lhs args lhs.pos) r' (by omega))
  · next hcall =>
    have hmove := move_operators min lhs.isTarget hcall
    split
    · next hop =>
      rw [hop] at hmove
      exact .turn hmove (.done rfl)
    · next op hop =>
      rw [hop] at hmove
      obtain ⟨hnext, -⟩ := Option.filter_eq_some_iff.1 hop
      obtain ⟨p, r, rfl⟩ : ∃ p r, ls = ⟨.sign op.sign, p⟩ :: r := by
        obtain ⟨p, hls⟩ := (ahead_of_nextOperator? hnext).single
        exact ⟨p, _, hls⟩
      rw [List.length_cons] at hn
      refine .take hmove ?_
      rw [List.append_nil, List.tail_cons]
      refine (h.expr op.strength r _ (by omega)).bind (fun e he => by rw [he])
        fun rhs r' named' he hr _ => ?_
      rw [he]
      refine h.guarded ?_
      omega

theorem readOperand (h : Foresees n) (hn : 8 * ls.length + 3 ≤ n + 1) :
    Foreseen [.operand] named ls Expr.Told (Source.readOperand (n + 1) ls) := by
  unfold Source.readOperand
  split
  · next g p r =>
    rw [List.length_cons] at hn
    split
    · next op hop =>
      obtain rfl : g = op.sign := UnaryOp.eq_sign_of_ofSign? hop
      have hmove : Goal.operand.move named (some (.sign op.sign)) =
          .take [.expr UnaryOp.strength, .unnamed] named := by
        cases op <;> rfl
      refine .take hmove ((h.expr _ r named (by omega)).bind (fun e he => by rw [he])
        fun operand r' named' he _ _ => ?_)
      rw [he]
      exact .turn rfl (.done rfl)
    · next hop =>
      refine h.atom _ named (by rw [List.length_cons]; omega) fun g' hg => ?_
      cases hg
      exact hop
  · next hls =>
    refine h.atom ls named (by omega) fun g hg => ?_
    obtain ⟨p, r, hls'⟩ := eq_of_nextSign? hg
    exact absurd hls' (hls g p r)

theorem readAtom (h : Foresees n) (hn : 8 * ls.length + 2 ≤ n + 1)
    (hunary : ∀ g, nextSign? ls = some g → UnaryOp.ofSign? g = none) :
    Foreseen [.operand] named ls Expr.Told (Source.readAtom (n + 1) ls) := by
  obtain _ | ⟨⟨t, p⟩, r⟩ := ls
  · exact .stuck rfl rfl
  rw [List.length_cons] at hn
  unfold Source.readAtom
  cases t with
  | integer | text | ident => exact .take rfl (.done rfl)
  | keyword k =>
    cases k with
    | kwTrue | kwFalse | kwNil => exact .take rfl (.done rfl)
    | kwIf =>
      refine .take rfl ((h.cond r named (by omega)).bind
        (fun e he => by simp only [he]) fun cond r' named' he _ _ => ?_)
      simp only [he]
      exact .turn rfl (.done rfl)
    | _ => exact .stuck rfl rfl
  | sign g =>
    cases g with
    | minus | not => cases hunary _ rfl
    | lbrace =>
      refine .turn rfl ((h.block _ named (by rw [List.length_cons]; omega)).bind
        (fun e he => by simp only [he]) fun body r' named' he _ _ => ?_)
      simp only [he]
      exact .turn rfl (.done rfl)
    | lparen =>
      refine .take rfl ((h.expr 0 r named (by omega)).bind (fun e he => by simp only [he])
        fun inner r' named' he _ htold => ?_)
      simp only [he]
      refine (foreseen_readSign named').bind (fun e he => by rw [he])
        fun q r'' named'' he' _ hsame => ?_
      rw [he', hsame]
      exact .done htold
    | _ => exact .stuck rfl rfl

theorem readArgs (h : Foresees n) {done : List Expr} (hn : 8 * ls.length + 5 ≤ n + 1) :
    Foreseen [.args] named ls (fun _ _ => True) (Source.readArgs (n + 1) done ls) := by
  unfold Source.readArgs
  split
  · next hend =>
    obtain ⟨p, r, rfl⟩ := eq_of_nextSign? hend
    exact .take rfl (.done trivial)
  · next hend =>
    have hmove : Goal.args.move named (aheadOf ls) = .turn [.expr 0, .moreArgs] named := by
      rw [nextSign?_eq] at hend
      rw [Goal.move]
      split
      · next hend' => exact absurd hend' hend
      · rfl
    refine .turn hmove ((h.expr 0 ls named (by omega)).bind (fun e he => by rw [he])
      fun arg r named' he hr _ => ?_)
    rw [he]
    dsimp only
    split
    · next hcomma =>
      obtain ⟨p, r', rfl⟩ := eq_of_nextSign? hcomma
      rw [List.length_cons] at hr
      exact .take rfl (h.args (arg :: done) r' named' (by omega))
    · next hcomma =>
      refine (foreseen_readSign_of_move rfl fun hclose =>
        (move_more hcomma hclose named').2).bind (fun e he => by rw [he])
        fun p r' named'' he' _ _ => ?_
      rw [he']
      exact .done trivial

/-- What comes after the block of a conditional. -/
theorem alternative (h : Foresees n) {test : Expr} {body : Block} :
    8 * ls.length + 1 ≤ n → Foreseen [.alternative] named ls (fun _ _ => True)
      (match ls with
      | ⟨.keyword .kwElse, _⟩ :: ⟨.keyword .kwIf, p⟩ :: r =>
        match Source.readCond n r with
        | .error e => .error e
        | .ok ((test', body', otherwise), r) =>
          .ok ((test, body, .elseIf test' body' otherwise p), r)
      | ⟨.keyword .kwElse, _⟩ :: r =>
        match Source.readBlock n r with
        | .error e => .error e
        | .ok (alternative, r) => .ok ((test, body, .block alternative), r)
      | r => .ok ((test, body, .absent), r) : Parsed (Expr × Block × Else)) := by
  intro hn
  split
  · next q p r =>
    simp only [List.length_cons] at hn
    refine .take rfl (.take rfl ((h.cond r named (by omega)).bind (fun e he => by rw [he])
      fun cond r' named' he _ _ => ?_))
    rw [he]
    exact .done trivial
  · next q r hif =>
    rw [List.length_cons] at hn
    have hmove : Goal.branch.move named (aheadOf r) = .turn [.block] named :=
      if_neg (aheadOf_ne hif)
    refine .take rfl (.turn hmove ((h.block r named (by omega)).bind (fun e he => by rw [he])
      fun body r' named' he _ _ => ?_))
    rw [he]
    exact .done trivial
  · next helse =>
    have hmove : Goal.alternative.move named (aheadOf ls) = .turn [] named :=
      if_neg (aheadOf_ne helse)
    exact .turn hmove (.done trivial)

theorem readCond (h : Foresees n) (hn : 8 * ls.length + 5 ≤ n + 1) :
    Foreseen [.expr 0, .block, .alternative] named ls (fun _ _ => True)
      (Source.readCond (n + 1) ls) := by
  unfold Source.readCond
  refine (h.expr 0 ls named (by omega)).bind (fun e he => by rw [he])
    fun test r named' he hr _ => ?_
  rw [he]
  refine (h.block r named' (by omega)).bind (fun e he => by simp only [he])
    fun body r' named'' he' hr' _ => ?_
  simp only [he']
  refine h.alternative ?_
  omega

theorem readBlock (h : Foresees n) (hn : 8 * ls.length + 1 ≤ n + 1) :
    Foreseen [.block] named ls (fun _ _ => True) (Source.readBlock (n + 1) ls) := by
  unfold Source.readBlock
  refine .turn rfl ((foreseen_readSign named).bind (fun e he => by rw [he])
    fun p r named' hopen _ _ => ?_)
  rw [hopen]
  rw [eq_of_readSign hopen, List.length_cons] at hn
  refine (h.stmts true [] r named' (by omega)).bind (fun e he => by simp only [he])
    fun stmts r' named'' he _ _ => ?_
  simp only [he]
  refine (foreseen_readSign named'').bind (fun e he => by simp only [he])
    fun q r'' _ hclose _ _ => ?_
  simp only [hclose]
  exact .done trivial

theorem readStmts (h : Foresees n) {inBlock : Bool} {done : List Stmt}
    (hn : 8 * ls.length + 6 ≤ n + 1) :
    Foreseen [.stmts inBlock] named ls (fun _ _ => True)
      (Source.readStmts (n + 1) inBlock done ls) := by
  have hnone : (aheadOf ls).isNone = ls.isEmpty := by cases ls <;> rfl
  unfold Source.readStmts
  rw [nextSign?_eq, ← hnone]
  split
  · next hend => exact .turn (if_pos hend) (.done trivial)
  · next hend =>
    refine .turn (if_neg hend) ((h.stmt ls named (by omega)).bind (fun e he => by rw [he])
      fun stmt r named' he hr _ => ?_)
    rw [he]
    dsimp only
    -- a statement takes a lexeme, so the depth that is left is enough for those after it
    have hshorter : r.length < ls.length := by
      obtain ⟨taken, rfl, hover⟩ := (spanning n).stmt he
      cases hover.beginsAt <;> simp
    by_cases hsemicolon : nextSign? r = some .semicolon
    · obtain ⟨p, r', rfl⟩ := eq_of_nextSign? hsemicolon
      rw [List.length_cons] at hshorter
      exact .take rfl (h.stmts inBlock (stmt :: done) r' named' (by omega))
    · have hmove : (Goal.separator inBlock).move named' (aheadOf r) =
          .turn [.stmts inBlock] named' := if_neg (by rwa [← nextSign?_eq])
      have hskip : skipSign .semicolon r = r := by
        unfold skipSign
        split
        · next g p r' => exact if_neg fun hg => hsemicolon (congrArg some hg)
        · rfl
      rw [hskip]
      exact .turn hmove (h.stmts inBlock (stmt :: done) r named' (by omega))

theorem readBinding (h : Foresees n) {mutable : Bool} {p : Position}
    (hn : 8 * ls.length + 1 ≤ n + 1) :
    Foreseen [.ident, .sign .assign, .expr 0] named ls (fun _ _ => True)
      (Source.readBinding (n + 1) mutable p ls) := by
  unfold Source.readBinding
  refine (foreseen_readIdent named).bind (fun e he => by rw [he])
    fun name r named₁ hname _ _ => ?_
  rw [hname]
  refine (foreseen_readSign named₁).bind (fun e he => by simp only [he])
    fun q r' named₂ hassign hr' _ => ?_
  simp only [hassign]
  obtain ⟨p', rfl⟩ := (ahead_of_readIdent hname).single
  rw [eq_of_readSign hassign, List.length_cons, List.length_cons] at hn
  refine (h.expr 0 r' named₂ (by omega)).bind (fun e he => by simp only [he])
    fun value r'' _ he _ _ => ?_
  simp only [he]
  exact .done trivial

/-- What comes after an expression that begins a statement. -/
theorem assigned (h : Foresees n) {target : Expr} (hn : 8 * ls.length ≤ n) :
    Foreseen [.assigned] target.isTarget ls (fun _ _ => True)
      (match nextSign? ls, target with
      | some .assign, .name ident p =>
        match Source.readExpr n 0 ls.tail with
        | .error e => .error e
        | .ok (value, r) => .ok (.assign (.name ident p) value p, r)
      | some .assign, _ => .error (.invalidTarget target.pos)
      | _, _ => .ok (.expr target, ls) : Parsed Stmt) := by
  by_cases hassign : nextSign? ls = some .assign
  · obtain ⟨q, r, rfl⟩ := eq_of_nextSign? hassign
    rw [List.length_cons] at hn
    cases target with
    | name ident p =>
      refine .take rfl ((h.expr 0 r true (by omega)).bind
        (fun e he => by simp only [hassign, List.tail_cons, he]) fun value r' named' he _ _ => ?_)
      simp only [hassign, List.tail_cons, he]
      exact .done trivial
    | _ => exact .stuck rfl trivial
  · have hmove : Goal.assigned.move target.isTarget (aheadOf ls) = .turn [] target.isTarget :=
      if_neg (by rwa [← nextSign?_eq])
    refine .turn hmove ?_
    split
    · next hassign' => exact absurd hassign' hassign
    · next hassign' _ => exact absurd hassign' hassign
    · exact .done trivial

theorem readStmt (h : Foresees n) (hn : 8 * ls.length + 5 ≤ n + 1) :
    Foreseen [.stmt] named ls (fun _ _ => True) (Source.readStmt (n + 1) ls) := by
  unfold Source.readStmt
  split
  · next p r =>
    rw [List.length_cons] at hn
    exact .take rfl (h.binding false p r named (by omega))
  · next p r =>
    rw [List.length_cons] at hn
    exact .take rfl (h.binding true p r named (by omega))
  · next p r =>
    rw [List.length_cons] at hn
    refine .take rfl ((foreseen_readIdent named).bind (fun e he => by simp only [he])
      fun name r₁ named₁ hname hr₁ _ => ?_)
    simp only [hname]
    refine (foreseen_readSign named₁).bind (fun e he => by simp only [he])
      fun q r₂ named₂ hopen hr₂ _ => ?_
    simp only [hopen]
    refine (foreseen_readParams [] named₂).bind (fun e he => by simp only [he])
      fun params r₃ named₃ hparams hr₃ _ => ?_
    simp only [hparams]
    refine (h.block r₃ named₃ (by omega)).bind (fun e he => by simp only [he])
      fun body r₄ named₄ hbody _ _ => ?_
    simp only [hbody]
    exact .done trivial
  · next p r =>
    rw [List.length_cons] at hn
    have hany : (r.head?.any fun t => startsExpr t.token) = (aheadOf r).any startsExpr := by
      cases r <;> rfl
    rw [hany]
    refine .take rfl ?_
    split
    · next hstarts =>
      refine .turn (if_pos hstarts) ((h.expr 0 r named (by omega)).bind
        (fun e he => by simp only [he]) fun value r' named' he _ _ => ?_)
      simp only [he]
      exact .done trivial
    · next hstarts => exact .turn (if_neg hstarts) (.done trivial)
  · next p r =>
    rw [List.length_cons] at hn
    refine .take rfl ((h.expr 0 r named (by omega)).bind (fun e he => by simp only [he])
      fun test r' named' he hr' _ => ?_)
    simp only [he]
    refine (h.block r' named' (by omega)).bind (fun e he => by simp only [he])
      fun body r'' named'' he' _ _ => ?_
    simp only [he']
    exact .done trivial
  · next hlet hmut hfn hreturn hwhile =>
    have hmove : Goal.stmt.move named (aheadOf ls) = .turn [.expr 0, .assigned] named := by
      rw [Goal.move]
      · exact aheadOf_ne hlet
      · exact aheadOf_ne hmut
      · exact aheadOf_ne hfn
      · exact aheadOf_ne hreturn
      · exact aheadOf_ne hwhile
    refine .turn hmove ((h.expr 0 ls named (by omega)).bind (fun e he => by simp only [he])
      fun target r named' he hr htold => ?_)
    simp only [he]
    rw [htold]
    refine h.assigned ?_
    omega

/-- With more depth, the readers are foreseen where they were. -/
theorem succ (h : Foresees n) : Foresees (n + 1) where
  expr _ _ _ hn := h.readExpr hn
  operators _ _ _ hn := h.readOperators hn
  operand _ _ hn := h.readOperand hn
  atom _ _ hn hunary := h.readAtom hn hunary
  args _ _ _ hn := h.readArgs hn
  cond _ _ hn := h.readCond hn
  block _ _ hn := h.readBlock hn
  stmts _ _ _ _ hn := h.readStmts hn
  stmt _ _ hn := h.readStmt hn
  binding _ _ _ _ hn := h.readBinding hn

end Foresees

theorem foresees : (n : Nat) → Foresees n
  | 0 => foresees_zero
  | n + 1 => (foresees n).succ

end ScriptMachine.Source
