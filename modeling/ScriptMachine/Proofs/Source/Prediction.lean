import ScriptMachine.Source.Parsing
import Mathlib.Tactic.SplitIfs

/-!
# Reading by prediction

The readers as a machine with a stack of goals, which looks at one token ahead. A move takes that
token or leaves it, and replaces the goal on top by others. No goal is given up: where the token
ahead does not fit the goal on top, the machine is stuck. From every stack that it gets to, there are
tokens with which it comes to the end of its goals.
-/

namespace ScriptMachine.Source

/-! ## Goals and moves -/

/-- What is still to be read; `operators` are those that follow an operand, `unchained` that no
comparison follows, `assigned` a value after a target, and `unnamed` nothing, of something that is no
name. -/
inductive Goal
  | sign (s : Sign)
  | ident
  | params
  | moreParams
  | expr (min : Nat)
  | operand
  | operators (min : Nat)
  | unchained
  | unnamed
  | args
  | moreArgs
  | alternative
  | branch
  | block
  | stmts (inBlock : Bool)
  | separator (inBlock : Bool)
  | stmt
  | assigned
  | returned

/-- What the machine does with a goal: it takes the token ahead or leaves it, and has new goals in
place of this one; `named` says whether the expression that was read last is a name. -/
inductive Move
  | take (goals : List Goal) (named : Bool)
  | turn (goals : List Goal) (named : Bool)
  | stuck

/-- The sign that a token is. -/
def signOf? : Option Token → Option Sign
  | some (.sign s) => some s
  | _ => none

/-- The binary operator that a token is. -/
def operatorOf? (ahead : Option Token) : Option BinaryOp :=
  (signOf? ahead).bind BinaryOp.ofSign?

/-- What must not follow the right operand of an operator. -/
def guardOf (op : BinaryOp) : List Goal :=
  if op.isComparison then [.unchained] else []

/-- The move for a goal, by the token ahead. -/
def Goal.move (named : Bool) (ahead : Option Token) : Goal → Move
  | .sign s => if ahead = some (.sign s) then .take [] named else .stuck
  | .ident =>
    match ahead with
    | some (.ident _) => .take [] named
    | _ => .stuck
  | .params =>
    match ahead with
    | some (.sign .rparen) => .take [] named
    | some (.ident _) => .take [.moreParams] named
    | _ => .stuck
  | .moreParams =>
    match signOf? ahead with
    | some .comma => .take [.params] named
    | some .rparen => .take [] named
    | _ => .stuck
  | .expr min => .turn [.operand, .operators min] named
  | .operand =>
    match ahead with
    | some (.integer _) | some (.text _) => .take [] false
    | some (.ident _) => .take [] true
    | some (.keyword .kwTrue) | some (.keyword .kwFalse) | some (.keyword .kwNil) => .take [] false
    | some (.keyword .kwIf) => .take [.expr 0, .block, .alternative, .unnamed] named
    | some (.sign .minus) | some (.sign .not) => .take [.expr UnaryOp.strength, .unnamed] named
    | some (.sign .lparen) => .take [.expr 0, .sign .rparen] named
    | some (.sign .lbrace) => .turn [.block, .unnamed] named
    | _ => .stuck
  | .operators min =>
    match signOf? ahead with
    | some .lparen => .take [.args, .unnamed, .operators min] named
    | _ =>
      match (operatorOf? ahead).filter fun op => min < op.strength with
      | some op => .take (.expr op.strength :: (guardOf op ++ [.unnamed, .operators min])) named
      | none => .turn [] named
  | .unchained =>
    if (operatorOf? ahead).any BinaryOp.isComparison then .stuck else .turn [] named
  | .unnamed => .turn [] false
  | .args =>
    match signOf? ahead with
    | some .rparen => .take [] named
    | _ => .turn [.expr 0, .moreArgs] named
  | .moreArgs =>
    match signOf? ahead with
    | some .comma => .take [.args] named
    | some .rparen => .take [] named
    | _ => .stuck
  | .alternative =>
    if ahead = some (.keyword .kwElse) then .take [.branch] named else .turn [] named
  | .branch =>
    if ahead = some (.keyword .kwIf) then .take [.expr 0, .block, .alternative] named
    else .turn [.block] named
  | .block => .turn [.sign .lbrace, .stmts true, .sign .rbrace] named
  | .stmts inBlock =>
    if ahead.isNone || (inBlock && signOf? ahead == some .rbrace) then .turn [] named
    else .turn [.stmt, .separator inBlock] named
  | .separator inBlock =>
    if signOf? ahead = some .semicolon then .take [.stmts inBlock] named
    else .turn [.stmts inBlock] named
  | .stmt =>
    match ahead with
    | some (.keyword .kwLet) | some (.keyword .kwMut) =>
      .take [.ident, .sign .assign, .expr 0] named
    | some (.keyword .kwFn) => .take [.ident, .sign .lparen, .params, .block] named
    | some (.keyword .kwReturn) => .take [.returned] named
    | some (.keyword .kwWhile) => .take [.expr 0, .block] named
    | _ => .turn [.expr 0, .assigned] named
  | .assigned =>
    if signOf? ahead = some .assign then if named then .take [.expr 0] named else .stuck
    else .turn [] named
  | .returned => if ahead.any startsExpr then .turn [.expr 0] named else .turn [] named

/-- From goals to goals, the machine takes the tokens `xs` while `ahead` is the token after them. -/
inductive Moves : List Goal → Bool → List Token → Option Token → List Goal → Bool → Prop
  | here {gs : List Goal} {named : Bool} {ahead : Option Token} : Moves gs named [] ahead gs named
  | turn {g : Goal} {new gs gs' : List Goal} {named named₁ named' : Bool} {xs : List Token}
    {ahead : Option Token} (h : g.move named (xs.head?.or ahead) = .turn new named₁)
    (hrest : Moves (new ++ gs) named₁ xs ahead gs' named') : Moves (g :: gs) named xs ahead gs' named'
  | take {g : Goal} {new gs gs' : List Goal} {named named₁ named' : Bool} {x : Token}
    {xs : List Token} {ahead : Option Token} (h : g.move named (some x) = .take new named₁)
    (hrest : Moves (new ++ gs) named₁ xs ahead gs' named') :
    Moves (g :: gs) named (x :: xs) ahead gs' named'

/-- The token ahead does not fit the goal on top. -/
def Stuck (gs : List Goal) (named : Bool) (ahead : Option Token) : Prop :=
  ∃ g rest, gs = g :: rest ∧ g.move named ahead = .stuck

namespace Moves

variable {gs gs₁ gs₂ : List Goal} {named named₁ named₂ : Bool} {xs ys : List Token}
  {ahead : Option Token}

theorem trans (h₁ : Moves gs named xs (ys.head?.or ahead) gs₁ named₁)
    (h₂ : Moves gs₁ named₁ ys ahead gs₂ named₂) : Moves gs named (xs ++ ys) ahead gs₂ named₂ := by
  generalize hahead : ys.head?.or ahead = next at h₁
  induction h₁ with
  | here => exact h₂
  | turn h _ ih =>
    refine .turn ?_ (ih h₂ hahead)
    rwa [List.head?_append, Option.or_assoc, hahead]
  | take h _ ih => exact .take h (ih h₂ hahead)

/-- A machine that gets stuck before a token does not get to the end of its goals on any tokens that
begin with those it has taken and go on with this one. -/
theorem not_done (h : Moves gs named xs ahead gs₁ named₁) (hstuck : Stuck gs₁ named₁ ahead)
    {more : List Token} (hmore : more.head? = ahead) : ¬Moves gs named (xs ++ more) none [] named₂ := by
  induction h with
  | here =>
    obtain ⟨g, rest, rfl, hg⟩ := hstuck
    intro hdone
    cases hdone with
    | turn h _ =>
      rw [List.nil_append, Option.or_none, hmore, hg] at h
      cases h
    | take h _ =>
      subst hmore
      rw [List.head?_cons] at hg
      rw [hg] at h
      cases h
  | @turn _ _ _ _ _ _ _ xs ahead h _ ih =>
    -- the other run has the same token ahead, so it makes the same move
    intro hdone
    generalize hzs : xs ++ more = zs at hdone
    have hhead : zs.head? = xs.head?.or ahead := by rw [← hzs, List.head?_append, hmore]
    cases hdone with
    | turn h' hrest' =>
      rw [Option.or_none, hhead, h] at h'
      cases h'
      exact ih hstuck hmore (hzs ▸ hrest')
    | take h' _ =>
      rw [← hhead, List.head?_cons, h'] at h
      cases h
  | take h _ ih =>
    intro hdone
    cases hdone with
    | turn h' _ =>
      rw [List.cons_append, List.head?_cons, Option.some_or, h] at h'
      cases h'
    | take h' hrest' =>
      rw [h] at h'
      cases h'
      exact ih hstuck hmore hrest'

end Moves

/-! ## Completions -/

/-- Tokens with which a goal is reached. -/
def Goal.completion : Goal → List Token
  | .sign s => [.sign s]
  | .ident => [.ident "x"]
  | .expr _ | .operand | .stmt => [.keyword .kwNil]
  | .params | .moreParams | .args | .moreArgs => [.sign .rparen]
  | .block | .branch => [.sign .lbrace, .sign .rbrace]
  | _ => []

/-- Tokens with which all goals are reached. -/
def completion (gs : List Goal) : List Token :=
  gs.flatMap Goal.completion

/-- A token that is no part of an expression before it. -/
def Quiet (ahead : Option Token) : Prop :=
  ahead = none ∨ ahead = some (.sign .rparen) ∨ ahead = some (.sign .lbrace) ∨
    ahead = some (.sign .rbrace)

/-- A token that ends a statement. -/
def Ending (ahead : Option Token) : Prop :=
  ahead = none ∨ ahead = some (.sign .rbrace)

/-- What may follow the completion of a goal. -/
def Goal.Allows (ahead : Option Token) : Goal → Prop
  | .expr _ | .operand | .operators _ | .unchained | .alternative | .branch => Quiet ahead
  | .stmt | .assigned | .returned => Ending ahead
  | .stmts inBlock | .separator inBlock => ahead = if inBlock then some (.sign .rbrace) else none
  | _ => True

/-- Each goal allows the completion of those below it. -/
def Completable : List Goal → Prop
  | [] => True
  | g :: rest => g.Allows (completion rest).head? ∧ Completable rest

theorem Ending.quiet {ahead : Option Token} (h : Ending ahead) : Quiet ahead := by
  rcases h with rfl | rfl
  · exact .inl rfl
  · exact .inr (.inr (.inr rfl))

section

variable {ahead : Option Token} (named : Bool)

theorem Quiet.move_operators (h : Quiet ahead) (min : Nat) :
    (Goal.operators min).move named ahead = .turn [] named := by
  rcases h with rfl | rfl | rfl | rfl <;> rfl

theorem Quiet.move_unchained (h : Quiet ahead) :
    Goal.unchained.move named ahead = .turn [] named := by
  rcases h with rfl | rfl | rfl | rfl <;> rfl

theorem Quiet.move_alternative (h : Quiet ahead) :
    Goal.alternative.move named ahead = .turn [] named := by
  rcases h with rfl | rfl | rfl | rfl <;> rfl

theorem Ending.move_assigned (h : Ending ahead) :
    Goal.assigned.move named ahead = .turn [] named := by
  rcases h with rfl | rfl <;> rfl

theorem Ending.move_returned (h : Ending ahead) :
    Goal.returned.move named ahead = .turn [] named := by
  rcases h with rfl | rfl <;> rfl

theorem move_stmts_end (inBlock : Bool) :
    (Goal.stmts inBlock).move named (if inBlock then some (.sign .rbrace) else none) =
      .turn [] named := by
  cases inBlock <;> rfl

theorem move_separator_end (inBlock : Bool) :
    (Goal.separator inBlock).move named (if inBlock then some (.sign .rbrace) else none) =
      .turn [.stmts inBlock] named := by
  cases inBlock <;> rfl

end

/-- A goal is reached with its completion, before what it allows. -/
theorem Goal.Allows.moves {g : Goal} {ahead : Option Token} (h : g.Allows ahead) (gs : List Goal)
    (named : Bool) : ∃ named', Moves (g :: gs) named g.completion ahead gs named' := by
  have hblock : ∀ named, Moves (.block :: gs) named [.sign .lbrace, .sign .rbrace] ahead gs named :=
    fun named => .turn rfl (.take rfl (.turn rfl (.take rfl .here)))
  have hexpr : ∀ gs named min, Quiet ahead →
      Moves (.expr min :: gs) named [.keyword .kwNil] ahead gs false :=
    fun gs named min hq => .turn rfl (.take rfl (.turn (hq.move_operators _ _) .here))
  cases g with
  | sign s => exact ⟨named, .take (if_pos rfl) .here⟩
  | ident | params | moreParams | args | moreArgs => exact ⟨named, .take rfl .here⟩
  | expr min => exact ⟨false, hexpr gs named min h⟩
  | operand => exact ⟨false, .take rfl .here⟩
  | operators min => exact ⟨named, .turn (h.move_operators _ _) .here⟩
  | unchained => exact ⟨named, .turn (h.move_unchained _) .here⟩
  | unnamed => exact ⟨false, .turn rfl .here⟩
  | alternative => exact ⟨named, .turn (h.move_alternative _) .here⟩
  | branch => exact ⟨named, .turn rfl (hblock named)⟩
  | block => exact ⟨named, hblock named⟩
  | stmts inBlock =>
    subst h
    exact ⟨named, .turn (move_stmts_end _ _) .here⟩
  | separator inBlock =>
    subst h
    exact ⟨named, .turn (move_separator_end _ _) (.turn (move_stmts_end _ _) .here)⟩
  | stmt =>
    have hassigned : Moves (.assigned :: gs) false [] ahead gs false :=
      .turn (h.move_assigned _) .here
    exact ⟨false, .turn rfl ((hexpr (.assigned :: gs) named 0 h.quiet).trans hassigned)⟩
  | assigned => exact ⟨named, .turn (h.move_assigned _) .here⟩
  | returned => exact ⟨named, .turn (h.move_returned _) .here⟩

/-- With its completion, a stack comes to its end. -/
theorem Completable.moves {gs : List Goal} (h : Completable gs) (named : Bool) :
    ∃ named', Moves gs named (completion gs) none [] named' := by
  induction gs generalizing named with
  | nil => exact ⟨named, .here⟩
  | cons g rest ih =>
    obtain ⟨named₁, hfirst⟩ := h.1.moves rest named
    obtain ⟨named₂, hrest⟩ := ih h.2 named₁
    refine ⟨named₂, Moves.trans ?_ hrest⟩
    rwa [Option.or_none]

/-- The goals that a move puts in place of another. -/
def Move.goals? : Move → Option (List Goal)
  | .take goals _ | .turn goals _ => some goals
  | .stuck => none

theorem completable_guardOf (op : BinaryOp) {gs : List Goal} (h : Completable gs)
    (hq : Quiet (completion gs).head?) :
    Completable (guardOf op ++ gs) ∧ completion (guardOf op ++ gs) = completion gs := by
  unfold guardOf
  split_ifs
  · exact ⟨⟨hq, h⟩, rfl⟩
  · exact ⟨h, rfl⟩

/-- A move leaves completable goals. -/
theorem Completable.move {g : Goal} {named : Bool} {ahead : Option Token} {new gs : List Goal}
    (h : Completable (g :: gs)) (hg : (g.move named ahead).goals? = some new) :
    Completable (new ++ gs) := by
  obtain ⟨hallows, hgs⟩ := h
  have hparen : Quiet (some (.sign .rparen)) := .inr (.inl rfl)
  have hbrace : Quiet (some (.sign .lbrace)) := .inr (.inr (.inl rfl))
  cases g <;> simp only [Goal.move] at hg
  case sign s =>
    split at hg <;> cases hg
    exact hgs
  case ident =>
    split at hg <;> cases hg
    exact hgs
  case params =>
    split at hg <;> cases hg
    · exact hgs
    · exact ⟨trivial, hgs⟩
  case moreParams =>
    split at hg <;> cases hg
    · exact ⟨trivial, hgs⟩
    · exact hgs
  case expr min =>
    cases hg
    exact ⟨hallows, hallows, hgs⟩
  case operand =>
    split at hg <;> cases hg
    case h_7 => exact ⟨hbrace, trivial, hallows, trivial, hgs⟩
    case h_8 | h_9 => exact ⟨hallows, trivial, hgs⟩
    case h_10 => exact ⟨hparen, trivial, hgs⟩
    case h_11 => exact ⟨trivial, trivial, hgs⟩
    all_goals exact hgs
  case operators min =>
    have hrest : Completable (.unnamed :: .operators min :: gs) := ⟨trivial, hallows, hgs⟩
    split at hg
    · cases hg
      exact ⟨trivial, hrest⟩
    · split at hg <;> cases hg
      · next op _ =>
        obtain ⟨hguard, hcompletion⟩ := completable_guardOf op hrest hallows
        rw [List.cons_append, List.append_assoc]
        refine ⟨?_, hguard⟩
        show Quiet (completion (guardOf op ++ (.unnamed :: .operators min :: gs))).head?
        rw [hcompletion]
        exact hallows
      · exact hgs
  case unchained =>
    split at hg <;> cases hg
    exact hgs
  case unnamed =>
    cases hg
    exact hgs
  case args =>
    split at hg <;> cases hg
    · exact hgs
    · exact ⟨hparen, trivial, hgs⟩
  case moreArgs =>
    split at hg <;> cases hg
    · exact ⟨trivial, hgs⟩
    · exact hgs
  case alternative =>
    split at hg <;> cases hg
    · exact ⟨hallows, hgs⟩
    · exact hgs
  case branch =>
    split at hg <;> cases hg
    · exact ⟨hbrace, trivial, hallows, hgs⟩
    · exact ⟨trivial, hgs⟩
  case block =>
    cases hg
    exact ⟨trivial, rfl, trivial, hgs⟩
  case stmts inBlock =>
    split at hg <;> cases hg
    · exact hgs
    · refine ⟨?_, hallows, hgs⟩
      show Ending (completion gs).head?
      rw [hallows]
      cases inBlock
      · exact .inl rfl
      · exact .inr rfl
  case separator inBlock =>
    split at hg <;> cases hg <;> exact ⟨hallows, hgs⟩
  case stmt =>
    have hquiet := Ending.quiet hallows
    split at hg <;> cases hg
    case h_1 | h_2 => exact ⟨trivial, trivial, hquiet, hgs⟩
    case h_3 => exact ⟨trivial, trivial, trivial, trivial, hgs⟩
    case h_4 => exact ⟨hallows, hgs⟩
    case h_5 => exact ⟨hbrace, trivial, hgs⟩
    case h_6 => exact ⟨hquiet, hallows, hgs⟩
  case assigned =>
    split at hg
    · split at hg <;> cases hg
      exact ⟨Ending.quiet hallows, hgs⟩
    · cases hg
      exact hgs
  case returned =>
    split at hg <;> cases hg
    · exact ⟨Ending.quiet hallows, hgs⟩
    · exact hgs

/-- Once the machine has taken some tokens, it can come to the end of its goals, whatever made it
turn after the last of them. -/
theorem Moves.completes {gs gs' : List Goal} {named named' : Bool} {xs : List Token}
    {ahead : Option Token} (h : Moves gs named xs ahead gs' named') (hgs : Completable gs) :
    ∃ gs₁ named₁, Completable gs₁ ∧ ∀ ahead', Moves gs named xs ahead' gs₁ named₁ := by
  induction h with
  | @here gs named ahead => exact ⟨gs, named, hgs, fun _ => .here⟩
  | @turn g new gs gs' named named₁ named' xs ahead h _ ih =>
    cases xs with
    -- with no token left to take, the turn was for what is ahead, so it is not made
    | nil => exact ⟨g :: gs, named, hgs, fun _ => .here⟩
    | cons x xs =>
      obtain ⟨gs₁, named₂, hgs₁, hmoves⟩ := ih (hgs.move (by rw [h]; rfl))
      exact ⟨gs₁, named₂, hgs₁, fun ahead' => .turn h (hmoves ahead')⟩
  | take h _ ih =>
    obtain ⟨gs₁, named₂, hgs₁, hmoves⟩ := ih (hgs.move (by rw [h]; rfl))
    exact ⟨gs₁, named₂, hgs₁, fun ahead' => .take h (hmoves ahead')⟩

end ScriptMachine.Source
