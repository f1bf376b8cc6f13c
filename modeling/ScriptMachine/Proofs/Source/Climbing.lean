import ScriptMachine.Proofs.Source.Respelling
import Mathlib.Tactic.SplitIfs

/-!
# Printed expressions are read back

The loop over operators is entered with a minimum strength and may go on after any operand. So what is
shown of an expression is that from its tokens on the parser goes on as it does after an operand that
is this expression, for every minimum that its operator exceeds and before every lexeme that is not
drawn into it. Parentheses are needed just where one of these two does not hold.
-/

namespace ScriptMachine.Source

/-! ## Tokens ahead -/

/-- The lexemes `ls` begin with the tokens `ts`, and go on with `r`. -/
inductive Ahead : (ts : List Token) → (ls r : List Lexeme) → Prop
  | nil {r : List Lexeme} : Ahead [] r r
  | cons {t : Token} {ts : List Token} (p : Position) {ls r : List Lexeme} (h : Ahead ts ls r) :
    Ahead (t :: ts) (⟨t, p⟩ :: ls) r

namespace Ahead

variable {ts us : List Token} {ls r : List Lexeme}

theorem of_append (h : Ahead (ts ++ us) ls r) : ∃ m, Ahead ts ls m ∧ Ahead us m r := by
  induction ts generalizing ls with
  | nil => exact ⟨ls, .nil, h⟩
  | cons t ts ih =>
    cases h with
    | cons p h =>
      obtain ⟨m, hts, hus⟩ := ih h
      exact ⟨m, .cons p hts, hus⟩

theorem of_map (ls : List Lexeme) : Ahead (ls.map Lexeme.token) ls [] := by
  induction ls with
  | nil => exact .nil
  | cons l ls ih => exact .cons l.pos ih

end Ahead

/-! ## What may follow -/

/-- No alternative follows. -/
def NoElse (r : List Lexeme) : Prop :=
  ∀ p l, r ≠ ⟨.keyword .kwElse, p⟩ :: l

/-- What ends an expression: no call, no operator and no alternative. -/
structure Closing (r : List Lexeme) : Prop where
  noElse : NoElse r
  noCall : nextSign? r ≠ some .lparen
  noOperator : nextOperator? r = none

/-- The operator of an expression binds tighter than `min`. -/
def Expr.Above (min : Nat) (e : Expr) : Prop :=
  ∀ op ∈ e.operator?, min < op.strength

/-- What may follow an expression without being drawn into it: after an operation no call, and after
a binary operation no tighter operator, nor one comparison after another. -/
structure Expr.Before (e : Expr) (r : List Lexeme) : Prop where
  noElse : NoElse r
  noCall : e.isOperation = true → nextSign? r ≠ some .lparen
  weaker : ∀ op ∈ e.operator?, ∀ next ∈ nextOperator? r,
    next.strength ≤ op.strength ∧ (op.isComparison && next.isComparison) = false

theorem Closing.sign {g : Sign} (hcall : g ≠ .lparen) (hop : BinaryOp.ofSign? g = none)
    (p : Position) (l : List Lexeme) : Closing (⟨.sign g, p⟩ :: l) where
  noElse q l' h := by cases h
  noCall h := hcall (Option.some.inj h)
  noOperator := hop

theorem Closing.before {r : List Lexeme} (h : Closing r) (e : Expr) : e.Before r where
  noElse := h.noElse
  noCall _ := h.noCall
  weaker op _ next hnext := by
    rw [h.noOperator] at hnext
    cases hnext

theorem Closing.stops {r : List Lexeme} (h : Closing r) (min : Nat) :
    tighterOperator? min r = none := by
  rw [tighterOperator?, h.noOperator]
  rfl

theorem Expr.Above.zero (e : Expr) : e.Above 0 := by
  intro op _
  cases op <;> decide

/-! ## Single steps -/

section Steps

variable {n min : Nat} {lhs : Expr} {ls r : List Lexeme}

/-- Where no call and no tighter operator is ahead, an expression ends. -/
theorem readOperators_stop (hcall : nextSign? r ≠ some .lparen)
    (hop : tighterOperator? min r = none) : readOperators (n + 1) min lhs r = .ok (lhs, r) := by
  conv => lhs; unfold readOperators
  split
  · next h => exact absurd h hcall
  · rw [hop]

/-- A call goes on after its arguments. -/
theorem readOperators_call {p : Position} {args : List Expr}
    (h : readArgs n [] ls = .ok (args, r)) :
    readOperators (n + 1) min lhs (⟨.sign .lparen, p⟩ :: ls) =
      readOperators n min (.call lhs args lhs.pos) r := by
  rw [readOperators]
  simp only [nextSign?, List.tail_cons, h]

/-- A tighter operator goes on after its right operand, unless a comparison follows another one. -/
theorem readOperators_binary {op : BinaryOp} {p : Position} {rhs : Expr} (hop : min < op.strength)
    (h : readExpr n op.strength ls = .ok (rhs, r))
    (hchain : ∀ next ∈ nextOperator? r, (op.isComparison && next.isComparison) = false) :
    readOperators (n + 1) min lhs (⟨.sign op.sign, p⟩ :: ls) =
      readOperators n min (.binary op lhs rhs lhs.pos) r := by
  have hsign : op.sign ≠ .lparen := by cases op <;> decide
  have htighter : tighterOperator? min (⟨.sign op.sign, p⟩ :: ls) = some op := by
    simp [tighterOperator?, nextOperator?, nextSign?, hop]
  have hno : (op.isComparison && (nextOperator? r).any BinaryOp.isComparison) = false := by
    cases hnext : nextOperator? r with
    | none => simp
    | some next => simpa using hchain next hnext
  conv => lhs; unfold readOperators
  split
  · next hcall => exact absurd (Option.some.inj hcall) hsign
  · rw [htighter]
    simp only [List.tail_cons, h, hno]

/-- An operand that begins with no unary operator is an atom. -/
theorem readExpr_atom {e : Expr}
    (hsign : ∀ g p l, ls = ⟨.sign g, p⟩ :: l → UnaryOp.ofSign? g = none)
    (h : readAtom n ls = .ok (e, r)) :
    readExpr (n + 2) min ls = readOperators (n + 1) min e r := by
  have hoperand : readOperand (n + 1) ls = .ok (e, r) := by
    conv => lhs; unfold readOperand
    split
    · next g p l =>
      rw [hsign g p l rfl]
      exact h
    · exact h
  rw [readExpr, hoperand]

theorem readExpr_unary {op : UnaryOp} {p : Position} {operand : Expr}
    (h : readExpr n UnaryOp.strength ls = .ok (operand, r)) :
    readExpr (n + 2) min (⟨.sign op.sign, p⟩ :: ls) =
      readOperators (n + 1) min (.unary op operand p) r := by
  have hoperand : readOperand (n + 1) (⟨.sign op.sign, p⟩ :: ls) = .ok (.unary op operand p, r) := by
    rw [readOperand]
    simp only [UnaryOp.ofSign?_sign, h]
  rw [readExpr, hoperand]

end Steps

/-! ## Expressions -/

/-- The parser comes to `r` with an operand that is `e` but for its places, and takes at most `k`
steps to get there. -/
def ReadsUpTo (n min : Nat) (ls r : List Lexeme) (e : Expr) (k : Nat) : Prop :=
  ∃ e' m, readExpr n min ls = readOperators m min e' r ∧ e'.unplaced = e.unplaced ∧ n ≤ m + k

/-- An expression is read back: from its tokens on the parser goes on as it does after an operand that
is this expression. -/
def Expr.Reads (e : Expr) : Prop :=
  ∀ {n min : Nat} {ls r : List Lexeme}, Ahead e.tokens ls r → 8 * e.tokens.length ≤ n →
    e.Above min → e.Before r → ReadsUpTo n min ls r e e.tokens.length

/-- An expression ends where the loop over operators does. -/
theorem ReadsUpTo.ends {n min k : Nat} {ls r : List Lexeme} {e : Expr}
    (h : ReadsUpTo n min ls r e k) (hk : k < n) (hcall : nextSign? r ≠ some .lparen)
    (hop : tighterOperator? min r = none) :
    ∃ e', readExpr n min ls = .ok (e', r) ∧ e'.unplaced = e.unplaced := by
  obtain ⟨e', m, heq, hsame, hm⟩ := h
  obtain ⟨m, rfl⟩ : ∃ j, m = j + 1 := ⟨m - 1, by omega⟩
  exact ⟨e', heq.trans (readOperators_stop hcall hop), hsame⟩

/-- The first token of an expression is one that an expression may begin with. -/
theorem startsExpr_tokens : (e : Expr) → ∃ t ts, e.tokens = t :: ts ∧ startsExpr t = true
  | .number _ _ => ⟨_, _, rfl, rfl⟩
  | .bool true _ => ⟨_, _, rfl, rfl⟩
  | .bool false _ => ⟨_, _, rfl, rfl⟩
  | .text _ _ => ⟨_, _, rfl, rfl⟩
  | .nil _ => ⟨_, _, rfl, rfl⟩
  | .name _ _ => ⟨_, _, rfl, rfl⟩
  | .binary op lhs _ _ => by
    obtain ⟨t, ts, heq, ht⟩ := startsExpr_tokens lhs
    rw [Expr.tokens, grouped, heq]
    split
    · exact ⟨_, _, rfl, rfl⟩
    · exact ⟨_, _, rfl, ht⟩
  | .unary op _ _ => by cases op <;> exact ⟨_, _, rfl, rfl⟩
  | .call callee _ _ => by
    obtain ⟨t, ts, heq, ht⟩ := startsExpr_tokens callee
    rw [Expr.tokens, grouped, heq]
    split
    · exact ⟨_, _, rfl, rfl⟩
    · exact ⟨_, _, rfl, ht⟩
  | .cond _ _ _ _ => ⟨_, _, rfl, rfl⟩
  | .block (.mk _ _) => ⟨_, _, rfl, rfl⟩

theorem length_tokens_pos (e : Expr) : 0 < e.tokens.length := by
  obtain ⟨t, ts, heq, -⟩ := startsExpr_tokens e
  rw [heq]
  exact Nat.succ_pos _

namespace Expr.Reads

variable {e : Expr} {n min : Nat} {ls r : List Lexeme}

/-- A whole expression is read before what ends one. -/
theorem closed (h : e.Reads) (hls : Ahead e.tokens ls r) (hn : 8 * e.tokens.length ≤ n)
    (hr : Closing r) : ∃ e', readExpr n 0 ls = .ok (e', r) ∧ e'.unplaced = e.unplaced := by
  have hpos := length_tokens_pos e
  exact (h hls hn (.zero e) (hr.before e)).ends (by omega) hr.noCall (hr.stops 0)

/-- In parentheses an expression is read back whatever stands around it. -/
theorem grouped (h : e.Reads) {needed : Bool} (hls : Ahead (grouped needed e.tokens) ls r)
    (hn : 8 * (Source.grouped needed e.tokens).length ≤ n)
    (hfits : needed = false → e.Above min ∧ e.Before r) :
    ReadsUpTo n min ls r e (Source.grouped needed e.tokens).length := by
  cases needed with
  | false =>
    obtain ⟨habove, hbefore⟩ := hfits rfl
    exact h hls hn habove hbefore
  | true =>
    have hlength : (Source.grouped true e.tokens).length = e.tokens.length + 2 := by
      simp [Source.grouped]
    rw [hlength] at hn ⊢
    cases hls with
    | cons p hls =>
      obtain ⟨m, hinner, hclose⟩ := hls.of_append
      cases hclose with
      | cons q hclose =>
        cases hclose
        obtain ⟨k, rfl⟩ : ∃ k, n = k + 3 := ⟨n - 3, by omega⟩
        obtain ⟨e', heq, hsame⟩ := h.closed hinner (n := k) (by omega)
          (.sign (by decide) rfl q r)
        refine ⟨e', k + 2, ?_, hsame, by omega⟩
        refine readExpr_atom ?_ ?_
        · rintro g p' l hl
          cases hl
          rfl
        · rw [readAtom]
          simp only [heq, readSign, if_true]

end Expr.Reads

/-! ## Leaves and operations -/

/-- An atom of a single token is read back as the same node at the place of the token. -/
theorem Expr.reads_leaf (node : Position → Expr) {t : Token} {p : Position}
    (htokens : (node p).tokens = [t]) (hsign : ∀ g, t ≠ .sign g)
    (hsame : ∀ q, (node q).unplaced = (node p).unplaced)
    (hatom : ∀ k q r, readAtom (k + 1) (⟨t, q⟩ :: r) = .ok (node q, r)) : (node p).Reads := by
  intro n min ls r hls hn _ _
  rw [htokens] at hls hn ⊢
  cases hls with
  | cons q hls =>
    cases hls
    obtain ⟨k, rfl⟩ : ∃ k, n = k + 3 := ⟨n - 3, by simp at hn; omega⟩
    refine ⟨node q, k + 2, readExpr_atom ?_ (hatom k q r), hsame q, by simp⟩
    rintro g p' l hl
    cases hl
    exact absurd rfl (hsign g)

theorem Expr.reads_unary {op : UnaryOp} {operand : Expr} {p : Position} (h : operand.Reads) :
    (Expr.unary op operand p).Reads := by
  intro n min ls r hls hn _ hbefore
  rw [Expr.tokens] at hls hn ⊢
  simp only [List.length_cons] at hn ⊢
  cases hls with
  | cons q hls =>
    obtain ⟨k, rfl⟩ : ∃ k, n = k + 2 := ⟨n - 2, by omega⟩
    have hcall : nextSign? r ≠ some .lparen := hbefore.noCall rfl
    -- no binary operator is drawn into the operand of a unary one
    have hop : tighterOperator? UnaryOp.strength r = none := by
      rw [tighterOperator?, Option.filter_eq_none_iff]
      intro next _
      simpa using Nat.le_of_lt next.strength_lt
    have hfits : operand.operator?.isSome = false →
        operand.Above UnaryOp.strength ∧ operand.Before r := by
      intro hnone
      rw [Option.isSome_eq_false_iff, Option.isNone_iff_eq_none] at hnone
      refine ⟨fun op hop => ?_, hbefore.noElse, fun _ => hcall, fun op hop => ?_⟩ <;>
        · rw [hnone] at hop
          cases hop
    obtain ⟨e', heq, hsame⟩ := (h.grouped hls (n := k) (by omega) hfits).ends (by omega) hcall hop
    refine ⟨.unary op e' q, k + 1, readExpr_unary heq, ?_, by omega⟩
    rw [Expr.unplaced, Expr.unplaced, hsame]

section Binary

variable {op : BinaryOp} {lhs rhs : Expr}

/-- What a left operand without parentheses is read in front of. -/
theorem fits_left (h : op.groupsLeft lhs = false) {min : Nat} (hop : min < op.strength)
    (p : Position) (r : List Lexeme) : lhs.Above min ∧ lhs.Before (⟨.sign op.sign, p⟩ :: r) := by
  have hinner : ∀ inner ∈ lhs.operator?,
      op.strength ≤ inner.strength ∧ (inner.isComparison && op.isComparison) = false := by
    intro inner hinner
    rw [BinaryOp.groupsLeft, hinner] at h
    simpa using h
  refine ⟨fun inner hin => Nat.lt_of_lt_of_le hop (hinner inner hin).1, ?_, fun _ => ?_, ?_⟩
  · rintro q l ⟨⟩
  · intro hcall
    cases op <;> cases hcall
  · intro inner hin next hnext
    obtain rfl : op = next := by simpa [nextOperator?, nextSign?] using hnext
    exact hinner inner hin

/-- What a right operand without parentheses is read in front of. -/
theorem fits_right (h : op.groupsRight rhs = false) {r : List Lexeme} {p : Position}
    (hbefore : (Expr.binary op lhs rhs p).Before r) : rhs.Above op.strength ∧ rhs.Before r := by
  have hinner : ∀ inner ∈ rhs.operator?, op.strength < inner.strength := by
    intro inner hinner
    rw [BinaryOp.groupsRight, hinner] at h
    simpa using h
  refine ⟨hinner, hbefore.noElse, fun _ => hbefore.noCall rfl, fun inner hin next hnext => ?_⟩
  have hlt := hinner inner hin
  obtain ⟨hle, -⟩ := hbefore.weaker op rfl next hnext
  refine ⟨by omega, ?_⟩
  rw [Bool.and_eq_false_iff, BinaryOp.isComparison, BinaryOp.isComparison, beq_eq_false_iff_ne,
    beq_eq_false_iff_ne]
  omega

theorem Expr.reads_binary {p : Position} (hleft : lhs.Reads) (hright : rhs.Reads) :
    (Expr.binary op lhs rhs p).Reads := by
  intro n min ls r hls hn habove hbefore
  rw [Expr.tokens] at hls hn ⊢
  simp only [List.length_append, List.length_cons] at hn ⊢
  obtain ⟨m, hlhs, hrest⟩ := hls.of_append
  cases hrest with
  | @cons _ _ q l _ hrhs =>
    have hop : min < op.strength := habove op rfl
    have hcall : nextSign? r ≠ some .lparen := hbefore.noCall rfl
    have hstop : tighterOperator? op.strength r = none := by
      rw [tighterOperator?, Option.filter_eq_none_iff]
      intro next hnext
      simpa using (hbefore.weaker op rfl next hnext).1
    obtain ⟨lhs', k, heq, hsame, hk⟩ := hleft.grouped hlhs (n := n) (by omega)
      (fun h => fits_left h hop q l)
    obtain ⟨k, rfl⟩ : ∃ j, k = j + 1 := ⟨k - 1, by omega⟩
    obtain ⟨rhs', heq', hsame'⟩ := (hright.grouped hrhs (n := k) (by omega)
      (fun h => fits_right h hbefore)).ends (by omega) hcall hstop
    refine ⟨.binary op lhs' rhs' lhs'.pos, k, ?_, ?_, by omega⟩
    · rw [heq, readOperators_binary hop heq' fun next hnext => (hbefore.weaker op rfl next hnext).2]
    · rw [Expr.unplaced, Expr.unplaced, hsame, hsame']

end Binary

/-! ## Calls -/

/-- Arguments are read back up to and with the parenthesis that closes them. -/
def ArgsRead (args : List Expr) : Prop :=
  ∀ (done : List Expr) {n : Nat} {ls r : List Lexeme},
    Ahead (argTokens args ++ [.sign .rparen]) ls r → 8 * (argTokens args).length + 1 ≤ n →
    ∃ args', readArgs n done ls = .ok (done.reverse ++ args', r) ∧
      unplacedArgs args' = unplacedArgs args

theorem argsRead_nil : ArgsRead [] := by
  intro done n ls r hls hn
  obtain ⟨k, rfl⟩ : ∃ k, n = k + 1 := ⟨n - 1, by omega⟩
  cases hls with
  | cons p hls =>
    cases hls
    refine ⟨[], ?_, rfl⟩
    rw [readArgs, List.append_nil]
    rfl

/-- An argument ends the list or has a comma after it. -/
theorem readArgs_arg {n : Nat} {done : List Expr} {ls r : List Lexeme} {arg : Expr}
    (hls : nextSign? ls ≠ some .rparen) (h : readExpr n 0 ls = .ok (arg, r)) :
    (∀ p l, r = ⟨.sign .comma, p⟩ :: l →
      readArgs (n + 1) done ls = readArgs n (arg :: done) l) ∧
    (∀ p l, r = ⟨.sign .rparen, p⟩ :: l →
      readArgs (n + 1) done ls = .ok (done.reverse ++ [arg], l)) := by
  constructor
  · rintro p l rfl
    conv => lhs; unfold readArgs
    split
    · next hclose => exact absurd hclose hls
    · simp only [h, nextSign?, List.tail_cons]
  · rintro p l rfl
    conv => lhs; unfold readArgs
    split
    · next hclose => exact absurd hclose hls
    · simp [h, nextSign?, readSign]

/-- No expression begins with a closing parenthesis. -/
theorem nextSign?_of_tokens {e : Expr} {us : List Token} {ls r : List Lexeme}
    (hls : Ahead (e.tokens ++ us) ls r) : nextSign? ls ≠ some .rparen ∧
      nextSign? ls ≠ some .rbrace := by
  obtain ⟨t, ts, heq, hstart⟩ := startsExpr_tokens e
  rw [heq] at hls
  cases hls with
  | cons p hls =>
    constructor <;>
    · intro hclose
      cases t <;> simp_all [nextSign?, startsExpr]

theorem argsRead_cons {e : Expr} {rest : List Expr} (he : e.Reads) (hrest : ArgsRead rest) :
    ArgsRead (e :: rest) := by
  intro done n ls r hls hn
  cases rest with
  | nil =>
    rw [argTokens] at hls hn
    obtain ⟨k, rfl⟩ : ∃ k, n = k + 1 := ⟨n - 1, by omega⟩
    have hopen := (nextSign?_of_tokens hls).1
    obtain ⟨m, harg, hclose⟩ := hls.of_append
    cases hclose with
    | cons p hclose =>
      cases hclose
      obtain ⟨e', heq, hsame⟩ := he.closed harg (n := k) (by omega) (.sign (by decide) rfl p r)
      refine ⟨[e'], (readArgs_arg hopen heq).2 p r rfl, ?_⟩
      simp only [unplacedArgs, hsame]
  | cons next rest =>
    rw [argTokens.eq_3 _ _ (by simp)] at hls hn
    rw [List.append_assoc] at hls
    simp only [List.length_append, List.length_cons] at hn
    obtain ⟨k, rfl⟩ : ∃ k, n = k + 1 := ⟨n - 1, by omega⟩
    have hopen := (nextSign?_of_tokens hls).1
    obtain ⟨m, harg, hmore⟩ := hls.of_append
    cases hmore with
    | @cons _ _ p l _ hmore =>
      obtain ⟨e', heq, hsame⟩ := he.closed harg (n := k) (by omega) (.sign (by decide) rfl p l)
      obtain ⟨args', heq', hsame'⟩ := hrest (e' :: done) hmore (n := k) (by omega)
      refine ⟨e' :: args', ?_, ?_⟩
      · rw [(readArgs_arg hopen heq).1 p l rfl, heq']
        simp
      · rw [unplacedArgs, hsame, hsame', ← unplacedArgs]

theorem Expr.reads_call {callee : Expr} {args : List Expr} {p : Position} (hcallee : callee.Reads)
    (hargs : ArgsRead args) : (Expr.call callee args p).Reads := by
  intro n min ls r hls hn _ hbefore
  rw [Expr.tokens] at hls hn ⊢
  simp only [List.length_append, List.length_cons, List.length_nil] at hn ⊢
  obtain ⟨m, hfirst, hrest⟩ := hls.of_append
  cases hrest with
  | @cons _ _ q l _ hrest =>
    -- a callee that is no operation is read back before the parenthesis that opens the call
    have hfits : callee.isOperation = false →
        callee.Above min ∧ callee.Before (⟨.sign .lparen, q⟩ :: l) := by
      intro hno
      have hnone : callee.operator? = none := by
        cases callee <;> first | rfl | cases hno
      refine ⟨fun op hop => ?_, ?_, fun h => ?_, fun op hop => ?_⟩
      · rw [hnone] at hop
        cases hop
      · rintro p' l' ⟨⟩
      · rw [hno] at h
        cases h
      · rw [hnone] at hop
        cases hop
    obtain ⟨callee', k, heq, hsame, hk⟩ := hcallee.grouped hfirst (n := n) (by omega) hfits
    obtain ⟨k, rfl⟩ : ∃ j, k = j + 1 := ⟨k - 1, by omega⟩
    obtain ⟨args', heq', hsame'⟩ := hargs [] hrest (n := k) (by omega)
    refine ⟨.call callee' args' callee'.pos, k, ?_, ?_, by omega⟩
    · rw [heq, readOperators_call heq']
      rfl
    · rw [Expr.unplaced, Expr.unplaced, hsame, hsame']

end ScriptMachine.Source
