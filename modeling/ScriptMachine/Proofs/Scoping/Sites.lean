import ScriptMachine.Source.Tree
import ScriptMachine.Compile.CompileError
import ScriptMachine.Compile.Names
import ScriptMachine.Text.Digits
import Mathlib.Data.List.Induction
import Mathlib.Data.List.Nodup

/-!
# What the rules on names ask of a tree

The places of a tree that a rule speaks about are its *sites*: integer literals, names that are read,
targets of assignments, returns and declarations of functions. Each stands among surroundings: the
names that can be seen from there, and whether a function or a block is around it. The sites of a tree
are listed in the order of its text, and each is judged for itself.
-/

namespace ScriptMachine.Scoping

open Source Compile

/-! ## Surroundings -/

/-- What is around a place: the locals in scope, innermost first, the globals that the fragment has
defined before, newest first, both with whether they may be assigned to, and the names that the
session knows. -/
structure Surroundings where
  locals : List (String × Bool)
  staged : List (String × Bool)
  committed : Names
  inFunction : Bool
  topLevel : Bool

namespace Surroundings

/-- Around the first statement of a fragment. -/
def start (names : Names) : Surroundings :=
  ⟨[], [], names, false, true⟩

/-- Whether a name may be assigned to, if it means anything: a local hides what the fragment has
defined, which hides the globals of the session, and these hide the primitives. -/
def assignable? (s : Surroundings) (name : String) : Option Bool :=
  (s.locals.lookup name).or <| (s.staged.lookup name).or <|
    ((s.committed.global? name).map GlobalName.mutable).or <|
      (s.committed.primitive? name).map fun _ => false

/-- After the definition of a name: at the top level a global, elsewhere a local. -/
def declare (s : Surroundings) (name : String) (mutable : Bool) : Surroundings :=
  if s.topLevel then { s with staged := (name, mutable) :: s.staged }
  else { s with locals := (name, mutable) :: s.locals }

/-- Inside a block. -/
def inBlock (s : Surroundings) : Surroundings :=
  { s with topLevel := false }

/-- Inside a function, which knows its own name and its parameters. -/
def inBody (s : Surroundings) (name : String) (params : List String) : Surroundings :=
  ⟨params.reverse.map (·, false), (name, false) :: s.staged, s.committed, true, false⟩

/-- After a statement. -/
def after (s : Surroundings) : Stmt → Surroundings
  | .bind mutable name _ _ => s.declare name mutable
  | .func name _ _ _ => s.declare name false
  | _ => s

end Surroundings

/-! ## Sites -/

/-- What a site does; the target of an assignment is a name or something else. -/
inductive Use
  | literal (digits : String)
  | read (name : String)
  | assign (target : Option String)
  | ret
  | func (name : String) (params : List String)

/-- A place that a rule speaks about. -/
structure Site where
  around : Surroundings
  use : Use
  pos : Position

/-- The token that a site begins with. -/
def Use.token : Use → Token
  | .literal digits => .integer digits
  | .read name => .ident name
  | .assign target => .ident (target.getD "")
  | .ret => .keyword .kwReturn
  | .func _ _ => .keyword .kwFn

/-- The lexeme that a site begins with. -/
def Site.lexeme (s : Site) : Lexeme :=
  ⟨s.use.token, s.pos⟩

/-- The name that an assignment is to, if it is to a name. -/
def targetName? : Expr → Option String
  | .name ident _ => some ident
  | _ => none

mutual

/-- The sites of an expression. -/
def exprSites (s : Surroundings) : Expr → List Site
  | .number digits p => [⟨s, .literal digits, p⟩]
  | .text _ _ | .bool _ _ | .nil _ => []
  | .name ident p => [⟨s, .read ident, p⟩]
  | .binary _ lhs rhs _ => exprSites s lhs ++ exprSites s rhs
  | .unary _ operand _ => exprSites s operand
  | .call callee args _ => exprSites s callee ++ argSites s args
  | .cond test body otherwise _ =>
    exprSites s test ++ (blockSites s body ++ elseSites s otherwise)
  | .block body => blockSites s body

/-- The sites of arguments. -/
def argSites (s : Surroundings) : List Expr → List Site
  | [] => []
  | arg :: rest => exprSites s arg ++ argSites s rest

/-- The sites of an alternative. -/
def elseSites (s : Surroundings) : Else → List Site
  | .absent => []
  | .block body => blockSites s body
  | .elseIf test body otherwise _ =>
    exprSites s test ++ (blockSites s body ++ elseSites s otherwise)

/-- The sites of a block. -/
def blockSites (s : Surroundings) : Block → List Site
  | .mk stmts _ => stmtSites s.inBlock stmts

/-- The sites of statements, each of which stands after those before it. -/
def stmtSites (s : Surroundings) : List Stmt → List Site
  | [] => []
  | stmt :: rest => oneSites s stmt ++ stmtSites (s.after stmt) rest

/-- The sites of a statement. -/
def oneSites (s : Surroundings) : Stmt → List Site
  | .bind _ _ value _ => exprSites s value
  | .assign target value p => ⟨s, .assign (targetName? target), p⟩ :: exprSites s value
  | .func name params body p =>
    ⟨s, .func name params, p⟩ :: blockSites (s.inBody name params) body
  | .retNil p => [⟨s, .ret, p⟩]
  | .ret value p => ⟨s, .ret, p⟩ :: exprSites s value
  | .loop test body _ => exprSites s test ++ blockSites s body
  | .expr e => exprSites s e

end

/-! ## Rules -/

/-- The greatest integer that a literal may denote, the last before the 59th power of two. -/
def maxLiteral : Nat :=
  0x7ffffffffffffff

/-- What the rules ask of a site. -/
def Site.Allowed (s : Site) : Prop :=
  match s.use with
  | .literal digits => Text.ofDigits digits.toList ≤ maxLiteral
  | .read name => s.around.assignable? name ≠ none
  | .assign target => ∃ name, target = some name ∧ s.around.assignable? name = some true
  | .ret => s.around.inFunction = true
  | .func _ params => s.around.topLevel = true ∧ params.Nodup

/-- The error that a site is refused with. A function below the top level is refused for that, and
otherwise for the first parameter that is named like an earlier one. -/
inductive Site.Offends : Site → CompileError → Prop
  | tooLarge {s : Surroundings} {digits : String} {p : Position}
    (h : maxLiteral < Text.ofDigits digits.toList) :
    Offends ⟨s, .literal digits, p⟩ (.integerOutOfRange digits)
  | unknown {s : Surroundings} {name : String} {p : Position} (h : s.assignable? name = none) :
    Offends ⟨s, .read name, p⟩ (.unboundName name p)
  | unknownTarget {s : Surroundings} {name : String} {p : Position}
    (h : s.assignable? name = none) :
    Offends ⟨s, .assign (some name), p⟩ (.unboundName name p)
  | fixedTarget {s : Surroundings} {name : String} {p : Position}
    (h : s.assignable? name = some false) :
    Offends ⟨s, .assign (some name), p⟩ (.immutable name p)
  | noTarget {s : Surroundings} {p : Position} :
    Offends ⟨s, .assign none, p⟩ (.immutable "<expression>" p)
  | outside {s : Surroundings} {p : Position} (h : s.inFunction = false) :
    Offends ⟨s, .ret, p⟩ (.returnOutsideFunction p)
  | nested {s : Surroundings} {name : String} {params : List String} {p : Position}
    (h : s.topLevel = false) : Offends ⟨s, .func name params, p⟩ (.nestedFunction name p)
  | repeated {s : Surroundings} {name param : String} {earlier later : List String} {p : Position}
    (h : s.topLevel = true) (hearlier : earlier.Nodup) (hparam : param ∈ earlier) :
    Offends ⟨s, .func name (earlier ++ param :: later), p⟩ (.duplicateParameter param)

/-- Parameters that are not all different have a first one that is named like an earlier one. -/
theorem exists_repeated {params : List String} (h : ¬ params.Nodup) :
    ∃ earlier param later, params = earlier ++ param :: later ∧ earlier.Nodup ∧
      param ∈ earlier := by
  induction params using List.reverseRecOn with
  | nil => exact absurd List.nodup_nil h
  | append_singleton earlier param ih =>
    by_cases hearlier : earlier.Nodup
    · refine ⟨earlier, param, [], rfl, hearlier, ?_⟩
      by_contra hparam
      refine h (List.nodup_append.2 ⟨hearlier, List.nodup_singleton _, ?_⟩)
      intro a ha b hb hab
      rw [← List.mem_singleton.1 hb, ← hab] at hparam
      exact hparam ha
    · obtain ⟨e, q, l, rfl, he, hq⟩ := ih hearlier
      exact ⟨e, q, l ++ [param], by simp, he, hq⟩

/-- Of two elements of a list, they are the same or one stands before the other. -/
theorem eq_or_before {α : Type} {xs xs' ys ys' : List α} {a b : α}
    (heq : xs ++ a :: ys = xs' ++ b :: ys') :
    a = b ∨ (∃ zs, xs' = xs ++ a :: zs) ∨ ∃ zs, xs = xs' ++ b :: zs := by
  rcases List.append_eq_append_iff.1 heq with ⟨between, hxs, hys⟩ | ⟨between, hxs, hys⟩
  · cases between with
    | nil => exact .inl (List.cons.inj hys).1
    | cons first zs => exact .inr (.inl ⟨zs, (List.cons.inj hys).1 ▸ hxs⟩)
  · cases between with
    | nil => exact .inl (List.cons.inj hys).1.symm
    | cons first zs => exact .inr (.inr ⟨zs, (List.cons.inj hys).1 ▸ hxs⟩)

/-- There is only one first parameter that is named like an earlier one. -/
theorem repeated_unique {earlier earlier' later later' : List String} {param param' : String}
    (heq : earlier ++ param :: later = earlier' ++ param' :: later') (h : earlier.Nodup)
    (h' : earlier'.Nodup) (hparam : param ∈ earlier) (hparam' : param' ∈ earlier') :
    param = param' := by
  rcases eq_or_before heq with heq | ⟨zs, rfl⟩ | ⟨zs, rfl⟩
  · exact heq
  · exact absurd rfl ((List.nodup_append.1 h').2.2 _ hparam _ List.mem_cons_self)
  · exact absurd rfl ((List.nodup_append.1 h).2.2 _ hparam' _ List.mem_cons_self)

namespace Site

/-- A site that is allowed is not refused. -/
theorem Allowed.not_offends {s : Site} (h : s.Allowed) {e : CompileError} : ¬ s.Offends e := by
  intro he
  cases he with
  | tooLarge hlarge => exact absurd h (Nat.not_le.2 hlarge)
  | unknown hnone => exact h hnone
  | unknownTarget hnone =>
    obtain ⟨name, hname, hok⟩ := h
    cases hname
    rw [hnone] at hok
    cases hok
  | fixedTarget hfixed =>
    obtain ⟨name, hname, hok⟩ := h
    cases hname
    rw [hfixed] at hok
    cases hok
  | noTarget =>
    obtain ⟨name, hname, -⟩ := h
    cases hname
  | outside hout => exact absurd (h.symm.trans hout) (by decide)
  | nested htop => exact absurd (h.1.symm.trans htop) (by decide)
  | repeated _ _ hparam =>
    exact (List.nodup_append.1 h.2).2.2 _ hparam _ List.mem_cons_self rfl

/-- A site is allowed or refused. -/
theorem allowed_or_offends (s : Site) : s.Allowed ∨ ∃ e, s.Offends e := by
  obtain ⟨around, use, p⟩ := s
  cases use with
  | literal digits =>
    rcases Nat.lt_or_ge maxLiteral (Text.ofDigits digits.toList) with h | h
    · exact .inr ⟨_, .tooLarge h⟩
    · exact .inl h
  | read name =>
    by_cases h : around.assignable? name = none
    · exact .inr ⟨_, .unknown h⟩
    · exact .inl h
  | assign target =>
    cases target with
    | none => exact .inr ⟨_, .noTarget⟩
    | some name =>
      cases h : around.assignable? name with
      | none => exact .inr ⟨_, .unknownTarget h⟩
      | some mutable =>
        cases mutable with
        | false => exact .inr ⟨_, .fixedTarget h⟩
        | true => exact .inl ⟨name, rfl, h⟩
  | ret =>
    cases h : around.inFunction with
    | false => exact .inr ⟨_, .outside h⟩
    | true => exact .inl h
  | func name params =>
    cases h : around.topLevel with
    | false => exact .inr ⟨_, .nested h⟩
    | true =>
      by_cases hparams : params.Nodup
      · exact .inl ⟨h, hparams⟩
      · obtain ⟨earlier, param, later, rfl, hearlier, hparam⟩ := exists_repeated hparams
        exact .inr ⟨_, .repeated h hearlier hparam⟩

/-- A site is refused with one error only. -/
theorem Offends.unique {s : Site} {e e' : CompileError} (h : s.Offends e) (h' : s.Offends e') :
    e = e' := by
  cases h with
  | tooLarge => cases h'; rfl
  | unknown => cases h'; rfl
  | unknownTarget hnone =>
    cases h' with
    | unknownTarget => rfl
    | fixedTarget hfixed => exact absurd (hnone.symm.trans hfixed) (by simp)
  | fixedTarget hfixed =>
    cases h' with
    | unknownTarget hnone => exact absurd (hnone.symm.trans hfixed) (by simp)
    | fixedTarget => rfl
  | noTarget => cases h'; rfl
  | outside => cases h'; rfl
  | nested htop =>
    cases h' with
    | nested => rfl
    | repeated htop' => exact absurd (htop.symm.trans htop') (by decide)
  | repeated htop hearlier hparam =>
    generalize hparams : _ ++ _ :: _ = params at h'
    cases h' with
    | nested htop' => exact absurd (htop'.symm.trans htop) (by decide)
    | repeated _ hearlier' hparam' =>
      rw [repeated_unique hparams hearlier hearlier' hparam hparam']

end Site

/-! ## First offences -/

/-- The first site that is refused is refused with the error `e`. -/
def FirstOffence (sites : List Site) (e : CompileError) : Prop :=
  ∃ before s after, sites = before ++ s :: after ∧ (∀ t ∈ before, t.Allowed) ∧ s.Offends e

namespace FirstOffence

variable {sites others : List Site} {e e' : CompileError}

theorem append_right (h : FirstOffence sites e) : FirstOffence (sites ++ others) e := by
  obtain ⟨before, s, after, rfl, hbefore, hs⟩ := h
  exact ⟨before, s, after ++ others, by simp, hbefore, hs⟩

theorem append_left (hothers : ∀ s ∈ others, s.Allowed) (h : FirstOffence sites e) :
    FirstOffence (others ++ sites) e := by
  obtain ⟨before, s, after, rfl, hbefore, hs⟩ := h
  refine ⟨others ++ before, s, after, by simp, ?_, hs⟩
  intro t ht
  rcases List.mem_append.1 ht with ht | ht
  · exact hothers t ht
  · exact hbefore t ht

theorem of_offends {s : Site} (h : s.Offends e) : FirstOffence (s :: others) e :=
  ⟨[], s, others, rfl, fun _ ht => absurd ht List.not_mem_nil, h⟩

/-- Where there is a first offence, not all is allowed. -/
theorem not_allowed (h : FirstOffence sites e) : ¬ ∀ s ∈ sites, s.Allowed := by
  obtain ⟨before, s, after, rfl, -, hs⟩ := h
  intro hall
  exact (hall s (by simp)).not_offends hs

theorem unique (h : FirstOffence sites e) (h' : FirstOffence sites e') : e = e' := by
  obtain ⟨before, s, after, rfl, hbefore, hs⟩ := h
  obtain ⟨before', s', after', heq, hbefore', hs'⟩ := h'
  rcases eq_or_before heq with rfl | ⟨zs, rfl⟩ | ⟨zs, rfl⟩
  · exact hs.unique hs'
  · exact absurd hs (hbefore' s (by simp)).not_offends
  · exact absurd hs' (hbefore s' (by simp)).not_offends

end FirstOffence

end ScriptMachine.Scoping
