import ScriptMachine.Proofs.Compile.Fragments
import ScriptMachine.Proofs.Compile.LaidTwice

/-!
# Twin code

The code of a function is the same wherever its declaration is compiled, but for the places of its
constants, and so is the code of the statements of a fragment, but for where it stands. Compiled code
writes each register before it reads it.
-/

namespace ScriptMachine.Compile

open Source Bytecode Evaluation

/-! ## Functions -/

/-- The places of constants of two functions that stand for one datum. -/
def OneDatum (strings strings' : Array String) (p q : Prototype) (k k' : Nat) : Prop :=
  ∃ d c c', p.constants[k]? = some c ∧ q.constants[k']? = some c' ∧ Denotes strings c d ∧
    Denotes strings' c' d

/-- The codes of two functions whose constants belong together as `constants` says. -/
def twins (p q : Prototype) (shift : Nat) (constants : Nat → Nat → Prop) (returns : Prop) : Twins :=
  ⟨p.code, q.code, shift, constants, returns⟩

theorem joins_twins {strings strings' : Array String} {p q : Prototype} {shift : Nat}
    {constants : Nat → Nat → Prop} {mayReturn : Bool} {returns : Prop}
    (hconstants : ∀ k k', OneDatum strings strings' p q k k' → constants k k')
    (hreturns : mayReturn = true → returns) :
    Joins (twins p q shift constants returns) (coding strings mayReturn p)
      (coding strings' mayReturn q) where
  code := rfl
  other := rfl
  constants := by
    rintro k k' d ⟨c, hc, hd⟩ ⟨c', hc', hd'⟩
    exact hconstants k k' ⟨d, c, c', hc, hc', hd, hd'⟩
  returns := hreturns

/-- Two functions that one declaration was compiled to have twin code. -/
theorem FunctionAt.throughout {strings strings' : Array String} {p q : Prototype} {f : Closure}
    (hp : FunctionAt strings p f) (hq : FunctionAt strings' q f) {constants : Nat → Nat → Prop}
    (hconstants : ∀ k k', OneDatum strings strings' p q k k' → constants k k') :
    (twins p q 0 constants True).Throughout f.params.length := by
  have hT : Joins (twins p q 0 constants True) (coding strings true p) (coding strings' true q) :=
    joins_twins hconstants fun _ => trivial
  obtain ⟨hsc, hspare⟩ := paramScope_inOrder hp.room
  obtain ⟨k, hbody, hret, hsize⟩ := hp.body
  obtain ⟨k', hbody', hret', hsize'⟩ := hq.body
  obtain ⟨rfl, hruns⟩ := along_block hT f.body hbody hbody' hsc hspare
  have hknown : (paramScope f.params).Known (· < f.params.length) := by
    refine ⟨fun x hx => ?_, fun r hr => Nat.lt_succ_of_lt hr⟩
    have := List.snd_lt_of_mem_zipIdx (List.mem_reverse.1 hx)
    omega
  have hlast := hT.flow_ret (P := adding (· < f.params.length) f.params.length)
    (Q := fun _ => False) (Nat.lt_succ_of_lt hp.room.1) (.inr rfl) rfl hret hret'
  have hflow := (hruns _ hknown).trans hlast
  rw [← hsize] at hflow
  exact hflow.throughout (fun _ hr => hr) (hsize'.trans hsize.symm)

/-! ## Fragments -/

theorem endsInExpr_cons {stmt : Stmt} {rest : List Stmt} (h : endsInExpr (stmt :: rest) = true) :
    (∃ e, stmt = .expr e) ∨ endsInExpr rest = true := by
  cases rest with
  | nil =>
    cases stmt with
    | expr e => exact .inl ⟨e, rfl⟩
    | _ => cases h
  | cons next rest =>
    refine .inr ?_
    unfold endsInExpr at h ⊢
    rwa [List.getLast?_cons_cons] at h

/-- The registers that have been written after statements at the top level: the result is one of them
when the last statement is an expression. -/
def resulting (stmts : List Stmt) (P : Nat → Prop) (r : Nat) : Prop :=
  P r ∨ r = resultReg ∧ endsInExpr stmts = true

section

variable {T : Twins} {C C' : Coding} {made made' : Nat → Closure → Prop}
  {after after' names : Names} {rest : List Stmt} {i k j : Nat} {P Q : Nat → Prop}

theorem known_top (h : ∀ r, P r → r = resultReg) : topScope.Known P where
  within _ hx := absurd hx List.not_mem_nil
  lt r hr := h r hr ▸ Nat.lt_succ_self _

/-- A statement that is no expression leaves the result to the rest. -/
theorem flow_cons {stmt : Stmt} (hfirst : T.Flow i k P P) (hstmt : ∀ e, stmt ≠ .expr e)
    (hrest : T.Flow k j P (resulting rest P)) : T.Flow i j P (resulting (stmt :: rest) P) := by
  refine (hfirst.trans hrest).weaken (fun _ hr => hr) fun r hr => hr.imp_right fun hr => ?_
  rcases endsInExpr_cons hr.2 with ⟨e, he⟩ | hends
  · exact absurd he (hstmt e)
  · exact ⟨hr.1, hends⟩

/-- A definition at the top level: the value in the register on top goes to a slot. -/
theorem Joins.flow_definition (hT : Joins T C C') {slot : Nat} (hvalue : T.Flow i k P (adding P 1))
    (hw : C.At k (.abx .defGlobal 1 slot)) (hw' : C'.At (k + T.shift) (.abx .defGlobal 1 slot)) :
    T.Flow i (k + 1) P P :=
  (hvalue.trans (hT.flow_global (by decide) (.inr rfl) (.inr rfl) hw hw')).weaken (fun _ hr => hr)
    fun _ => .inl

/-- A load of a function that was compiled from one declaration. -/
theorem Joins.flow_function (hT : Joins T C C') {m m' : Nat} (hm : m ≤ maxWide) (hm' : m' ≤ maxWide)
    (hconstants : T.constants m m') (hw : C.At i (.abx .loadConst 1 m))
    (hw' : C'.At (i + T.shift) (.abx .loadConst 1 m')) : T.Flow i (i + 1) P (adding P 1) := by
  have ha : ∀ y, Word.a (.abx .loadConst 1 y) = 1 := fun _ => Word.a_abx _ (by decide)
  have hpaired : T.Paired i (.abx .loadConst 1 m) .loadConst := by
    refine ⟨hT.word hw, Word.opcode?_abx .., _, hT.word' hw', Word.opcode?_abx .., ?_⟩
    refine ⟨(ha m').trans (ha m).symm, ?_⟩
    rw [Word.bx_abx _ (Nat.lt_succ_of_le hm), Word.bx_abx _ (Nat.lt_succ_of_le hm')]
    exact hconstants
  exact Joins.flow hpaired (fun _ h => h) (by decide) (by decide)
    (fun r hr => hr.trans (ha m).symm) fun _ hr => hr.elim

/-- Statements at the top level that are laid out twice lead to the same names, and their code runs
alike. -/
theorem flow_top (hT : Joins T C C') (hmade : ∀ m m' f, made m f → made' m' f → T.constants m m')
    {stmts : List Stmt} {j' : Nat} (hroom : C.Room 0) (h : TopAt C made after names stmts i j)
    (h' : TopAt C' made' after' names stmts (i + T.shift) j') :
    after' = after ∧ j' = j + T.shift ∧
      ∀ P, topScope.Known P → T.Flow i j P (resulting stmts P) := by
  have hsc := topScope_inOrder hroom
  induction h generalizing j' with
  | nil =>
    cases h'
    refine ⟨rfl, rfl, fun P _ => (Twins.Flow.refl T _ P).weaken (fun _ hr => hr) fun r hr => ?_⟩
    rcases hr with hr | ⟨-, hends⟩
    · exact hr
    · cases hends
  | expr he hrest ih =>
    cases h' with
    | expr he' hrest' =>
      obtain ⟨rfl, he⟩ := along_expr hT _ he he' hsc topScope_spare
      obtain ⟨rfl, rfl, hrest⟩ := ih hrest'
      refine ⟨rfl, rfl, fun P hP => ((he P hP).trans (hrest _ (hP.adding topScope_spare))).weaken
        (fun _ hr => hr) fun r hr => ?_⟩
      rcases hr with hr | ⟨rfl, -⟩
      · exact .inl (.inl hr)
      · exact .inl (.inr rfl)
    | plain hplain => exact hplain.elim
  | bind hroom₁ he hslot hw hrest ih =>
    cases h' with
    | bind hroom₁' he' hslot' hw' hrest' =>
      obtain ⟨rfl, he⟩ := along_expr hT _ he he' (hsc.take hroom₁) hsc.spare_take
      rw [Nat.add_right_comm] at hrest'
      obtain ⟨rfl, rfl, hrest⟩ := ih hrest'
      refine ⟨rfl, rfl, fun P hP => ?_⟩
      exact flow_cons (hT.flow_definition (he P hP.wide) hw hw') (by simp) (hrest P hP)
    | plain hplain => exact hplain.elim
  | func hroom₁ hm hmade₁ hload hslot hdef hrest ih =>
    cases h' with
    | func hroom₁' hm' hmade₁' hload' hslot' hdef' hrest' =>
      rw [Nat.add_right_comm] at hrest' hdef'
      obtain ⟨rfl, rfl, hrest⟩ := ih hrest'
      refine ⟨rfl, rfl, fun P hP => ?_⟩
      have hvalue := hT.flow_function (P := P) hm hm' (hmade _ _ _ hmade₁ hmade₁') hload hload'
      exact flow_cons (hT.flow_definition hvalue hdef hdef') (by simp) (hrest P hP)
    | plain hplain => exact hplain.elim
  | plain hplain hstmt hrest ih =>
    cases h' with
    | expr => exact hplain.elim
    | bind => exact hplain.elim
    | func => exact hplain.elim
    | plain _ hstmt' hrest' =>
      obtain ⟨-, rfl, hstmt⟩ := along_stmt hT _ hstmt hstmt' hsc
      obtain ⟨rfl, rfl, hrest⟩ := ih hrest'
      refine ⟨rfl, rfl, fun P hP => flow_cons ?_ (fun e he => ?_) (hrest P hP)⟩
      · exact (hstmt P hP).weaken (fun _ hr => hr) fun _ => .inl
      · rw [he] at hplain
        exact hplain

end

/-- The code of two lists of statements is that of the first, and then that of the second. -/
theorem topAt_append {C : Coding} {made : Nat → Closure → Prop} {after names : Names}
    {p q : List Stmt} {i j : Nat} (h : TopAt C made after names (p ++ q) i j) :
    ∃ between k, TopAt C made between names p i k ∧ TopAt C made after between q k j := by
  induction p generalizing names i with
  | nil => exact ⟨names, i, .nil, h⟩
  | cons stmt rest ih =>
    cases h with
    | expr he hrest =>
      obtain ⟨between, k, hp, hq⟩ := ih hrest
      exact ⟨between, k, .expr he hp, hq⟩
    | bind hroom he hslot hw hrest =>
      obtain ⟨between, k, hp, hq⟩ := ih hrest
      exact ⟨between, k, .bind hroom he hslot hw hp, hq⟩
    | func hroom hk hmade hload hslot hdef hrest =>
      obtain ⟨between, k, hp, hq⟩ := ih hrest
      exact ⟨between, k, .func hroom hk hmade hload hslot hdef hp, hq⟩
    | plain hplain hstmt hrest =>
      obtain ⟨between, k, hp, hq⟩ := ih hrest
      exact ⟨between, k, .plain hplain hstmt hp, hq⟩

/-- The main body of a fragment writes each register before it reads it. -/
theorem MainAt.definite {strings : Array String} {p : Prototype} {made : Nat → Closure → Prop}
    {names after : Names} {f : Fragment} (h : MainAt (coding strings false p) made names after f) :
    Definite 0 p.code := by
  have hT : Joins (twins p p 0 (fun _ _ => True) True) (coding strings false p)
      (coding strings false p) := joins_twins (fun _ _ _ => trivial) fun _ => trivial
  obtain ⟨k, htop, hret, hsize⟩ := h.body
  obtain ⟨-, -, hrest⟩ := flow_top hT (fun _ _ _ _ _ => trivial) h.room htop htop
  have hstart := hT.flow_load (P := fun _ => False) (by decide) (by simp) h.start h.start
  have hlast : (twins p p 0 (fun _ _ => True) True).Flow k (k + 1)
      (resulting f (adding (fun _ => False) resultReg)) fun _ => False :=
    (hT.paired hret hret (Word.opcode?_abc ..) trivial).flow_ret (.inl (.inr (Word.a_abc _ (by decide))))
      trivial
  have hknown : topScope.Known (adding (fun _ => False) resultReg) :=
    known_top fun r hr => hr.resolve_left fun hr => hr.elim
  have hflow := (hstart.trans (hrest _ hknown)).trans hlast
  rw [← hsize] at hflow
  exact (hflow.throughout (fun _ hr => hr.elim) rfl).definite

/-- The main body of a compiled fragment writes each register before it reads it. -/
theorem definite_main_of_compileFragment {names : Names} {f : Fragment} {c : Compiled}
    (h : compileFragment names f = .ok c) (hstrings : c.program.strings.size ≤ 2 ^ 32)
    (hprototypes : c.program.prototypes.size ≤ 2 ^ 32) : Definite 0 c.program.main.code :=
  ((laid_declared h).code hstrings hprototypes).definite

/-- All code of a compiled fragment writes each register before it reads it. -/
theorem definite_of_compileFragment {names : Names} {f : Fragment} {c : Compiled}
    (h : compileFragment names f = .ok c) (hstrings : c.program.strings.size ≤ 2 ^ 32)
    (hprototypes : c.program.prototypes.size ≤ 2 ^ 32) :
    ∀ p ∈ c.program.bodies, Definite p.arity.toNat p.code := by
  intro p hp
  rcases List.mem_append.1 hp with hp | hp
  · obtain ⟨g, -, -, hg⟩ := (laid_declared h).exists_closure hp
    have hat := hg hstrings
    rw [hat.arity]
    have hself : (twins p p 0 (fun _ _ => True) True).Throughout g.params.length :=
      hat.throughout hat fun _ _ _ => trivial
    exact hself.definite
  · obtain rfl := List.mem_singleton.1 hp
    exact (definite_main_of_compileFragment h hstrings hprototypes).mono (Nat.zero_le _)

end ScriptMachine.Compile
