import ScriptMachine.Proofs.Bytecode.Flow
import ScriptMachine.Proofs.Compile.Layout

/-!
# One tree laid out twice

A tree that is laid out in two bodies, in the same scope and with the same target, has code that runs
alike in both: the second stretch is as long as the first, its jumps are shifted with it, and its
constants stand for the same data. The code reads the locals in scope and what it has written itself.
With one body in place of two this says that compiled code writes each register before it reads it.
-/

namespace ScriptMachine.Compile

open Source Bytecode Evaluation

/-! ## Instructions in two bodies -/

/-- Constants that stand for one datum belong together. -/
structure Joins (T : Twins) (C C' : Coding) : Prop where
  code : T.code = C.code
  other : T.other = C'.code
  constants : ∀ k k' d, C.constant k d → C'.constant k' d → T.constants k k'
  returns : C.returns = true → T.returns

/-- The registers in `P`, and one more. -/
def adding (P : Nat → Prop) (t r : Nat) : Prop :=
  P r ∨ r = t

/-- An instruction that takes neither a constant nor a place in the code. -/
def Placeless : Opcode → Prop
  | .loadConst | .jump | .jumpIfFalse | .jumpIfTrue => False
  | _ => True

namespace Joins

variable {T : Twins} {C C' : Coding} {P Q : Nat → Prop} {i : Nat} {w : Word} {op : Opcode}

theorem word (hT : Joins T C C') (hw : C.At i w) : T.code[i]? = some w := by
  rw [hT.code]
  exact hw

theorem word' (hT : Joins T C C') (hw : C'.At i w) : T.other[i]? = some w := by
  rw [hT.other]
  exact hw

/-- The same word in both bodies. -/
theorem paired (hT : Joins T C C') (hw : C.At i w) (hw' : C'.At (i + T.shift) w)
    (hop : w.opcode? = some op) (hplaceless : Placeless op) : T.Paired i w op where
  here := hT.word hw
  opcode := hop
  twin := ⟨w, hT.word' hw', hop, by cases op <;> first | rfl | exact hplaceless.elim⟩

/-- Jumps to places that match. -/
theorem paired_jump (hT : Joins T C C') (hop : op = .jump ∨ op = .jumpIfFalse ∨ op = .jumpIfTrue)
    {x y : Nat} (hx : x < 256) (hw : C.At i (.abx op x y))
    (hw' : C'.At (i + T.shift) (.abx op x (y + T.shift))) (hy : y ≤ maxWide)
    (hy' : y + T.shift ≤ maxWide) : T.Paired i (.abx op x y) op where
  here := hT.word hw
  opcode := Word.opcode?_abx ..
  twin := by
    have ha : Word.a (.abx op x (y + T.shift)) = Word.a (.abx op x y) := by
      rw [Word.a_abx _ hx, Word.a_abx _ hx]
    have hb : Word.bx (.abx op x (y + T.shift)) = Word.bx (.abx op x y) + T.shift := by
      rw [Word.bx_abx _ (Nat.lt_succ_of_le hy), Word.bx_abx _ (Nat.lt_succ_of_le hy')]
    refine ⟨_, hT.word' hw', Word.opcode?_abx .., ?_⟩
    rcases hop with rfl | rfl | rfl
    · exact hb
    · exact ⟨ha, hb⟩
    · exact ⟨ha, hb⟩

/-- An instruction that writes its target and reads what has been written. -/
theorem flow (hpaired : T.Paired i w op) (hlead : ∀ next, op.Leads w i next → next = i + 1)
    (hret : op ≠ .ret) (hcall : op ≠ .call) {t : Nat} (hwrites : ∀ r, r = t → op.Writes w r)
    (hreads : ∀ r, op.Reads w r → P r) : T.Flow i (i + 1) P (adding P t) :=
  hpaired.flow hreads hlead hret fun r hr =>
    hr.imp (fun hr => ⟨hr, Opcode.spares_of_ne hcall w r⟩) (hwrites r)

/-- An instruction that writes no register beside those that count as written. -/
theorem flow_still (hpaired : T.Paired i w op) (hlead : ∀ next, op.Leads w i next → next = i + 1)
    (hret : op ≠ .ret) (hcall : op ≠ .call) (hreads : ∀ r, op.Reads w r → P r) :
    T.Flow i (i + 1) P P :=
  hpaired.flow hreads hlead hret fun r hr => .inl ⟨hr, Opcode.spares_of_ne hcall w r⟩

/-- A load of a constant that stands for the same datum in both bodies. -/
theorem flow_constant (hT : Joins T C C') {t k k' : Nat} {d : Datum} (ht : t < 256)
    (hk : C.Holds k d) (hk' : C'.Holds k' d) (hw : C.At i (.abx .loadConst t k))
    (hw' : C'.At (i + T.shift) (.abx .loadConst t k')) : T.Flow i (i + 1) P (adding P t) := by
  have ha : ∀ y, Word.a (.abx .loadConst t y) = t := fun _ => Word.a_abx _ ht
  have hb : ∀ y, y ≤ maxWide → Word.bx (.abx .loadConst t y) = y :=
    fun y hy => Word.bx_abx _ (Nat.lt_succ_of_le hy)
  have hpaired : T.Paired i (.abx .loadConst t k) .loadConst := by
    refine ⟨hT.word hw, Word.opcode?_abx .., _, hT.word' hw', Word.opcode?_abx .., ?_⟩
    refine ⟨(ha k').trans (ha k).symm, ?_⟩
    rw [hb k hk.1, hb k' hk'.1]
    exact hT.constants k k' d hk.2 hk'.2
  exact flow hpaired (fun _ h => h) (by decide) (by decide) (fun r hr => hr.trans (ha k).symm)
    fun _ hr => hr.elim

/-- A load of anything else. -/
theorem flow_load (hT : Joins T C C') {t y : Nat} (ht : t < 256)
    (hop : op = .loadTrue ∨ op = .loadFalse ∨ op = .loadNil ∨ op = .getGlobal ∨ op = .getPrim)
    (hw : C.At i (.abx op t y)) (hw' : C'.At (i + T.shift) (.abx op t y)) :
    T.Flow i (i + 1) P (adding P t) := by
  have ha : Word.a (.abx op t y) = t := Word.a_abx _ ht
  have hpaired : T.Paired i (.abx op t y) op :=
    hT.paired hw hw' (Word.opcode?_abx ..) (by rcases hop with rfl | rfl | rfl | rfl | rfl <;> trivial)
  rcases hop with rfl | rfl | rfl | rfl | rfl <;>
    exact flow hpaired (fun _ h => h) (by decide) (by decide) (fun r hr => hr.trans ha.symm)
      fun _ hr => hr.elim

/-- A move from a register that has been written. -/
theorem flow_move (hT : Joins T C C') {t x : Nat} (ht : t < 256) (hx : x < 256) (hP : P x)
    (hw : C.At i (.abc .move t x 0)) (hw' : C'.At (i + T.shift) (.abc .move t x 0)) :
    T.Flow i (i + 1) P (adding P t) := by
  refine flow (hT.paired hw hw' (Word.opcode?_abc ..) trivial) (fun _ h => h) (by decide) (by decide)
    (fun r hr => hr.trans (Word.a_abc _ ht).symm) fun r hr => ?_
  obtain rfl : r = x := hr.trans (Word.b_abc _ hx)
  exact hP

/-- An instruction that reads one register and writes to a global slot. -/
theorem flow_global (hT : Joins T C C') {x y : Nat} (hx : x < 256) (hP : P x)
    (hop : op = .setGlobal ∨ op = .defGlobal) (hw : C.At i (.abx op x y))
    (hw' : C'.At (i + T.shift) (.abx op x y)) : T.Flow i (i + 1) P P := by
  have ha : Word.a (.abx op x y) = x := Word.a_abx _ hx
  have hpaired : T.Paired i (.abx op x y) op :=
    hT.paired hw hw' (Word.opcode?_abx ..) (by rcases hop with rfl | rfl <;> trivial)
  rcases hop with rfl | rfl <;>
    exact flow_still hpaired (fun _ h => h) (by decide) (by decide)
      fun r hr => (hr.trans ha : r = x) ▸ hP

/-- A return. -/
theorem flow_ret (hT : Joins T C C') {x : Nat} (hx : x < 256) (hP : P x) (hreturns : C.returns = true)
    (hw : C.At i (.abc .ret x 0 0)) (hw' : C'.At (i + T.shift) (.abc .ret x 0 0)) :
    T.Flow i (i + 1) P Q := by
  refine (hT.paired hw hw' (Word.opcode?_abc ..) trivial).flow_ret ?_ (hT.returns hreturns)
  rwa [Word.a_abc _ hx]

/-- An operator on a register that has been written. -/
theorem flow_unary (hT : Joins T C C') {uop : UnaryOp} {t : Nat} (ht : t < 256) (hP : P t)
    (hw : C.At i (.abc (unaryCode uop) t t 0)) (hw' : C'.At (i + T.shift) (.abc (unaryCode uop) t t 0)) :
    T.Flow i (i + 1) P P := by
  have hb : ∀ op : Opcode, Word.b (.abc op t t 0) = t := fun op => Word.b_abc op ht
  cases uop <;>
    exact flow_still (hT.paired hw hw' (Word.opcode?_abc ..) trivial) (fun _ h => h) (by decide)
      (by decide) fun r hr => (hr.trans (hb _) : r = t) ▸ hP

/-- An operator on two registers that have been written. -/
theorem flow_binary (hT : Joins T C C') {bop : BinaryOp} {t u : Nat}
    (hcode : operatorCode? bop = some op) (ht : t < 256) (hu : u < 256) (hPt : P t) (hPu : P u)
    (hw : C.At i (.abc op t t u)) (hw' : C'.At (i + T.shift) (.abc op t t u)) :
    T.Flow i (i + 1) P P := by
  have hb : ∀ op : Opcode, Word.b (.abc op t t u) = t := fun op => Word.b_abc op ht
  have hc : ∀ op : Opcode, Word.c (.abc op t t u) = u := fun op => Word.c_abc op hu
  have hreads : ∀ op r, r = Word.b (.abc op t t u) ∨ r = Word.c (.abc op t t u) → P r := by
    rintro op r (rfl | rfl)
    · rwa [hb]
    · rwa [hc]
  cases bop <;> cases hcode <;>
    exact flow_still (hT.paired hw hw' (Word.opcode?_abc ..) trivial) (fun _ h => h) (by decide)
      (by decide) (hreads _)

/-- A call of a register that has been written on registers that have been. The registers before that of
the callee are still written after it. -/
theorem flow_call (hT : Joins T C C') {t x n : Nat} (ht : t < 256) (hx : x < 256) (hn : n < 256)
    (hP : ∀ r, x ≤ r → r ≤ x + n → P r) (hQ : ∀ r, Q r → P r ∧ r ≤ x)
    (hw : C.At i (.abc .call t x n)) (hw' : C'.At (i + T.shift) (.abc .call t x n)) :
    T.Flow i (i + 1) P (adding Q t) := by
  refine (hT.paired hw hw' (Word.opcode?_abc ..) trivial).flow (fun r hr => ?_) (fun _ h => h)
    (by decide) fun r hr => ?_
  · have hr' : Word.b (.abc .call t x n) ≤ r ∧
        r ≤ Word.b (.abc .call t x n) + Word.c (.abc .call t x n) := hr
    rw [Word.b_abc _ hx, Word.c_abc _ hn] at hr'
    exact hP r hr'.1 hr'.2
  · refine hr.imp (fun hr => ⟨(hQ r hr).1, fun _ => ?_⟩) fun hr => hr.trans (Word.a_abc _ ht).symm
    rw [Word.b_abc _ hx]
    exact (hQ r hr).2

end Joins

/-! ## Trees -/

section

variable {T : Twins} {C C' : Coding} {names : Names}

/-- The registers of the locals have been written. -/
def Scope.Within (sc : Scope) (P : Nat → Prop) : Prop :=
  ∀ x ∈ sc.locals, P x.2

/-- The registers in `P`, and those of the locals in scope. -/
def Scope.joined (sc : Scope) (P : Nat → Prop) (r : Nat) : Prop :=
  P r ∨ ∃ x ∈ sc.locals, x.2 = r

theorem Scope.Within.mono {sc : Scope} {P Q : Nat → Prop} (h : sc.Within P) (hPQ : ∀ r, P r → Q r) :
    sc.Within Q :=
  fun x hx => hPQ _ (h x hx)

/-- The registers in `P` are in use in this scope, and those of its locals are among them. -/
structure Scope.Known (sc : Scope) (P : Nat → Prop) : Prop where
  within : sc.Within P
  lt : ∀ r, P r → r < sc.top

/-- A register is taken and written. -/
theorem Scope.Known.take {sc : Scope} {P : Nat → Prop} (h : sc.Known P) :
    sc.take.Known (adding P sc.top) where
  within := h.within.mono fun _ => .inl
  lt r hr := by
    show r < sc.top + 1
    rcases hr with hr | rfl
    · exact Nat.lt_succ_of_lt (h.lt r hr)
    · exact Nat.lt_succ_self _

/-- A register is taken and not yet written. -/
theorem Scope.Known.wide {sc : Scope} {P : Nat → Prop} (h : sc.Known P) : sc.take.Known P where
  within := h.within
  lt r hr := Nat.lt_succ_of_lt (h.lt r hr)

/-- A register in use is written. -/
theorem Scope.Known.adding {sc : Scope} {P : Nat → Prop} (h : sc.Known P) {t : Nat}
    (ht : sc.Spare t) : sc.Known (adding P t) where
  within := h.within.mono fun _ => .inl
  lt r hr := by
    rcases hr with hr | rfl
    · exact h.lt r hr
    · exact ht.1

theorem Scope.Spare.lt {sc : Scope} {t : Nat} (h : sc.Spare t) (hsc : sc.InOrder C) : t < 256 :=
  Nat.lt_of_lt_of_le h.1 (Nat.le_succ_of_le hsc.top_le)

theorem Scope.InOrder.reg_lt {sc : Scope} {ident : String} {r : Nat} (hsc : sc.InOrder C)
    (h : sc.reg? ident = some r) : r < 256 :=
  Nat.lt_of_lt_of_le (hsc.regs _ (Scope.mem_of_reg? h)) (Nat.le_succ_of_le hsc.top_le)

theorem Scope.joined_iff {sc : Scope} {P : Nat → Prop} (h : sc.Known P) {r : Nat} :
    sc.joined P r ↔ P r := by
  refine ⟨?_, .inl⟩
  rintro (hr | ⟨x, hx, rfl⟩)
  · exact hr
  · exact h.within x hx

/-- A register that holds no local does not become one when a statement declares one. -/
theorem spare_of_stmtAt {stmt : Stmt} {sc sc' : Scope} {t i j : Nat}
    (h : StmtAt C names stmt sc sc' i j) (ht : sc.Spare t) : sc'.Spare t := by
  cases h with
  | bind =>
    refine ⟨Nat.lt_succ_of_lt ht.1, fun x hx => ?_⟩
    rcases List.mem_cons.1 hx with rfl | hx
    · exact Nat.ne_of_gt ht.1
    · exact ht.2 x hx
  | _ => exact ht

/-- A statement leaves the locals of the scope that it leads to among the registers in use. -/
theorem known_of_stmtAt {stmt : Stmt} {sc sc' : Scope} {i j : Nat} {P : Nat → Prop}
    (h : StmtAt C names stmt sc sc' i j) (hsc : sc'.InOrder C) (hP : sc.Known P) :
    sc'.Known (sc'.joined P) where
  within x hx := .inr ⟨x, hx, rfl⟩
  lt r hr := by
    rcases hr with hr | ⟨x, hx, rfl⟩
    · have hlt := hP.lt r hr
      cases h with
      | bind => exact Nat.lt_succ_of_lt hlt
      | _ => exact hlt
    · exact hsc.regs x hx

/-- From where the locals have been written, the code from `i` to `j` runs alike. -/
def Runs (T : Twins) (sc : Scope) (i j : Nat) (post : (Nat → Prop) → Nat → Prop) : Prop :=
  ∀ P, sc.Known P → T.Flow i j P (post P)

/-- The two stretches of code of a part of a tree are equally long and run alike. -/
def Along (T : Twins) (sc : Scope) (i j j' : Nat) (post : (Nat → Prop) → Nat → Prop) : Prop :=
  j' = j + T.shift ∧ Runs T sc i j post

/-- The code of an expression that leaves its value in `t`. -/
abbrev Fills (T : Twins) (sc : Scope) (t i j : Nat) : Prop :=
  Runs T sc i j fun P => adding P t

/-! ## Parts of trees -/

variable (T C C' names)

/-- Wherever this expression is laid out twice, its code runs alike and writes the target. -/
def ExprTwice (e : Expr) : Prop :=
  ∀ {sc : Scope} {t i j j' : Nat}, ExprAt C names e sc t i j →
    ExprAt C' names e sc t (i + T.shift) j' → sc.InOrder C → sc.Spare t →
      Along T sc i j j' fun P => adding P t

/-- Wherever these arguments are laid out twice, their code runs alike and writes their registers. -/
def ArgsTwice (args : List Expr) : Prop :=
  ∀ {sc : Scope} {i j j' : Nat}, ArgsAt C names args sc i j →
    ArgsAt C' names args sc (i + T.shift) j' → sc.InOrder C →
      Along T sc i j j' fun P r => P r ∨ sc.top ≤ r ∧ r < sc.top + args.length

/-- The same for an alternative. -/
def ElseTwice (e : Else) : Prop :=
  ∀ {sc : Scope} {t i j j' : Nat}, ElseAt C names e sc t i j →
    ElseAt C' names e sc t (i + T.shift) j' → sc.InOrder C → sc.Spare t →
      Along T sc i j j' fun P => adding P t

/-- The same for a block. -/
def BlockTwice (body : Block) : Prop :=
  ∀ {sc : Scope} {t i j j' : Nat}, BlockAt C names body sc t i j →
    BlockAt C' names body sc t (i + T.shift) j' → sc.InOrder C → sc.Spare t →
      Along T sc i j j' fun P => adding P t

/-- The same for the statements of a block. -/
def TailTwice (stmts : List Stmt) : Prop :=
  ∀ {sc : Scope} {t i j j' : Nat}, TailAt C names stmts sc t i j →
    TailAt C' names stmts sc t (i + T.shift) j' → sc.InOrder C → sc.Spare t →
      Along T sc i j j' fun P => adding P t

/-- Wherever this statement is laid out twice, its code runs alike, leads to one scope and writes the
locals of that. -/
def StmtTwice (stmt : Stmt) : Prop :=
  ∀ {sc sc₁ sc₂ : Scope} {i j j' : Nat}, StmtAt C names stmt sc sc₁ i j →
    StmtAt C' names stmt sc sc₂ (i + T.shift) j' → sc.InOrder C →
      sc₂ = sc₁ ∧ Along T sc i j j' sc₁.joined

variable {T C C' names} (hT : Joins T C C')

include hT

/-! ### Expressions -/

theorem twice_number (digits : String) (pos : Position) :
    ExprTwice T C C' names (.number digits pos) := by
  intro sc t i j j' h h' hsc ht
  cases h with
  | number hn hk hw =>
    cases h' with
    | number hn' hk' hw' =>
      obtain rfl := Except.ok.inj (hn.symm.trans hn')
      exact ⟨Nat.add_right_comm .., fun P _ => hT.flow_constant (ht.lt hsc) hk hk' hw hw'⟩

theorem twice_text (raw : String) (pos : Position) : ExprTwice T C C' names (.text raw pos) := by
  intro sc t i j j' h h' hsc ht
  cases h with
  | text hk hw =>
    cases h' with
    | text hk' hw' =>
      exact ⟨Nat.add_right_comm .., fun P _ => hT.flow_constant (ht.lt hsc) hk hk' hw hw'⟩

theorem twice_bool (b : Bool) (pos : Position) : ExprTwice T C C' names (.bool b pos) := by
  intro sc t i j j' h h' hsc ht
  cases h with
  | bool hw =>
    cases h' with
    | bool hw' =>
      refine ⟨Nat.add_right_comm .., fun P _ => hT.flow_load (ht.lt hsc) ?_ hw hw'⟩
      cases b <;> simp

theorem twice_nil (pos : Position) : ExprTwice T C C' names (.nil pos) := by
  intro sc t i j j' h h' hsc ht
  cases h with
  | nil hw =>
    cases h' with
    | nil hw' => exact ⟨Nat.add_right_comm .., fun P _ => hT.flow_load (ht.lt hsc) (by simp) hw hw'⟩

theorem twice_name (ident : String) (pos : Position) : ExprTwice T C C' names (.name ident pos) := by
  intro sc t i j j' h h' hsc ht
  have hspare : sc.reg? ident ≠ some t := fun hreg => ht.2 _ (Scope.mem_of_reg? hreg) rfl
  cases h with
  | here hreg => exact absurd hreg hspare
  | move hreg hw =>
    cases h' with
    | here hreg' => exact absurd hreg' hspare
    | move hreg' hw' =>
      obtain rfl := Option.some.inj (hreg.symm.trans hreg')
      exact ⟨Nat.add_right_comm .., fun P hP => hT.flow_move (ht.lt hsc) (hsc.reg_lt hreg)
        (hP.within _ (Scope.mem_of_reg? hreg)) hw hw'⟩
    | global hreg' => simp [hreg] at hreg'
    | primitive hreg' => simp [hreg] at hreg'
  | global hreg hg hslot hw =>
    cases h' with
    | here hreg' => exact absurd hreg' hspare
    | move hreg' => simp [hreg] at hreg'
    | global hreg' hg' hslot' hw' =>
      obtain rfl := Option.some.inj (hg.symm.trans hg')
      exact ⟨Nat.add_right_comm .., fun P _ => hT.flow_load (ht.lt hsc) (by simp) hw hw'⟩
    | primitive hreg' hg' => simp [hg] at hg'
  | primitive hreg hg hindex hwide hw =>
    cases h' with
    | here hreg' => exact absurd hreg' hspare
    | move hreg' => simp [hreg] at hreg'
    | global hreg' hg' => simp [hg] at hg'
    | primitive hreg' hg' hindex' hwide' hw' =>
      obtain rfl := Option.some.inj (hindex.symm.trans hindex')
      exact ⟨Nat.add_right_comm .., fun P _ => hT.flow_load (ht.lt hsc) (by simp) hw hw'⟩

theorem twice_binary {op : BinaryOp} {lhs rhs : Expr} {pos : Position}
    (hlhs : ExprTwice T C C' names lhs) (hrhs : ExprTwice T C C' names rhs) :
    ExprTwice T C C' names (.binary op lhs rhs pos) := by
  intro sc t i j j' h h' hsc ht
  cases h with
  | binary hcode hl hroom hr hw =>
    cases h' with
    | logical hcode' => simp [hcode] at hcode'
    | binary hcode' hl' hroom' hr' hw' =>
      obtain rfl := Option.some.inj (hcode.symm.trans hcode')
      obtain ⟨rfl, hl⟩ := hlhs hl hl' hsc ht
      obtain ⟨rfl, hr⟩ := hrhs hr hr' (hsc.take hroom) hsc.spare_take
      refine ⟨Nat.add_right_comm .., fun P hP => ?_⟩
      have hlast := hT.flow_binary (P := adding (adding P t) sc.top) hcode (ht.lt hsc)
        (Nat.lt_succ_of_lt hroom.1) (.inl (.inr rfl)) (.inr rfl) hw hw'
      exact ((hl P hP).trans ((hr _ (hP.adding ht).wide).trans hlast)).weaken (fun _ hr => hr)
        fun _ => .inl
  | logical hcode hl hw hr hj =>
    cases h' with
    | binary hcode' => simp [hcode] at hcode'
    | logical hcode' hl' hw' hr' hj' =>
      obtain ⟨rfl, hl⟩ := hlhs hl hl' hsc ht
      rw [Nat.add_right_comm] at hr'
      obtain ⟨rfl, hr⟩ := hrhs hr hr' hsc ht
      have hop : skipCode op = .jumpIfFalse ∨ skipCode op = .jumpIfTrue := by
        cases op <;> simp [skipCode]
      have hpaired := hT.paired_jump (.inr hop) (ht.lt hsc) hw hw' hj hj'
      refine ⟨rfl, fun P hP => ?_⟩
      refine (hl P hP).skip hpaired hop (Word.bx_abx _ (Nat.lt_succ_of_le hj)) ?_
        ((hr _ (hP.adding ht)).weaken (fun _ hr => hr) fun _ => .inl) fun _ hr => hr
      rw [Word.a_abx _ (ht.lt hsc)]
      exact .inr rfl

theorem twice_unary {op : UnaryOp} {operand : Expr} {pos : Position}
    (hoperand : ExprTwice T C C' names operand) :
    ExprTwice T C C' names (.unary op operand pos) := by
  intro sc t i j j' h h' hsc ht
  cases h with
  | unary he hw =>
    cases h' with
    | unary he' hw' =>
      obtain ⟨rfl, he⟩ := hoperand he he' hsc ht
      exact ⟨Nat.add_right_comm .., fun P hP => (he P hP).trans
        (hT.flow_unary (ht.lt hsc) (.inr rfl) hw hw')⟩

theorem twice_call {callee : Expr} {args : List Expr} {pos : Position}
    (hcallee : ExprTwice T C C' names callee) (harguments : ArgsTwice T C C' names args) :
    ExprTwice T C C' names (.call callee args pos) := by
  intro sc t i j j' h h' hsc ht
  cases h with
  | call hcount hroom hf hargs hw =>
    cases h' with
    | call hcount' hroom' hf' hargs' hw' =>
      obtain ⟨rfl, hf⟩ := hcallee hf hf' (hsc.take hroom) hsc.spare_take
      obtain ⟨rfl, hargs⟩ := harguments hargs hargs' (hsc.take hroom)
      refine ⟨Nat.add_right_comm .., fun P hP => ?_⟩
      have hlast := hT.flow_call (P := fun r => adding P sc.top r ∨
          sc.take.top ≤ r ∧ r < sc.take.top + args.length) (ht.lt hsc) (Nat.lt_succ_of_lt hroom.1)
        (Nat.lt_of_le_of_lt hcount (by decide)) (fun r hle hlt => ?_)
        (fun r hr => ⟨.inl (.inl hr), Nat.le_of_lt (hP.lt r hr)⟩) hw hw'
      · exact (hf P hP.wide).trans ((hargs _ hP.take).trans hlast)
      · rcases Nat.eq_or_lt_of_le hle with rfl | hlt'
        · exact .inl (.inr rfl)
        · refine .inr ⟨hlt', ?_⟩
          show r < sc.top + 1 + args.length
          omega

/-- A choice between two blocks, with the test before it. -/
theorem runs_choice {sc : Scope} {t i j k m : Nat} (hroom : C.Room sc.top)
    (htest : Fills T sc.take sc.top i k) (hskip : C.At k (.abx .jumpIfFalse sc.top (m + 1)))
    (hskip' : C'.At (k + T.shift) (.abx .jumpIfFalse sc.top (m + T.shift + 1)))
    (hm : m + 1 ≤ maxWide) (hm' : m + T.shift + 1 ≤ maxWide) (hbody : Fills T sc t (k + 1) m)
    (hend : C.At m (.abx .jump 0 j)) (hend' : C'.At (m + T.shift) (.abx .jump 0 (j + T.shift)))
    (hj : j ≤ maxWide) (hj' : j + T.shift ≤ maxWide) (helse : Fills T sc t (m + 1) j) :
    Fills T sc t i j := by
  intro P hP
  have htop : sc.top < 256 := Nat.lt_succ_of_lt hroom.1
  rw [Nat.add_right_comm] at hskip' hm'
  have hpaired := hT.paired_jump (.inr (.inl rfl)) htop hskip hskip' hm hm'
  have hpaired' := hT.paired_jump (.inl rfl) (by decide) hend hend' hj hj'
  refine (htest P hP.wide).choose hpaired (Word.bx_abx _ (Nat.lt_succ_of_le hm)) ?_
    ((hbody P hP).weaken (fun _ => .inl) fun _ hr => hr) hpaired'
    (Word.bx_abx _ (Nat.lt_succ_of_le hj)) ((helse P hP).weaken (fun _ => .inl) fun _ hr => hr)
  rw [Word.a_abx _ htop]
  exact .inr rfl

theorem twice_cond {test : Expr} {body : Block} {otherwise : Else} {pos : Position}
    (htest : ExprTwice T C C' names test) (hbody : BlockTwice T C C' names body)
    (helse : ElseTwice T C C' names otherwise) :
    ExprTwice T C C' names (.cond test body otherwise pos) := by
  intro sc t i j j' h h' hsc ht
  cases h with
  | cond hroom h₁ hskip hm h₂ hend hj h₃ =>
    cases h' with
    | cond hroom' h₁' hskip' hm' h₂' hend' hj' h₃' =>
      obtain ⟨rfl, h₁⟩ := htest h₁ h₁' (hsc.take hroom) hsc.spare_take
      rw [Nat.add_right_comm] at h₂'
      obtain ⟨rfl, h₂⟩ := hbody h₂ h₂' hsc ht
      rw [Nat.add_right_comm] at h₃'
      obtain ⟨rfl, h₃⟩ := helse h₃ h₃' hsc ht
      exact ⟨rfl, runs_choice hT hroom h₁ hskip hskip' hm hm' h₂ hend hend' hj hj' h₃⟩

theorem twice_elseIf {test : Expr} {body : Block} {otherwise : Else} {pos : Position}
    (htest : ExprTwice T C C' names test) (hbody : BlockTwice T C C' names body)
    (helse : ElseTwice T C C' names otherwise) :
    ElseTwice T C C' names (.elseIf test body otherwise pos) := by
  intro sc t i j j' h h' hsc ht
  cases h with
  | elseIf hroom h₁ hskip hm h₂ hend hj h₃ =>
    cases h' with
    | elseIf hroom' h₁' hskip' hm' h₂' hend' hj' h₃' =>
      obtain ⟨rfl, h₁⟩ := htest h₁ h₁' (hsc.take hroom) hsc.spare_take
      rw [Nat.add_right_comm] at h₂'
      obtain ⟨rfl, h₂⟩ := hbody h₂ h₂' hsc ht
      rw [Nat.add_right_comm] at h₃'
      obtain ⟨rfl, h₃⟩ := helse h₃ h₃' hsc ht
      exact ⟨rfl, runs_choice hT hroom h₁ hskip hskip' hm hm' h₂ hend hend' hj hj' h₃⟩

theorem twice_absent : ElseTwice T C C' names .absent := by
  intro sc t i j j' h h' hsc ht
  cases h with
  | absent hw =>
    cases h' with
    | absent hw' =>
      exact ⟨Nat.add_right_comm .., fun P _ => hT.flow_load (ht.lt hsc) (by simp) hw hw'⟩

omit hT in
theorem twice_noArgs : ArgsTwice T C C' names [] := by
  intro sc i j j' h h' hsc
  cases h
  cases h'
  refine ⟨rfl, fun P _ => (Twins.Flow.refl T i P).weaken (fun _ hr => hr) fun r hr => ?_⟩
  rcases hr with hr | ⟨hle, hlt⟩
  · exact hr
  · exact absurd hlt (Nat.not_lt.2 hle)

omit hT in
theorem twice_args {arg : Expr} {rest : List Expr} (harg : ExprTwice T C C' names arg)
    (hrest : ArgsTwice T C C' names rest) : ArgsTwice T C C' names (arg :: rest) := by
  intro sc i j j' h h' hsc
  cases h with
  | cons hroom h₁ h₂ =>
    cases h' with
    | cons hroom' h₁' h₂' =>
      obtain ⟨rfl, h₁⟩ := harg h₁ h₁' (hsc.take hroom) hsc.spare_take
      obtain ⟨rfl, h₂⟩ := hrest h₂ h₂' (hsc.take hroom)
      refine ⟨rfl, fun P hP => ((h₁ P hP.wide).trans (h₂ _ hP.take)).weaken
        (fun _ hr => hr) fun r hr => ?_⟩
      rcases hr with hr | ⟨hle, hlt⟩
      · exact .inl (.inl hr)
      · rcases Nat.eq_or_lt_of_le hle with rfl | hlt'
        · exact .inl (.inr rfl)
        · refine .inr ⟨hlt', ?_⟩
          rw [List.length_cons] at hlt
          show r < sc.top + 1 + rest.length
          omega

/-! ### Statements -/

omit hT in
theorem twice_bind {mutable : Bool} {name : String} {value : Expr} {pos : Position}
    (hvalue : ExprTwice T C C' names value) :
    StmtTwice T C C' names (.bind mutable name value pos) := by
  intro sc sc₁ sc₂ i j j' h h' hsc
  cases h with
  | bind hroom he =>
    cases h' with
    | bind hroom' he' =>
      obtain ⟨rfl, he⟩ := hvalue he he' (hsc.take hroom) hsc.spare_take
      refine ⟨rfl, rfl, fun P hP => (he P hP.wide).weaken (fun _ hr => hr) ?_⟩
      rintro r (hr | ⟨x, hx, rfl⟩)
      · exact .inl hr
      · rcases List.mem_cons.1 hx with rfl | hx
        · exact .inr rfl
        · exact .inl (hP.within x hx)

omit hT in
/-- A statement that does something with a value and leaves the scope as it is. -/
theorem runs_effect {sc : Scope} {i k j : Nat} (hvalue : Fills T sc.take sc.top i k)
    (hlast : ∀ P, sc.Known P → T.Flow k j (adding P sc.top) P) : Runs T sc i j sc.joined :=
  fun P hP => ((hvalue P hP.wide).trans (hlast P hP)).weaken (fun _ hr => hr)
    fun _ => (Scope.joined_iff hP).1

theorem twice_assign {target value : Expr} {pos : Position}
    (hvalue : ExprTwice T C C' names value) :
    StmtTwice T C C' names (.assign target value pos) := by
  intro sc sc₁ sc₂ i j j' h h' hsc
  cases h with
  | move hreg hroom he hw =>
    cases h' with
    | setGlobal hreg' => simp [hreg] at hreg'
    | move hreg' hroom' he' hw' =>
      obtain rfl := Option.some.inj (hreg.symm.trans hreg')
      obtain ⟨rfl, he⟩ := hvalue he he' (hsc.take hroom) hsc.spare_take
      refine ⟨rfl, Nat.add_right_comm .., runs_effect he fun P _ => ?_⟩
      exact (hT.flow_move (hsc.reg_lt hreg) (Nat.lt_succ_of_lt hroom.1) (.inr rfl) hw hw').weaken
        (fun _ hr => hr) fun _ hr => .inl (.inl hr)
  | setGlobal hreg hg hmutable hslot hroom he hw =>
    cases h' with
    | move hreg' => simp [hreg] at hreg'
    | setGlobal hreg' hg' hmutable' hslot' hroom' he' hw' =>
      obtain rfl := Option.some.inj (hg.symm.trans hg')
      obtain ⟨rfl, he⟩ := hvalue he he' (hsc.take hroom) hsc.spare_take
      refine ⟨rfl, Nat.add_right_comm .., runs_effect he fun P _ => ?_⟩
      exact (hT.flow_global (Nat.lt_succ_of_lt hroom.1) (.inr rfl) (.inl rfl) hw hw').weaken
        (fun _ hr => hr) fun _ => .inl

theorem twice_retNil (pos : Position) : StmtTwice T C C' names (.retNil pos) := by
  intro sc sc₁ sc₂ i j j' h h' hsc
  cases h with
  | retNil hreturns hroom hnil hret =>
    cases h' with
    | retNil hreturns' hroom' hnil' hret' =>
      rw [Nat.add_right_comm] at hret'
      have htop := Nat.lt_succ_of_lt hroom.1
      refine ⟨rfl, Nat.add_right_comm .., fun P _ => ?_⟩
      exact (hT.flow_load htop (by simp) hnil hnil').trans
        (hT.flow_ret htop (.inr rfl) hreturns hret hret')

theorem twice_ret {value : Expr} {pos : Position} (hvalue : ExprTwice T C C' names value) :
    StmtTwice T C C' names (.ret value pos) := by
  intro sc sc₁ sc₂ i j j' h h' hsc
  cases h with
  | ret hreturns hroom he hret =>
    cases h' with
    | ret hreturns' hroom' he' hret' =>
      obtain ⟨rfl, he⟩ := hvalue he he' (hsc.take hroom) hsc.spare_take
      exact ⟨rfl, Nat.add_right_comm .., runs_effect he fun P _ =>
        hT.flow_ret (Nat.lt_succ_of_lt hroom.1) (.inr rfl) hreturns hret hret'⟩

theorem twice_loop {test : Expr} {body : Block} {pos : Position}
    (htest : ExprTwice T C C' names test) (hbody : BlockTwice T C C' names body) :
    StmtTwice T C C' names (.loop test body pos) := by
  intro sc sc₁ sc₂ i j j' h h' hsc
  cases h with
  | loop hi hroom h₁ hskip hm h₂ hback =>
    cases h' with
    | loop hi' hroom' h₁' hskip' hm' h₂' hback' =>
      obtain ⟨rfl, h₁⟩ := htest h₁ h₁' (hsc.take hroom) hsc.spare_take
      rw [Nat.add_right_comm] at h₂'
      obtain ⟨rfl, h₂⟩ := hbody h₂ h₂' (hsc.take hroom) hsc.spare_take
      have htop := Nat.lt_succ_of_lt hroom.1
      rw [Nat.add_right_comm _ T.shift 1] at hskip' hm'
      have hpaired := hT.paired_jump (.inr (.inl rfl)) htop hskip hskip' hm hm'
      have hpaired' := hT.paired_jump (.inl rfl) (by decide) hback hback' hi hi'
      refine ⟨rfl, Nat.add_right_comm .., fun P hP => ?_⟩
      refine (h₁ P hP.wide).loop hpaired (Word.bx_abx _ (Nat.lt_succ_of_le hm)) ?_
        (h₂ _ hP.take) hpaired' (Word.bx_abx _ (Nat.lt_succ_of_le hi)) (fun _ => .inl)
        (fun _ hr => .inl (.inl hr)) |>.weaken (fun _ hr => hr) fun _ => (Scope.joined_iff hP).1
      rw [Word.a_abx _ htop]
      exact .inr rfl

omit hT in
theorem twice_expr {e : Expr} (he : ExprTwice T C C' names e) :
    StmtTwice T C C' names (.expr e) := by
  intro sc sc₁ sc₂ i j j' h h' hsc
  cases h with
  | expr hroom h₁ =>
    cases h' with
    | expr hroom' h₁' =>
      obtain ⟨rfl, h₁⟩ := he h₁ h₁' (hsc.take hroom) hsc.spare_take
      refine ⟨rfl, rfl, fun P hP => (h₁ P hP.wide).weaken (fun _ hr => hr) fun _ hr => ?_⟩
      exact .inl ((Scope.joined_iff hP).1 hr)

theorem twice_noTail : TailTwice T C C' names [] := by
  intro sc t i j j' h h' hsc ht
  cases h with
  | nil hw =>
    cases h' with
    | nil hw' => exact ⟨Nat.add_right_comm .., fun P _ => hT.flow_load (ht.lt hsc) (by simp) hw hw'⟩

omit hT in
/-- The last statement of a block may be the expression that is its value. -/
theorem twice_tail {stmt : Stmt} {rest : List Stmt}
    (hvalue : ∀ e, stmt = .expr e → ExprTwice T C C' names e)
    (hstmt : StmtTwice T C C' names stmt) (hrest : TailTwice T C C' names rest) :
    TailTwice T C C' names (stmt :: rest) := by
  intro sc t i j j' h h' hsc ht
  cases h with
  | value he =>
    cases h' with
    | value he' => exact hvalue _ rfl he he' hsc ht
    | cons hlast => exact absurd rfl (hlast _ rfl)
  | cons hlast h₁ h₂ =>
    cases h' with
    | value he' => exact absurd rfl (hlast _ rfl)
    | cons hlast' h₁' h₂' =>
      have hsc' := inOrder_of_stmtAt h₁ hsc
      have ht' := spare_of_stmtAt h₁ ht
      obtain ⟨rfl, rfl, hfirst⟩ := hstmt h₁ h₁' hsc
      obtain ⟨rfl, h₂⟩ := hrest h₂ h₂' hsc' ht'
      exact ⟨rfl, fun P hP => ((hfirst P hP).trans (h₂ _ (known_of_stmtAt h₁ hsc' hP))).weaken
        (fun _ hr => hr) fun r hr => hr.imp_left .inl⟩

omit hT in
theorem twice_func (name : String) (params : List String) (body : Block) (pos : Position) :
    StmtTwice T C C' names (.func name params body pos) := by
  intro sc sc₁ sc₂ i j j' h
  cases h

omit hT in
theorem twice_mk {stmts : List Stmt} {pos : Position} (hstmts : TailTwice T C C' names stmts) :
    BlockTwice T C C' names (.mk stmts pos) := by
  intro sc t i j j' h h' hsc ht
  cases h with
  | mk h =>
    cases h' with
    | mk h' => exact hstmts h h' hsc ht

omit hT in
theorem twice_block {body : Block} (hbody : BlockTwice T C C' names body) :
    ExprTwice T C C' names (.block body) := by
  intro sc t i j j' h h' hsc ht
  cases h with
  | block h =>
    cases h' with
    | block h' => exact hbody h h' hsc ht

omit hT in
theorem twice_otherwise {body : Block} (hbody : BlockTwice T C C' names body) :
    ElseTwice T C C' names (.block body) := by
  intro sc t i j j' h h' hsc ht
  cases h with
  | block h =>
    cases h' with
    | block h' => exact hbody h h' hsc ht

end

/-! ## Whole trees -/

section

variable {T : Twins} {C C' : Coding} {names : Names}

mutual

/-- The code of an expression runs alike. -/
theorem along_expr (hT : Joins T C C') : (e : Expr) → ExprTwice T C C' names e
  | .number digits pos => twice_number hT digits pos
  | .text raw pos => twice_text hT raw pos
  | .bool b pos => twice_bool hT b pos
  | .nil pos => twice_nil hT pos
  | .name ident pos => twice_name hT ident pos
  | .binary _ lhs rhs _ => twice_binary hT (along_expr hT lhs) (along_expr hT rhs)
  | .unary _ operand _ => twice_unary hT (along_expr hT operand)
  | .call callee args _ => twice_call hT (along_expr hT callee) (along_args hT args)
  | .cond test body otherwise _ =>
    twice_cond hT (along_expr hT test) (along_block hT body) (along_else hT otherwise)
  | .block body => twice_block (along_block hT body)

/-- The code of arguments runs alike. -/
theorem along_args (hT : Joins T C C') : (args : List Expr) → ArgsTwice T C C' names args
  | [] => twice_noArgs
  | arg :: rest => twice_args (along_expr hT arg) (along_args hT rest)

/-- The code of an alternative runs alike. -/
theorem along_else (hT : Joins T C C') : (e : Else) → ElseTwice T C C' names e
  | .absent => twice_absent hT
  | .block body => twice_otherwise (along_block hT body)
  | .elseIf test body otherwise _ =>
    twice_elseIf hT (along_expr hT test) (along_block hT body) (along_else hT otherwise)

/-- The code of a block runs alike. -/
theorem along_block (hT : Joins T C C') : (body : Block) → BlockTwice T C C' names body
  | .mk stmts _ => twice_mk (along_tail hT stmts)

/-- The code of the statements of a block runs alike. -/
theorem along_tail (hT : Joins T C C') : (stmts : List Stmt) → TailTwice T C C' names stmts
  | [] => twice_noTail hT
  | stmt :: rest => twice_tail (along_last hT stmt) (along_stmt hT stmt) (along_tail hT rest)

/-- Of a statement that is an expression, the code of that runs alike. -/
theorem along_last (hT : Joins T C C') : (stmt : Stmt) → ∀ e, stmt = .expr e → ExprTwice T C C' names e
  | .expr e => fun _ he => Stmt.expr.inj he ▸ along_expr hT e
  | .bind .. | .assign .. | .func .. | .retNil .. | .ret .. | .loop .. => fun _ he => nomatch he

/-- The code of a statement runs alike. -/
theorem along_stmt (hT : Joins T C C') : (stmt : Stmt) → StmtTwice T C C' names stmt
  | .bind _ _ value _ => twice_bind (along_expr hT value)
  | .assign _ value _ => twice_assign hT (along_expr hT value)
  | .func name params body pos => twice_func name params body pos
  | .retNil pos => twice_retNil hT pos
  | .ret value _ => twice_ret hT (along_expr hT value)
  | .loop test body _ => twice_loop hT (along_expr hT test) (along_block hT body)
  | .expr e => twice_expr (along_expr hT e)

end

end

end ScriptMachine.Compile
