import ScriptMachine.Proofs.Bytecode.Words
import ScriptMachine.Proofs.Compile.Layout
import ScriptMachine.Proofs.Link.Acceptance

/-!
# What compiled code refers to

Every word of a compiled body is an instruction whose registers the body has, whose jumps stay in its
code, and whose constants, primitives and globals are among those that it was compiled to refer to.
The proof goes along the layout: the code of each part of a tree fills its range with such words.
-/

namespace ScriptMachine.Compile

open Source Bytecode Evaluation

/-- What the words of a body may refer to: constants and primitives by index, and the slots that it
may assign to or define. -/
structure Reach where
  constants : Nat → Prop
  primitives : Nat → Prop
  assigned : Nat → Prop
  defined : Nat → Prop

/-- What a word says besides its registers, read as an instruction, is within reach. -/
def Coding.Means (C : Coding) (R : Reach) (w : Word) : Opcode → Prop
  | .loadConst => R.constants w.bx
  | .call => w.b + w.c < C.slots
  | .jump | .jumpIfFalse | .jumpIfTrue => w.bx ≤ C.code.size
  | .getPrim => R.primitives w.bx
  | .setGlobal => R.assigned w.bx
  | .defGlobal => R.defined w.bx
  | _ => True

/-- A word, read as the instruction `op`, refers only to what it may. -/
structure Coding.Allows (C : Coding) (R : Reach) (op : Opcode) (w : Word) : Prop where
  registers : ∀ r ∈ Link.registersOf op w, r < C.slots
  means : C.Means R w op

/-- The range from `i` to `j` is full of instructions that refer only to what they may. -/
structure Coding.Fills (C : Coding) (R : Reach) (i j : Nat) : Prop where
  le : i ≤ j
  words : ∀ ip, i ≤ ip → ip < j → ∃ w op, C.At ip w ∧ w.opcode? = some op ∧ C.Allows R op w

namespace Coding.Fills

variable {C : Coding} {R : Reach} {i j k : Nat}

theorem refl (C : Coding) (R : Reach) (i : Nat) : C.Fills R i i :=
  ⟨Nat.le_refl i, fun _ hle hlt => absurd hlt (Nat.not_lt.2 hle)⟩

theorem trans (h₁ : C.Fills R i k) (h₂ : C.Fills R k j) : C.Fills R i j where
  le := Nat.le_trans h₁.le h₂.le
  words ip hle hlt := by
    rcases Nat.lt_or_ge ip k with hk | hk
    · exact h₁.words ip hle hk
    · exact h₂.words ip hk hlt

theorem one {w : Word} {op : Opcode} (hw : C.At i w) (hop : w.opcode? = some op)
    (h : C.Allows R op w) : C.Fills R i (i + 1) where
  le := Nat.le_succ i
  words ip hle hlt := by
    obtain rfl : ip = i := by omega
    exact ⟨w, op, hw, hop, h⟩

/-- A range that starts inside the code ends inside it. -/
theorem le_size (h : C.Fills R i j) (hi : i ≤ C.code.size) : j ≤ C.code.size := by
  rcases Nat.eq_or_lt_of_le h.le with rfl | hlt
  · exact hi
  · obtain ⟨w, op, hw, -⟩ := h.words (j - 1) (by omega) (by omega)
    have := (Array.getElem?_eq_some_iff.1 hw).1
    omega

end Coding.Fills

theorem Coding.At.lt_size {C : Coding} {i : Nat} {w : Word} (h : C.At i w) : i < C.code.size :=
  (Array.getElem?_eq_some_iff.1 h).1

/-! ## Single instructions -/

/-- What the names of a body stand for is in its reach. -/
structure Reach.Serves (R : Reach) (C : Coding) (names : Names) : Prop where
  slots : C.slots ≤ 255
  constants : ∀ (k : Nat) (d : Datum), C.constant k d → R.constants k
  primitives : ∀ (ident : String) (index : Nat),
    names.primitive? ident = some index → R.primitives index
  assigned : ∀ (ident : String) (g : GlobalName),
    names.global? ident = some g → g.mutable = true → R.assigned g.slot

section Single

variable {C : Coding} {R : Reach} {i x y z : Nat} {op : Opcode}

theorem mem_registersOf_abc (hx : x < 256) (hy : y < 256) (hz : z < 256) {r : Nat}
    (h : r ∈ Link.registersOf op (.abc op x y z)) : r = x ∨ r = y ∨ r = z := by
  unfold Link.registersOf at h
  rw [Word.a_abc _ hx, Word.b_abc _ hy, Word.c_abc _ hz] at h
  cases hshape : op.shape <;> simp only [hshape, List.mem_cons, List.not_mem_nil, or_false] at h
  · exact .inl h
  · exact h.imp_right .inl
  · exact h
  · exact .inl h

theorem mem_registersOf_abx (hx : x < 256) (hop : op.shape = .A ∨ op.shape = .ABx) {r : Nat}
    (h : r ∈ Link.registersOf op (.abx op x y)) : r = x := by
  unfold Link.registersOf at h
  rw [Word.a_abx _ hx] at h
  rcases hop with hop | hop <;> simpa only [hop, List.mem_singleton] using h

theorem fills_abc (hs : C.slots ≤ 255) (hx : x < C.slots) (hy : y < C.slots) (hz : z < C.slots)
    (hw : C.At i (.abc op x y z)) (hmeans : C.Means R (.abc op x y z) op) :
    C.Fills R i (i + 1) := by
  refine .one hw (Word.opcode?_abc ..) ⟨fun r hr => ?_, hmeans⟩
  have hall := mem_registersOf_abc (by omega) (by omega) (by omega) hr
  omega

theorem fills_abx (hs : C.slots ≤ 255) (hx : x < C.slots) (hop : op.shape = .A ∨ op.shape = .ABx)
    (hw : C.At i (.abx op x y)) (hmeans : C.Means R (.abx op x y) op) :
    C.Fills R i (i + 1) := by
  refine .one hw (Word.opcode?_abx ..) ⟨fun r hr => ?_, hmeans⟩
  have hall := mem_registersOf_abx (by omega) hop hr
  omega

theorem fills_jump (hw : C.At i (.abx .jump 0 y)) (hy : y ≤ maxWide) (hend : y ≤ C.code.size) :
    C.Fills R i (i + 1) := by
  refine .one hw (Word.opcode?_abx ..) ⟨fun r hr => absurd hr List.not_mem_nil, ?_⟩
  show Word.bx _ ≤ _
  rwa [Word.bx_abx _ (by unfold maxWide at hy; omega)]

variable {names : Names} {sc : Scope} {k m j : Nat}

theorem fills_constant {d : Datum} (S : R.Serves C names) (hx : x < C.slots) (hk : C.Holds k d)
    (hw : C.At i (.abx .loadConst x k)) : C.Fills R i (i + 1) := by
  refine fills_abx S.slots hx (.inr rfl) hw ?_
  show R.constants (Word.bx _)
  rw [Word.bx_abx _ (Nat.lt_succ_of_le hk.1)]
  exact S.constants k d hk.2

theorem fills_ret (S : R.Serves C names) (hroom : C.Room x) (hw : C.At i (.abc .ret x 0 0)) :
    C.Fills R i (i + 1) :=
  have hzero := Nat.zero_lt_of_lt hroom.2
  fills_abc S.slots hroom.2 hzero hzero hw trivial

theorem fills_skip (S : R.Serves C names) (hroom : C.Room x)
    (hw : C.At i (.abx .jumpIfFalse x y)) (hy : y ≤ maxWide) (hend : y ≤ C.code.size) :
    C.Fills R i (i + 1) := by
  refine fills_abx S.slots hroom.2 (.inr rfl) hw ?_
  show Word.bx _ ≤ _
  rwa [Word.bx_abx _ (Nat.lt_succ_of_le hy)]

/-- A test, the code for when it holds, and the code for when it does not. -/
theorem fills_choice (S : R.Serves C names) (hroom : C.Room x) (htest : C.Fills R i k)
    (hskip : C.At k (.abx .jumpIfFalse x (m + 1))) (hm : m + 1 ≤ maxWide)
    (hbody : C.Fills R (k + 1) m) (hend : C.At m (.abx .jump 0 j)) (hj : j ≤ maxWide)
    (helse : C.Fills R (m + 1) j) : C.Fills R i j :=
  have hskip' := fills_skip S hroom hskip hm hend.lt_size
  have hend' := fills_jump hend hj (helse.le_size hend.lt_size)
  (((htest.trans hskip').trans hbody).trans hend').trans helse

end Single

theorem register_lt {C : Coding} {sc : Scope} (hsc : sc.InOrder C) {ident : String} {r : Nat}
    (h : sc.reg? ident = some r) : r < C.slots :=
  Nat.lt_of_lt_of_le (hsc.regs _ (Scope.mem_of_reg? h)) hsc.top_le_slots

/-! ## Trees -/

section Trees

variable {C : Coding} {R : Reach} {names : Names}

mutual

theorem fills_expr (S : R.Serves C names) : (e : Expr) → {sc : Scope} → {t i j : Nat} →
    sc.InOrder C → t < C.slots → ExprAt C names e sc t i j → C.Fills R i j
  | .number _ _, sc, t, i, j, _, ht, h => by
    cases h with
    | number _ hk hw => exact fills_constant S ht hk hw
  | .text _ _, sc, t, i, j, _, ht, h => by
    cases h with
    | text hk hw => exact fills_constant S ht hk hw
  | .bool b _, sc, t, i, j, _, ht, h => by
    cases h with
    | bool hw => cases b <;> exact fills_abx S.slots ht (.inl rfl) hw trivial
  | .nil _, sc, t, i, j, _, ht, h => by
    cases h with
    | nil hw => exact fills_abx S.slots ht (.inl rfl) hw trivial
  | .name ident _, sc, t, i, j, hsc, ht, h => by
    cases h with
    | here _ => exact .refl C R i
    | move hreg hw =>
      exact fills_abc S.slots ht (register_lt hsc hreg) (Nat.zero_lt_of_lt ht) hw trivial
    | global _ _ _ hw => exact fills_abx S.slots ht (.inr rfl) hw trivial
    | primitive _ _ hindex hwide hw =>
      refine fills_abx S.slots ht (.inr rfl) hw ?_
      show R.primitives (Word.bx _)
      rw [Word.bx_abx _ (Nat.lt_succ_of_le hwide)]
      exact S.primitives ident _ hindex
  | .binary op lhs rhs _, sc, t, i, j, hsc, ht, h => by
    cases h with
    | binary hcode hl hroom hr hw =>
      have hl' := fills_expr S lhs hsc ht hl
      have hr' := fills_expr S rhs (hsc.take hroom) hroom.2 hr
      refine (hl'.trans hr').trans (fills_abc S.slots ht ht hroom.2 hw ?_)
      cases op <;> cases hcode <;> trivial
    | logical _ hl hw hr hj =>
      have hl' := fills_expr S lhs hsc ht hl
      have hr' := fills_expr S rhs hsc ht hr
      have hend := hr'.le_size hw.lt_size
      refine (hl'.trans ?_).trans hr'
      refine fills_abx S.slots ht (.inr (by cases op <;> rfl)) hw ?_
      have hmeans : Word.bx (.abx (skipCode op) t j) ≤ C.code.size := by
        rwa [Word.bx_abx _ (Nat.lt_succ_of_le hj)]
      cases op <;> exact hmeans
  | .unary op operand _, sc, t, i, j, hsc, ht, h => by
    cases h with
    | unary he hw =>
      refine (fills_expr S operand hsc ht he).trans ?_
      refine fills_abc S.slots ht ht (Nat.zero_lt_of_lt ht) hw ?_
      cases op <;> trivial
  | .call callee args _, sc, t, i, j, hsc, ht, h => by
    cases h with
    | call hcount hroom hf hargs hw =>
      have hf' := fills_expr S callee (hsc.take hroom) hroom.2 hf
      have hargs' := fills_args S args (hsc.take hroom) hargs
      have hwindow : sc.top + 1 + args.length ≤ C.slots := room_of_argsAt hargs hroom.2
      have hs := S.slots
      refine (hf'.trans hargs').trans (fills_abc hs ht hroom.2 (by omega) hw ?_)
      show Word.b _ + Word.c _ < C.slots
      rw [Word.b_abc _ (by omega), Word.c_abc _ (by omega)]
      omega
  | .cond test body otherwise _, sc, t, i, j, hsc, ht, h => by
    cases h with
    | cond hroom htest hskip hm hbody hend hj helse =>
      have htest' := fills_expr S test (hsc.take hroom) hroom.2 htest
      have hbody' := fills_body S body hsc ht hbody
      have helse' := fills_else S otherwise hsc ht helse
      exact fills_choice S hroom htest' hskip hm hbody' hend hj helse'
  | .block body, sc, t, i, j, hsc, ht, h => by
    cases h with
    | block hbody => exact fills_body S body hsc ht hbody

theorem fills_args (S : R.Serves C names) : (args : List Expr) → {sc : Scope} → {i j : Nat} →
    sc.InOrder C → ArgsAt C names args sc i j → C.Fills R i j
  | [], sc, i, j, _, h => by
    cases h with
    | nil => exact .refl C R i
  | arg :: rest, sc, i, j, hsc, h => by
    cases h with
    | cons hroom harg hrest =>
      exact (fills_expr S arg (hsc.take hroom) hroom.2 harg).trans (fills_args S rest (hsc.take hroom) hrest)

theorem fills_else (S : R.Serves C names) : (otherwise : Else) → {sc : Scope} → {t i j : Nat} →
    sc.InOrder C → t < C.slots → ElseAt C names otherwise sc t i j → C.Fills R i j
  | .absent, sc, t, i, j, _, ht, h => by
    cases h with
    | absent hw => exact fills_abx S.slots ht (.inl rfl) hw trivial
  | .block body, sc, t, i, j, hsc, ht, h => by
    cases h with
    | block hbody => exact fills_body S body hsc ht hbody
  | .elseIf test body otherwise _, sc, t, i, j, hsc, ht, h => by
    cases h with
    | elseIf hroom htest hskip hm hbody hend hj helse =>
      have htest' := fills_expr S test (hsc.take hroom) hroom.2 htest
      have hbody' := fills_body S body hsc ht hbody
      have helse' := fills_else S otherwise hsc ht helse
      exact fills_choice S hroom htest' hskip hm hbody' hend hj helse'

theorem fills_body (S : R.Serves C names) : (body : Block) → {sc : Scope} → {t i j : Nat} →
    sc.InOrder C → t < C.slots → BlockAt C names body sc t i j → C.Fills R i j
  | .mk stmts _, sc, t, i, j, hsc, ht, h => by
    cases h with
    | mk hstmts => exact fills_tail S stmts hsc ht hstmts

theorem fills_tail (S : R.Serves C names) : (stmts : List Stmt) → {sc : Scope} →
    {t i j : Nat} → sc.InOrder C → t < C.slots → TailAt C names stmts sc t i j → C.Fills R i j
  | [], sc, t, i, j, _, ht, h => by
    cases h with
    | nil hw => exact fills_abx S.slots ht (.inl rfl) hw trivial
  | stmt :: rest, sc, t, i, j, hsc, ht, h => by
    cases h with
    | value he => exact fills_expr S _ hsc ht he
    | cons _ hstmt hrest =>
      have hrest' := fills_tail S rest (inOrder_of_stmtAt hstmt hsc) ht hrest
      exact (fills_stmt S stmt hsc hstmt).trans hrest'

theorem fills_stmt (S : R.Serves C names) : (stmt : Stmt) → {sc sc' : Scope} → {i j : Nat} →
    sc.InOrder C → StmtAt C names stmt sc sc' i j → C.Fills R i j
  | .bind _ _ value _, sc, sc', i, j, hsc, h => by
    cases h with
    | bind hroom he => exact fills_expr S value (hsc.take hroom) hroom.2 he
  | .assign target value _, sc, sc', i, j, hsc, h => by
    cases h with
    | move hreg hroom he hw =>
      refine (fills_expr S value (hsc.take hroom) hroom.2 he).trans ?_
      exact fills_abc S.slots (register_lt hsc hreg) hroom.2 (Nat.zero_lt_of_lt hroom.2) hw trivial
    | setGlobal _ hg hmutable hslot hroom he hw =>
      refine (fills_expr S value (hsc.take hroom) hroom.2 he).trans ?_
      refine fills_abx S.slots hroom.2 (.inr rfl) hw ?_
      show R.assigned (Word.bx _)
      rw [Word.bx_abx _ (Nat.lt_succ_of_le hslot)]
      exact S.assigned _ _ hg hmutable
  | .func _ _ _ _, sc, sc', i, j, hsc, h => by
    cases h
  | .retNil _, sc, sc', i, j, hsc, h => by
    cases h with
    | retNil _ hroom hnil hret =>
      exact (fills_abx S.slots hroom.2 (.inl rfl) hnil trivial).trans (fills_ret S hroom hret)
  | .ret value _, sc, sc', i, j, hsc, h => by
    cases h with
    | ret _ hroom he hret =>
      exact (fills_expr S value (hsc.take hroom) hroom.2 he).trans (fills_ret S hroom hret)
  | .loop test body _, sc, sc', i, j, hsc, h => by
    cases h with
    | loop hi hroom htest hskip hm hbody hback =>
      have htest' := fills_expr S test (hsc.take hroom) hroom.2 htest
      have hbody' := fills_body S body (hsc.take hroom) hroom.2 hbody
      have hstart : i ≤ C.code.size := Nat.le_of_lt (Nat.lt_of_le_of_lt htest'.le hskip.lt_size)
      have hskip' := fills_skip S hroom hskip hm hback.lt_size
      exact ((htest'.trans hskip').trans hbody').trans (fills_jump hback hi hstart)
  | .expr e, sc, sc', i, j, hsc, h => by
    cases h with
    | expr hroom he => exact fills_expr S e (hsc.take hroom) hroom.2 he

end

end Trees

/-! ## Functions and fragments -/

/-- The code of a function is full of instructions within reach. -/
theorem fills_function {R : Reach} {strings : Array String} {p : Prototype} {f : Closure}
    (h : FunctionAt strings p f) (S : R.Serves (coding strings true p) f.names) :
    (coding strings true p).Fills R 0 p.code.size := by
  obtain ⟨k, hbody, hret, hsize⟩ := h.body
  rw [hsize]
  exact (fills_body S f.body (paramScope_inOrder h.room).1 h.room.2 hbody).trans (fills_ret S h.room hret)

theorem Reach.Serves.define {R : Reach} {C : Coding} {names : Names} (S : R.Serves C names)
    {d : Definition} (hd : R.assigned d.slot) : R.Serves C (names.define d) where
  slots := S.slots
  constants := S.constants
  primitives := S.primitives
  assigned ident g hg hmutable := by
    unfold Names.global? Names.define at hg
    by_cases hident : ident = d.name
    · subst hident
      rw [lookup_assign_self] at hg
      cases hg
      exact hd
    · rw [lookup_assign_ne hident] at hg
      exact S.assigned ident g hg hmutable

section Top

variable {C : Coding} {R : Reach} {made : Nat → Closure → Prop} {names after : Names}

theorem fills_define {i slot : Nat} (S : R.Serves C names) (hroom : C.Room 1)
    (hslot : slot ≤ maxWide) (hw : C.At i (.abx .defGlobal 1 slot)) (hd : R.defined slot) :
    C.Fills R i (i + 1) := by
  refine fills_abx S.slots hroom.2 (.inr rfl) hw ?_
  show R.defined (Word.bx _)
  rwa [Word.bx_abx _ (Nat.lt_succ_of_le hslot)]

theorem nextSlot_le_of_topAt {stmts : List Stmt} {i j : Nat}
    (h : TopAt C made after names stmts i j) : names.nextSlot ≤ after.nextSlot := by
  induction h with
  | nil => exact Nat.le_refl _
  | expr _ _ ih => exact ih
  | bind _ _ _ _ _ ih => exact (Nat.le_max_left _ _).trans ih
  | func _ _ _ _ _ _ _ ih => exact (Nat.le_max_left _ _).trans ih
  | plain _ _ _ ih => exact ih

/-- The code of statements at the top level, which may also define the slots that they add. -/
theorem fills_top {stmts : List Stmt} {i j : Nat} (h : TopAt C made after names stmts i j)
    (S : R.Serves C names) (hroom : C.Room 0) (hmade : ∀ k f, made k f → R.constants k)
    (hnew : ∀ slot, names.nextSlot ≤ slot → slot < after.nextSlot →
      R.assigned slot ∧ R.defined slot) :
    C.Fills R i j := by
  have hsc := topScope_inOrder hroom
  have hrest : ∀ (names : Names) (d : Definition) (slot : Nat),
      (names.define d).nextSlot ≤ slot → names.nextSlot ≤ slot := fun names d slot hle =>
    Nat.le_trans (Nat.le_max_left _ _) hle
  have hfirst : ∀ (names : Names) (name : String) (mutable : Bool),
      (names.define ⟨name, names.nextSlot, mutable⟩).nextSlot ≤ after.nextSlot →
      names.nextSlot < after.nextSlot := fun names name mutable hle =>
    Nat.lt_of_lt_of_le (Nat.lt_succ_self _) ((Nat.le_max_right _ _).trans hle)
  induction h with
  | nil => exact .refl C R _
  | expr he _ ih =>
    exact (fills_expr S _ hsc hroom.2 he).trans (ih S hnew)
  | @bind names mutable name e pos rest i k j hroom he hslot hw hrest' ih =>
    have hlt := hfirst names name mutable (nextSlot_le_of_topAt hrest')
    have hown := hnew names.nextSlot (Nat.le_refl _) hlt
    have he' := fills_expr S e (hsc.take hroom) hroom.2 he
    refine (he'.trans (fills_define S hroom hslot hw hown.2)).trans ?_
    exact ih (S.define hown.1) fun slot hle => hnew slot (hrest _ _ _ hle)
  | @func names name params body pos rest i k j hroom hk hm hload hslot hdef hrest' ih =>
    have hlt := hfirst names name false (nextSlot_le_of_topAt hrest')
    have hown := hnew names.nextSlot (Nat.le_refl _) hlt
    have hload' : C.Fills R i (i + 1) := by
      refine fills_abx S.slots hroom.2 (.inr rfl) hload ?_
      show R.constants (Word.bx _)
      rw [Word.bx_abx _ (Nat.lt_succ_of_le hk)]
      exact hmade k _ hm
    refine (hload'.trans (fills_define S hroom hslot hdef hown.2)).trans ?_
    exact ih (S.define hown.1) fun slot hle => hnew slot (hrest _ _ _ hle)
  | plain _ hstmt _ ih => exact (fills_stmt S _ hsc hstmt).trans (ih S hnew)

/-- The code of a fragment is full of instructions within reach. -/
theorem fills_main {f : Fragment} (h : MainAt C made names after f) (S : R.Serves C names)
    (hmade : ∀ k f, made k f → R.constants k)
    (hnew : ∀ slot, names.nextSlot ≤ slot → slot < after.nextSlot →
      R.assigned slot ∧ R.defined slot) :
    C.Fills R 0 C.code.size := by
  obtain ⟨k, hbody, hret, hsize⟩ := h.body
  rw [hsize]
  have hstart : C.Fills R 0 1 := fills_abx S.slots h.room.2 (.inl rfl) h.start trivial
  exact (hstart.trans (fills_top hbody S h.room hmade hnew)).trans (fills_ret S h.room hret)

end Top

end ScriptMachine.Compile
