import ScriptMachine.Proofs.Evaluation.Evaluator
import ScriptMachine.Compile.Compiled
import Mathlib.Data.List.Nodup

/-!
# Code laid out

Where the code of each part of a tree stands in the code of its body. The code of an expression
fills a range and leaves its value in a target register; the registers from the top of the scope on
are free for it. Jumps inside the range are aimed.
-/

namespace ScriptMachine.Compile

open Source Bytecode Evaluation

/-- The registers that code finds in use: those of the locals in scope, newest first, and all below
`top`. -/
structure Scope where
  locals : List (String × Nat)
  top : Nat

namespace Scope

/-- The scope with the register on top in use. -/
def take (sc : Scope) : Scope :=
  { sc with top := sc.top + 1 }

/-- The scope with a local in the register on top. -/
def declare (sc : Scope) (name : String) : Scope :=
  ⟨(name, sc.top) :: sc.locals, sc.top + 1⟩

/-- The register of a local. -/
def reg? (sc : Scope) (name : String) : Option Nat :=
  sc.locals.lookup name

end Scope

/-- The finished code of a body: the words, the number of its registers, what its constants stand
for, and whether it may return before its end. -/
structure Coding where
  code : Array Word
  slots : Nat
  constant : Nat → Datum → Prop
  returns : Bool

namespace Coding

/-- An instruction stands at a place. -/
def At (C : Coding) (i : Nat) (w : Word) : Prop :=
  C.code[i]? = some w

/-- There is a register on top of those in use. -/
def Room (C : Coding) (top : Nat) : Prop :=
  top < 255 ∧ top < C.slots

/-- A constant stands for a datum. -/
def Holds (C : Coding) (k : Nat) (d : Datum) : Prop :=
  k ≤ maxWide ∧ C.constant k d

end Coding

/-- The statements that mean the same at the top level as in a block. -/
def Plain : Stmt → Prop
  | .assign _ _ _ | .retNil _ | .ret _ _ | .loop _ _ _ => True
  | _ => False

mutual

/-- The code of an expression with this target fills the range from `i` to `j`. -/
inductive ExprAt (C : Coding) (names : Names) : Expr → Scope → (target i j : Nat) → Prop
  | number {digits : String} {pos : Position} {sc : Scope} {t i k : Nat} {n : Int}
    (hn : literalValue digits = .ok n) (hk : C.Holds k (.int n))
    (hw : C.At i (.abx .loadConst t k)) : ExprAt C names (.number digits pos) sc t i (i + 1)
  | text {raw : String} {pos : Position} {sc : Scope} {t i k : Nat}
    (hk : C.Holds k (.text (unescape raw))) (hw : C.At i (.abx .loadConst t k)) :
    ExprAt C names (.text raw pos) sc t i (i + 1)
  | bool {b : Bool} {pos : Position} {sc : Scope} {t i : Nat}
    (hw : C.At i (.abx (if b then .loadTrue else .loadFalse) t 0)) :
    ExprAt C names (.bool b pos) sc t i (i + 1)
  | nil {pos : Position} {sc : Scope} {t i : Nat} (hw : C.At i (.abx .loadNil t 0)) :
    ExprAt C names (.nil pos) sc t i (i + 1)
  | here {ident : String} {pos : Position} {sc : Scope} {t i : Nat}
    (hreg : sc.reg? ident = some t) : ExprAt C names (.name ident pos) sc t i i
  | move {ident : String} {pos : Position} {sc : Scope} {t i r : Nat}
    (hreg : sc.reg? ident = some r) (hw : C.At i (.abc .move t r 0)) :
    ExprAt C names (.name ident pos) sc t i (i + 1)
  | global {ident : String} {pos : Position} {sc : Scope} {t i : Nat} {g : GlobalName}
    (hreg : sc.reg? ident = none) (hg : names.global? ident = some g) (hslot : g.slot ≤ maxWide)
    (hw : C.At i (.abx .getGlobal t g.slot)) : ExprAt C names (.name ident pos) sc t i (i + 1)
  | primitive {ident : String} {pos : Position} {sc : Scope} {t i index : Nat}
    (hreg : sc.reg? ident = none) (hg : names.global? ident = none)
    (hindex : names.primitive? ident = some index) (hwide : index ≤ maxWide)
    (hw : C.At i (.abx .getPrim t index)) : ExprAt C names (.name ident pos) sc t i (i + 1)
  | binary {op : BinaryOp} {lhs rhs : Expr} {pos : Position} {sc : Scope} {t i k m : Nat}
    {code : Opcode} (hcode : operatorCode? op = some code) (hl : ExprAt C names lhs sc t i k)
    (hroom : C.Room sc.top) (hr : ExprAt C names rhs sc.take sc.top k m)
    (hw : C.At m (.abc code t t sc.top)) : ExprAt C names (.binary op lhs rhs pos) sc t i (m + 1)
  | logical {op : BinaryOp} {lhs rhs : Expr} {pos : Position} {sc : Scope} {t i k j : Nat}
    (hcode : operatorCode? op = none) (hl : ExprAt C names lhs sc t i k)
    (hw : C.At k (.abx (skipCode op) t j)) (hr : ExprAt C names rhs sc t (k + 1) j)
    (hj : j ≤ maxWide) : ExprAt C names (.binary op lhs rhs pos) sc t i j
  | unary {op : UnaryOp} {operand : Expr} {pos : Position} {sc : Scope} {t i k : Nat}
    (he : ExprAt C names operand sc t i k) (hw : C.At k (.abc (unaryCode op) t t 0)) :
    ExprAt C names (.unary op operand pos) sc t i (k + 1)
  | call {callee : Expr} {args : List Expr} {pos : Position} {sc : Scope} {t i k m : Nat}
    (hcount : args.length ≤ maxArguments) (hroom : C.Room sc.top)
    (hf : ExprAt C names callee sc.take sc.top i k) (hargs : ArgsAt C names args sc.take k m)
    (hw : C.At m (.abc .call t sc.top args.length)) :
    ExprAt C names (.call callee args pos) sc t i (m + 1)
  | cond {test : Expr} {body : Block} {otherwise : Else} {pos : Position} {sc : Scope}
    {t i k m j : Nat} (hroom : C.Room sc.top) (htest : ExprAt C names test sc.take sc.top i k)
    (hskip : C.At k (.abx .jumpIfFalse sc.top (m + 1))) (hm : m + 1 ≤ maxWide)
    (hbody : BlockAt C names body sc t (k + 1) m) (hend : C.At m (.abx .jump 0 j))
    (hj : j ≤ maxWide) (helse : ElseAt C names otherwise sc t (m + 1) j) :
    ExprAt C names (.cond test body otherwise pos) sc t i j
  | block {body : Block} {sc : Scope} {t i j : Nat} (hbody : BlockAt C names body sc t i j) :
    ExprAt C names (.block body) sc t i j

/-- The code of arguments, each in the register on top of the one before. -/
inductive ArgsAt (C : Coding) (names : Names) : List Expr → Scope → (i j : Nat) → Prop
  | nil {sc : Scope} {i : Nat} : ArgsAt C names [] sc i i
  | cons {arg : Expr} {rest : List Expr} {sc : Scope} {i k j : Nat} (hroom : C.Room sc.top)
    (harg : ExprAt C names arg sc.take sc.top i k) (hrest : ArgsAt C names rest sc.take k j) :
    ArgsAt C names (arg :: rest) sc i j

/-- The code of an alternative. -/
inductive ElseAt (C : Coding) (names : Names) : Else → Scope → (target i j : Nat) → Prop
  | absent {sc : Scope} {t i : Nat} (hw : C.At i (.abx .loadNil t 0)) :
    ElseAt C names .absent sc t i (i + 1)
  | block {body : Block} {sc : Scope} {t i j : Nat} (hbody : BlockAt C names body sc t i j) :
    ElseAt C names (.block body) sc t i j
  | elseIf {test : Expr} {body : Block} {otherwise : Else} {pos : Position} {sc : Scope}
    {t i k m j : Nat} (hroom : C.Room sc.top) (htest : ExprAt C names test sc.take sc.top i k)
    (hskip : C.At k (.abx .jumpIfFalse sc.top (m + 1))) (hm : m + 1 ≤ maxWide)
    (hbody : BlockAt C names body sc t (k + 1) m) (hend : C.At m (.abx .jump 0 j))
    (hj : j ≤ maxWide) (helse : ElseAt C names otherwise sc t (m + 1) j) :
    ElseAt C names (.elseIf test body otherwise pos) sc t i j

/-- The code of a block. -/
inductive BlockAt (C : Coding) (names : Names) : Block → Scope → (target i j : Nat) → Prop
  | mk {stmts : List Stmt} {pos : Position} {sc : Scope} {t i j : Nat}
    (hstmts : TailAt C names stmts sc t i j) : BlockAt C names (.mk stmts pos) sc t i j

/-- The code of the statements of a block. -/
inductive TailAt (C : Coding) (names : Names) : List Stmt → Scope → (target i j : Nat) → Prop
  | nil {sc : Scope} {t i : Nat} (hw : C.At i (.abx .loadNil t 0)) : TailAt C names [] sc t i (i + 1)
  | value {e : Expr} {sc : Scope} {t i j : Nat} (he : ExprAt C names e sc t i j) :
    TailAt C names [.expr e] sc t i j
  | cons {stmt : Stmt} {rest : List Stmt} {sc sc' : Scope} {t i k j : Nat}
    (hlast : ∀ e, stmt = .expr e → rest ≠ []) (hstmt : StmtAt C names stmt sc sc' i k)
    (hrest : TailAt C names rest sc' t k j) : TailAt C names (stmt :: rest) sc t i j

/-- The code of a statement, which leads from one scope to another. -/
inductive StmtAt (C : Coding) (names : Names) : Stmt → Scope → Scope → (i j : Nat) → Prop
  | bind {mutable : Bool} {name : String} {value : Expr} {pos : Position} {sc : Scope} {i j : Nat}
    (hroom : C.Room sc.top) (he : ExprAt C names value sc.take sc.top i j) :
    StmtAt C names (.bind mutable name value pos) sc (sc.declare name) i j
  | move {ident : String} {p pos : Position} {value : Expr} {sc : Scope} {i k r : Nat}
    (hreg : sc.reg? ident = some r) (hroom : C.Room sc.top)
    (he : ExprAt C names value sc.take sc.top i k) (hw : C.At k (.abc .move r sc.top 0)) :
    StmtAt C names (.assign (.name ident p) value pos) sc sc i (k + 1)
  | setGlobal {ident : String} {p pos : Position} {value : Expr} {sc : Scope} {i k : Nat}
    {g : GlobalName} (hreg : sc.reg? ident = none) (hg : names.global? ident = some g)
    (hmutable : g.mutable = true) (hslot : g.slot ≤ maxWide) (hroom : C.Room sc.top)
    (he : ExprAt C names value sc.take sc.top i k) (hw : C.At k (.abx .setGlobal sc.top g.slot)) :
    StmtAt C names (.assign (.name ident p) value pos) sc sc i (k + 1)
  | retNil {pos : Position} {sc : Scope} {i : Nat} (hreturns : C.returns = true)
    (hroom : C.Room sc.top) (hnil : C.At i (.abx .loadNil sc.top 0))
    (hret : C.At (i + 1) (.abc .ret sc.top 0 0)) : StmtAt C names (.retNil pos) sc sc i (i + 2)
  | ret {value : Expr} {pos : Position} {sc : Scope} {i k : Nat} (hreturns : C.returns = true)
    (hroom : C.Room sc.top) (he : ExprAt C names value sc.take sc.top i k)
    (hret : C.At k (.abc .ret sc.top 0 0)) : StmtAt C names (.ret value pos) sc sc i (k + 1)
  | loop {test : Expr} {body : Block} {pos : Position} {sc : Scope} {i k m : Nat}
    (hi : i ≤ maxWide) (hroom : C.Room sc.top) (htest : ExprAt C names test sc.take sc.top i k)
    (hskip : C.At k (.abx .jumpIfFalse sc.top (m + 1))) (hm : m + 1 ≤ maxWide)
    (hbody : BlockAt C names body sc.take sc.top (k + 1) m) (hback : C.At m (.abx .jump 0 i)) :
    StmtAt C names (.loop test body pos) sc sc i (m + 1)
  | expr {e : Expr} {sc : Scope} {i j : Nat} (hroom : C.Room sc.top)
    (he : ExprAt C names e sc.take sc.top i j) : StmtAt C names (.expr e) sc sc i j

end

/-! ## Scopes -/

namespace Scope

/-- The locals have registers of their own below the top, and the function has all of them. -/
structure InOrder (C : Coding) (sc : Scope) : Prop where
  regs : ∀ x ∈ sc.locals, x.2 < sc.top
  distinct : (sc.locals.map Prod.snd).Nodup
  top_le : sc.top ≤ 255
  top_le_slots : sc.top ≤ C.slots

/-- A register in use that holds no local. -/
def Spare (sc : Scope) (t : Nat) : Prop :=
  t < sc.top ∧ ∀ x ∈ sc.locals, x.2 ≠ t

variable {C : Coding} {sc : Scope} {t : Nat}

theorem InOrder.take (h : sc.InOrder C) (hroom : C.Room sc.top) : sc.take.InOrder C where
  regs x hx := Nat.lt_succ_of_lt (h.regs x hx)
  distinct := h.distinct
  top_le := hroom.1
  top_le_slots := hroom.2

theorem InOrder.declare (h : sc.InOrder C) (hroom : C.Room sc.top) (name : String) :
    (sc.declare name).InOrder C where
  regs := by
    intro x hx
    rcases List.mem_cons.1 hx with rfl | hx
    · exact Nat.lt_succ_self _
    · exact Nat.lt_succ_of_lt (h.regs x hx)
  distinct := by
    show (sc.top :: sc.locals.map Prod.snd).Nodup
    refine List.nodup_cons.2 ⟨fun hmem => ?_, h.distinct⟩
    obtain ⟨x, hx, htop⟩ := List.mem_map.1 hmem
    have := h.regs x hx
    omega
  top_le := hroom.1
  top_le_slots := hroom.2

theorem InOrder.spare_take (h : sc.InOrder C) : sc.take.Spare sc.top :=
  ⟨Nat.lt_succ_self _, fun x hx => Nat.ne_of_lt (h.regs x hx)⟩

theorem Spare.take (h : sc.Spare t) : sc.take.Spare t :=
  ⟨Nat.lt_succ_of_lt h.1, h.2⟩

/-- A local is read back from its register. -/
theorem mem_of_reg? {ident : String} {r : Nat} (h : sc.reg? ident = some r) :
    (ident, r) ∈ sc.locals := by
  unfold reg? at h
  generalize sc.locals = locals at h
  induction locals with
  | nil => cases h
  | cons x rest ih =>
    obtain ⟨name, r'⟩ := x
    rw [List.lookup_cons] at h
    by_cases hname : ident = name
    · subst hname
      simp only [beq_self_eq_true, Option.some.injEq] at h
      rw [h]
      exact List.mem_cons_self
    · have hne : (ident == name) = false := by simpa using hname
      simp only [hne] at h
      exact List.mem_cons_of_mem _ (ih h)

end Scope

theorem inOrder_of_stmtAt {C : Coding} {names : Names} {stmt : Stmt} {sc sc' : Scope} {i j : Nat}
    (h : StmtAt C names stmt sc sc' i j) (hsc : sc.InOrder C) : sc'.InOrder C := by
  cases h with
  | bind hroom _ => exact hsc.declare hroom _
  | _ => exact hsc

/-- There are registers for the arguments above those in use. -/
theorem room_of_argsAt {C : Coding} {names : Names} {args : List Expr} {sc : Scope} {i j : Nat}
    (h : ArgsAt C names args sc i j) (htop : sc.top ≤ C.slots) : sc.top + args.length ≤ C.slots := by
  induction args generalizing sc i with
  | nil => exact htop
  | cons arg rest ih =>
    cases h with
    | cons hroom harg hrest =>
      have hle := ih hrest hroom.2
      rw [List.length_cons]
      show sc.top + (rest.length + 1) ≤ C.slots
      have htake : sc.take.top = sc.top + 1 := rfl
      omega

/-! ## Fragments laid out

The code of a function, and the code of the statements of a fragment, which define names one after
another.
-/

/-- What a constant of a program with these strings stands for, unless it is a function. -/
inductive Denotes (strings : Array String) : Constant → Datum → Prop
  | int (n : Int64) : Denotes strings (.int n) (.int n.toInt)
  | text {i : UInt32} {s : String} (h : strings[i.toNat]? = some s) :
    Denotes strings (.str i) (.text s)

/-- The finished code of a function of a program with these strings. -/
def coding (strings : Array String) (returns : Bool) (p : Prototype) : Coding where
  code := p.code
  slots := p.slots.toNat
  constant k d := ∃ c, p.constants[k]? = some c ∧ Denotes strings c d
  returns := returns

/-- The scope of a function's body: its parameters, and the register of its result. -/
def paramScope (params : List String) : Scope :=
  ⟨params.zipIdx.reverse, params.length + 1⟩

/-- A function's code is that of a declaration. -/
structure FunctionAt (strings : Array String) (p : Prototype) (f : Closure) : Prop where
  name : p.name = f.name
  arity : p.arity.toNat = f.params.length
  distinct : f.params.Nodup
  room : (coding strings true p).Room f.params.length
  body : ∃ k, BlockAt (coding strings true p) f.names f.body (paramScope f.params)
      f.params.length 0 k ∧
    (coding strings true p).At k (.abc .ret f.params.length 0 0) ∧ p.code.size = k + 1

theorem paramScope_inOrder {C : Coding} {params : List String} (hroom : C.Room params.length) :
    (paramScope params).InOrder C ∧ (paramScope params).Spare params.length := by
  have hlt : ∀ x ∈ (paramScope params).locals, x.2 < params.length := by
    intro x hx
    have hmem : x ∈ params.zipIdx := List.mem_reverse.1 hx
    have := List.snd_lt_of_mem_zipIdx hmem
    omega
  refine ⟨⟨fun x hx => Nat.lt_succ_of_lt (hlt x hx), ?_, hroom.1, hroom.2⟩, Nat.lt_succ_self _,
    fun x hx => Nat.ne_of_lt (hlt x hx)⟩
  show (params.zipIdx.reverse.map Prod.snd).Nodup
  rw [List.map_reverse, List.nodup_reverse, List.zipIdx_map_snd]
  exact List.nodup_range'

/-- The scope of the statements of a fragment: one register holds the result. -/
def topScope : Scope :=
  ⟨[], 1⟩

theorem topScope_inOrder {C : Coding} (hroom : C.Room 0) : topScope.InOrder C where
  regs _ hx := absurd hx List.not_mem_nil
  distinct := List.nodup_nil
  top_le := by decide
  top_le_slots := hroom.2

theorem topScope_spare : topScope.Spare resultReg :=
  ⟨by decide, fun _ hx => absurd hx List.not_mem_nil⟩

/-- The names after a statement at the top level. -/
def namesAfter (names : Names) : Stmt → Names
  | .bind mutable name _ _ => names.define ⟨name, names.nextSlot, mutable⟩
  | .func name _ _ _ => names.define ⟨name, names.nextSlot, false⟩
  | _ => names

/-- The functions that statements at the top level declare, in order. -/
def declared (names : Names) : List Stmt → List Closure
  | [] => []
  | .func name params body pos :: rest =>
    ⟨name, params, body, names.define ⟨name, names.nextSlot, false⟩, names.nextSlot⟩ ::
      declared (namesAfter names (.func name params body pos)) rest
  | stmt :: rest => declared (namesAfter names stmt) rest

/-- A statement declares at most one function. -/
theorem declared_cons (names : Names) (stmt : Stmt) (rest : List Stmt) :
    declared names (stmt :: rest) = declared names [stmt] ++ declared (namesAfter names stmt) rest := by
  cases stmt <;> rfl

theorem declared_append (names : Names) (p q : List Stmt) :
    declared names (p ++ q) = declared names p ++ declared (p.foldl namesAfter names) q := by
  induction p generalizing names with
  | nil => rfl
  | cons stmt rest ih =>
    rw [List.cons_append, declared_cons, ih, declared_cons names stmt rest, List.append_assoc]
    rfl

/-- The code of the statements of a fragment, where `made` says which constant is which function. A
definition is visible to what follows it, and a function to itself; `after` are the names at the
end. -/
inductive TopAt (C : Coding) (made : Nat → Closure → Prop) (after : Names) :
    Names → List Stmt → (i j : Nat) → Prop
  | nil {i : Nat} : TopAt C made after after [] i i
  | expr {names : Names} {e : Expr} {rest : List Stmt} {i k j : Nat}
    (he : ExprAt C names e topScope resultReg i k) (hrest : TopAt C made after names rest k j) :
    TopAt C made after names (.expr e :: rest) i j
  | bind {names : Names} {mutable : Bool} {name : String} {e : Expr} {pos : Position}
    {rest : List Stmt} {i k j : Nat} (hroom : C.Room 1)
    (he : ExprAt C names e topScope.take 1 i k) (hslot : names.nextSlot ≤ maxWide)
    (hw : C.At k (.abx .defGlobal 1 names.nextSlot))
    (hrest : TopAt C made after (names.define ⟨name, names.nextSlot, mutable⟩) rest (k + 1) j) :
    TopAt C made after names (.bind mutable name e pos :: rest) i j
  | func {names : Names} {name : String} {params : List String} {body : Block} {pos : Position}
    {rest : List Stmt} {i k j : Nat} (hroom : C.Room 1) (hk : k ≤ maxWide)
    (hmade : made k ⟨name, params, body, names.define ⟨name, names.nextSlot, false⟩,
      names.nextSlot⟩)
    (hload : C.At i (.abx .loadConst 1 k)) (hslot : names.nextSlot ≤ maxWide)
    (hdef : C.At (i + 1) (.abx .defGlobal 1 names.nextSlot))
    (hrest : TopAt C made after (names.define ⟨name, names.nextSlot, false⟩) rest (i + 2) j) :
    TopAt C made after names (.func name params body pos :: rest) i j
  | plain {names : Names} {stmt : Stmt} {rest : List Stmt} {i k j : Nat} (hplain : Plain stmt)
    (hstmt : StmtAt C names stmt topScope topScope i k) (hrest : TopAt C made after names rest k j) :
    TopAt C made after names (stmt :: rest) i j

/-- The code of a fragment: the result starts out nil and is returned at the end. -/
structure MainAt (C : Coding) (made : Nat → Closure → Prop) (names after : Names) (f : Fragment) :
    Prop where
  start : C.At 0 (.abx .loadNil resultReg 0)
  room : C.Room 0
  body : ∃ k, TopAt C made after names f 1 k ∧ C.At k (.abc .ret resultReg 0 0) ∧
    C.code.size = k + 1

end ScriptMachine.Compile
