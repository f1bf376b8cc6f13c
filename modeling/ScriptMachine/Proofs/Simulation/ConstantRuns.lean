import ScriptMachine.Proofs.Compile.ConstantCode
import ScriptMachine.Proofs.Simulation.Agreement

/-!
# Runs of constant expressions

The code of a constant expression takes at most one step for each of its instructions, as many as the
fuel allows or not. It comes to the value of the expression or to its fault, and changes nothing but
registers: no limit of the machine but that on fuel has a part in it.
-/

namespace ScriptMachine

open Source Bytecode Compile Evaluation Link

namespace Machine

/-- The fuel allows `count` more instructions. -/
def Allows (m : Machine) (count : Nat) : Prop :=
  ∀ limit, m.fuel = some limit → m.executed + count ≤ limit

theorem Allows.fuelled {m : Machine} {count : Nat} (h : m.Allows (count + 1)) : m.Fuelled := by
  intro limit hlimit
  have := h limit hlimit
  omega

/-- Two machines differ in registers, frames and instructions executed only. -/
structure Undisturbed (m o : Machine) : Prop where
  heap : o.heap = m.heap
  globals : o.globals = m.globals
  primitives : o.primitives = m.primitives
  pending : o.pending = m.pending
  sink : o.sink = m.sink
  fuel : o.fuel = m.fuel

theorem Undisturbed.refl (m : Machine) : m.Undisturbed m :=
  ⟨rfl, rfl, rfl, rfl, rfl, rfl⟩

theorem Undisturbed.trans {l m o : Machine} (h : l.Undisturbed m) (h' : m.Undisturbed o) :
    l.Undisturbed o :=
  ⟨h'.heap.trans h.heap, h'.globals.trans h.globals, h'.primitives.trans h.primitives,
    h'.pending.trans h.pending, h'.sink.trans h.sink, h'.fuel.trans h.fuel⟩

end Machine

namespace Simulation

variable {σ : Slots} {n : Nat} {A : Activation} {C : Coding} {m o : Machine} {d e : Datum}
  {i j k l t r top : Nat} {w : Word} {op : Opcode} {v : Value}

/-! ## Runs without limits -/

/-- Within `count` instructions a run comes to a state that `Q` describes with the datum, or to the
fault. -/
def Comes (count : Nat) (m : Machine) (result : Except Fault Datum)
    (Q : Datum → Machine → Prop) : Prop :=
  ∃ l ≤ count, ∃ o, m.Undisturbed o ∧ o.executed = m.executed + l ∧
    match result with
    | .ok d => Machine.run l m = .ok none o ∧ Q d o
    | .error e => Machine.run l m = .error e o

namespace Comes

variable {result : Except Fault Datum} {P Q : Datum → Machine → Prop} {f : Fault}

theorem of_step (hs : Machine.step m = .ok none o) (hm : m.Undisturbed o)
    (hcount : o.executed = m.executed + 1) (hQ : Q d o) : Comes 1 m (.ok d) Q :=
  ⟨1, Nat.le_refl 1, o, hm, hcount, Machine.run_one_ok hs, hQ⟩

theorem of_fault (hs : Machine.step m = .error f o) (hm : m.Undisturbed o)
    (hcount : o.executed = m.executed + 1) : Comes 1 m (.error f) Q :=
  ⟨1, Nat.le_refl 1, o, hm, hcount, Machine.run_one_error hs⟩

/-- One run after another. -/
theorem bind {next : Datum → Except Fault Datum} (h : Comes k m result Q)
    (hm : m.Allows (k + l))
    (hnext : ∀ d o, result = .ok d → o.Allows l → m.heap = o.heap → Q d o →
      Comes l o (next d) P) : Comes (k + l) m (result.bind next) P := by
  obtain ⟨a, ha, o, ho, hcount, hr⟩ := h
  cases result with
  | error e => exact ⟨a, Nat.le_add_right_of_le ha, o, ho, hcount, hr⟩
  | ok d =>
    obtain ⟨hrun, hQ⟩ := hr
    have hallows : o.Allows l := by
      intro limit hlimit
      have := hm limit (ho.fuel.symm.trans hlimit)
      omega
    obtain ⟨b, hb, o', ho', hcount', hr'⟩ := hnext d o rfl hallows ho.heap.symm hQ
    refine ⟨a + b, Nat.add_le_add ha hb, o', ho.trans ho', by omega, ?_⟩
    show match next d with
      | .ok d => Machine.run (a + b) m = .ok none o' ∧ P d o'
      | .error e => Machine.run (a + b) m = .error e o'
    rw [Machine.run_add hrun]
    exact hr'

theorem less (h : Comes k m result Q) (hle : k ≤ l) : Comes l m result Q := by
  obtain ⟨a, ha, hrest⟩ := h
  exact ⟨a, Nat.le_trans ha hle, hrest⟩

theorem mono (h : Comes k m result Q) (hQ : ∀ d o, Q d o → P d o) : Comes k m result P := by
  obtain ⟨a, ha, o, ho, hcount, hr⟩ := h
  refine ⟨a, ha, o, ho, hcount, ?_⟩
  cases result with
  | error e => exact hr
  | ok d => exact ⟨hr.1, hQ d o hr.2⟩

end Comes

/-! ## Instructions -/

/-- The machine stands in front of instruction `i` of an activation. -/
structure Poised (A : Activation) (C : Coding) (i : Nat) (m : Machine) : Prop where
  frames : m.frames = A.frame i :: A.callers
  code : ∃ g, m.heap.function? A.handle = some g ∧ Has m.heap g C
  room : A.base + C.slots ≤ m.stack.size

/-- A datum has been computed into the register `t` since `m`; the registers below `top` are as they
were. -/
structure Filled (σ : Slots) (n : Nat) (A : Activation) (C : Coding) (top t j : Nat) (m : Machine)
    (d : Datum) (o : Machine) : Prop where
  poised : Poised A C j o
  value : Reg σ n A o t d
  kept : ∀ r < top, r ≠ t → o.stack[A.base + r]? = m.stack[A.base + r]?

theorem Filled.since {m' : Machine} (h : Filled σ n A C top t j o d m')
    (hkept : ∀ r < top, r ≠ t → o.stack[A.base + r]? = m.stack[A.base + r]?) :
    Filled σ n A C top t j m d m' :=
  ⟨h.poised, h.value, fun r hr ht => (h.kept r hr ht).trans (hkept r hr ht)⟩

namespace Poised

/-- The machine when it has moved past the instruction. -/
theorem past (h : Poised A C i m) : Poised A C (i + 1) (m.past (A.frame i) A.callers) :=
  ⟨rfl, h.code, h.room⟩

theorem step (h : Poised A C i m) (hm : m.Allows (k + 1)) (hw : C.At i w)
    (hop : w.opcode? = some op) : ∃ g, Has m.heap g C ∧
      Machine.step m = Machine.perform g A.base op w (m.past (A.frame i) A.callers) := by
  obtain ⟨g, hg, hC⟩ := h.code
  have hcode : g.code[(A.frame i).ip]? = some w := by
    rw [hC.code]
    exact hw
  exact ⟨g, hC, Machine.step_performs h.frames hg hcode hm.fuelled hop⟩

theorem cell_lt (h : Poised A C i m) (ht : t < C.slots) : A.base + t < m.stack.size := by
  have := h.room
  omega

theorem store (h : Poised A C i m) (cell : Nat) (v : Value) : Poised A C i (m.store cell v) :=
  ⟨h.frames, h.code, by rw [Machine.size_store]; exact h.room⟩

theorem jumpTo (h : Poised A C i m) (j : Nat) :
    (do Machine.jumpTo j; return none : Action (Option Value)) m =
      .ok none { m with frames := A.frame j :: A.callers } := by
  have hjump : Machine.jumpTo j m = .ok () { m with frames := A.frame j :: A.callers } := by
    rw [Machine.jumpTo, h.frames]
    rfl
  exact Machine.bind_of_ok hjump

end Poised

theorem undisturbed_past (m : Machine) (frame : Frame) (rest : List Frame) :
    m.Undisturbed (m.past frame rest) :=
  ⟨rfl, rfl, rfl, rfl, rfl, rfl⟩

/-- An instruction that writes a result to its target. -/
theorem comes_result (h : Poised A C i m) (hm : m.Allows 1) (ht : t < C.slots) (hw : C.At i w)
    (hop : w.opcode? = some op) {result' : Except Fault Datum}
    (hperform : ∀ g, Has m.heap g C → ∃ result, Agree σ n m.heap result result' ∧
      ∀ o, o.heap = m.heap → o.stack = m.stack → Machine.perform g A.base op w o =
        (do
          let v ← Machine.liftFault result
          Machine.writeReg A.base t v
          return none : Action (Option Value)) o) :
    Comes 1 m result' (Filled σ n A C top t (i + 1) m) := by
  obtain ⟨g, hC, hs⟩ := h.step (k := 0) hm hw hop
  obtain ⟨result, hagree, hperform⟩ := hperform g hC
  have hs' := hs.trans (hperform _ rfl rfl)
  have hpast := undisturbed_past m (A.frame i) A.callers
  cases hagree with
  | error he => exact .of_fault hs' hpast rfl
  | @ok v d hd =>
    have hwrite : Machine.step m =
        .ok none ((m.past (A.frame i) A.callers).store (A.base + t) v) :=
      hs'.trans (Machine.bind_of_ok (Machine.writeReg_eq (h.past.cell_lt ht)))
    refine .of_step hwrite ⟨rfl, rfl, rfl, rfl, rfl, rfl⟩ rfl ⟨h.past.store _ _, ?_, ?_⟩
    · exact ⟨v, Machine.store_self (h.past.cell_lt ht), hd⟩
    · intro r _ hr
      exact Machine.store_ne (by omega)

/-! ## Operators on data that need no heap -/

theorem bothStrings_of_isPlain {heap : Heap} {u v : Value} (hd : d.IsPlain)
    (hu : Stands σ n heap u d) (hv : Stands σ n heap v e) : Machine.bothStrings u v = false := by
  rw [bothStrings_eq hu hv]
  cases d with
  | text s => exact hd.elim
  | _ => rfl

/-- Without texts an operator stores nothing: it has a result, which agrees with that on the data. -/
theorem agree_binary (hσ : σ.Distinct) (hop : Machine.Binary op) {heap : Heap} {u v : Value}
    (hd : d.IsPlain) (hu : Stands σ n heap u d) (hv : Stands σ n heap v e) :
    ∃ result, Agree σ n heap result (binary op d e) ∧ ∀ o : Machine, o.heap = heap →
      Machine.binaryResult op u v o = Machine.liftFault result o := by
  have hstrings := bothStrings_of_isPlain hd hu hv
  cases op with
  | add =>
    refine ⟨_, agree_arithmetic trivial hu hv hstrings, fun o _ => ?_⟩
    show Machine.addValues u v o = _
    unfold Machine.addValues
    rw [hstrings]
    rfl
  | sub | mul | div | mod => exact ⟨_, agree_arithmetic trivial hu hv hstrings, fun _ _ => rfl⟩
  | eq =>
    refine ⟨.ok (.bool (d.same e)), .ok (.bool _), fun o ho => ?_⟩
    rw [← hu.same_eq hσ hv, ← ho]
    rfl
  | notEq =>
    refine ⟨.ok (.bool (!d.same e)), .ok (.bool _), fun o ho => ?_⟩
    rw [← hu.same_eq hσ hv, ← ho]
    rfl
  | lt | le | gt | ge =>
    refine ⟨_, agree_order rfl hu hv, fun o ho => ?_⟩
    rw [← ho]
    rfl
  | _ => exact hop.elim

/-! ## Trees -/

theorem comes_constantLoad (h : Poised A C i m) (hm : m.Allows 1) (ht : t < 256) (hts : t < C.slots)
    (hk : C.Holds k d) (hw : C.At i (.abx .loadConst t k)) :
    Comes 1 m (.ok d) (Filled σ n A C top t (i + 1) m) := by
  refine comes_result h hm hts hw (Word.opcode?_abx _ _ _) fun g hC => ?_
  obtain ⟨v, hv, hd⟩ := hC.constants k d hk.2
  refine ⟨.ok v, .ok (.of_literal hd), fun o _ _ => ?_⟩
  simp only [Machine.perform, Word.a_abx _ ht, Word.bx_abx _ (Nat.lt_succ_of_le hk.1), hv]
  rfl

theorem comes_unary (h : Poised A C i m) (hm : m.Allows 1) (ht : t < 256) (hts : t < C.slots)
    (op : UnaryOp) (hd : Reg σ n A m t d) (hw : C.At i (.abc (unaryCode op) t t 0)) :
    Comes 1 m (unary op d) (Filled σ n A C top t (i + 1) m) := by
  refine comes_result h hm hts hw (Word.opcode?_abc _ _ _ _) fun g _ => ?_
  obtain ⟨v, hv, hvd⟩ := hd
  refine ⟨_, agree_unary op hvd, fun o _ hstack => ?_⟩
  have hread : Machine.readReg A.base t o = .ok v o := Machine.readReg_eq (hstack ▸ hv)
  have hperform : Machine.perform g A.base (unaryCode op) (.abc (unaryCode op) t t 0) o =
      (do
        let u ← Machine.readReg A.base t
        let r ← Machine.liftFault (Machine.unaryResult (unaryCode op) u)
        Machine.writeReg A.base t r
        return none : Action (Option Value)) o := by
    cases op <;> simp only [unaryCode, Machine.perform, Word.a_abc _ ht, Word.b_abc _ ht]
  exact hperform.trans (Machine.bind_of_ok hread)

theorem comes_binary (top : Nat) (h : Poised A C i m) (hm : m.Allows 1) (ht : t < 256) (hts : t < C.slots)
    (hr : r < 256) (hσ : σ.Distinct) (hop : Machine.Binary op) (hplain : d.IsPlain)
    (hd : Reg σ n A m t d) (he : Reg σ n A m r e) (hw : C.At i (.abc op t t r)) :
    Comes 1 m (binary op d e) (Filled σ n A C top t (i + 1) m) := by
  refine comes_result h hm hts hw (Word.opcode?_abc _ _ _ _) fun g _ => ?_
  obtain ⟨v, hv, hvd⟩ := hd
  obtain ⟨u, hu, hue⟩ := he
  obtain ⟨result, hagree, hresult⟩ := agree_binary hσ hop hplain hvd hue
  refine ⟨result, hagree, fun o hheap hstack => ?_⟩
  have hread : Machine.readReg A.base t o = .ok v o := Machine.readReg_eq (hstack ▸ hv)
  have hread' : Machine.readReg A.base r o = .ok u o := Machine.readReg_eq (hstack ▸ hu)
  have hperform : Machine.perform g A.base op (.abc op t t r) o =
      (do
        let v ← Machine.readReg A.base t
        let u ← Machine.readReg A.base r
        let r ← Machine.binaryResult op v u
        Machine.writeReg A.base t r
        return none : Action (Option Value)) o := by
    cases op <;> first
      | exact hop.elim
      | simp only [Machine.perform, Word.a_abc _ ht, Word.b_abc _ ht, Word.c_abc _ hr]
  refine hperform.trans ((Machine.bind_of_ok hread).trans ((Machine.bind_of_ok hread').trans ?_))
  show EStateM.bind _ _ o = EStateM.bind _ _ o
  unfold EStateM.bind
  rw [hresult o hheap]

/-- The jump behind the left operand of `&&` or `||` is taken where that operand decides. -/
theorem comes_skip (top : Nat) (h : Poised A C i m) (hm : m.Allows 1) (ht : t < 256) (op : BinaryOp)
    (hd : Reg σ n A m t d) (hw : C.At i (.abx (skipCode op) t j)) (hj : j ≤ maxWide) :
    Comes 1 m (.ok d)
      (Filled σ n A C top t (if decides op d then j else i + 1) m) := by
  obtain ⟨g, -, hs⟩ := h.step (k := 0) hm hw (Word.opcode?_abx _ _ _)
  have hpast := undisturbed_past m (A.frame i) A.callers
  have hs' := hs.trans (perform_skip (o := m.past (A.frame i) A.callers) op ht hj hd)
  cases hdecides : decides op d with
  | false =>
    rw [hdecides, if_neg (by decide)] at hs'
    exact .of_step hs' hpast rfl ⟨h.past, hd, fun _ _ _ => rfl⟩
  | true =>
    rw [hdecides, if_pos rfl] at hs'
    refine .of_step (hs'.trans (h.past.jumpTo j)) ⟨rfl, rfl, rfl, rfl, rfl, rfl⟩ rfl ⟨?_, hd, ?_⟩
    · exact ⟨rfl, h.code, h.room⟩
    · exact fun _ _ _ => rfl

/-- The code of a constant expression comes to its value. -/
theorem comes_constant (hσ : σ.Distinct) {names : Names} : (e : Expr) → IsConstant e →
    {sc : Scope} → {t i j : Nat} → sc.InOrder C → sc.Spare t → ExprAt C names e sc t i j →
    (m : Machine) → Poised A C i m → m.Allows (constantSize e) →
    Comes (constantSize e) m (constantValue e) (Filled σ n A C sc.top t j m)
  | .number digits _, _, sc, t, i, j, hsc, ht, h, m, hm, hfuel => by
    cases h with
    | number hn hk hw =>
      simp only [constantValue, hn]
      exact comes_constantLoad hm hfuel (Spare.lt hsc ht)
        (Nat.lt_of_lt_of_le ht.1 hsc.top_le_slots) hk hw
  | .bool b _, _, sc, t, i, j, hsc, ht, h, m, hm, hfuel => by
    cases h with
    | bool hw =>
      refine comes_result hm hfuel (Nat.lt_of_lt_of_le ht.1 hsc.top_le_slots) hw
        (Word.opcode?_abx _ _ _) fun g _ => ⟨.ok (.bool b), .ok (.bool b), fun o _ _ => ?_⟩
      cases b <;> simp [Machine.perform, Word.a_abx _ (Spare.lt hsc ht)] <;> rfl
  | .nil _, _, sc, t, i, j, hsc, ht, h, m, hm, hfuel => by
    cases h with
    | nil hw =>
      refine comes_result hm hfuel (Nat.lt_of_lt_of_le ht.1 hsc.top_le_slots) hw
        (Word.opcode?_abx _ _ _) fun g _ => ⟨.ok .nil, .ok .nil, fun o _ _ => ?_⟩
      simp only [Machine.perform, Word.a_abx _ (Spare.lt hsc ht)]
      rfl
  | .unary op operand _, hconst, sc, t, i, j, hsc, ht, h, m, hm, hfuel => by
    cases h with
    | unary he hw =>
      simp only [constantSize, constantValue] at hfuel ⊢
      have hoperand := comes_constant hσ operand hconst hsc ht he m hm
        fun limit hlimit => by have := hfuel limit hlimit; omega
      refine hoperand.bind hfuel fun d o _ ho _ hd => ?_
      have hlt := Nat.lt_of_lt_of_le ht.1 hsc.top_le_slots
      exact (comes_unary hd.poised ho (Spare.lt hsc ht) hlt op hd.value hw).mono
        fun _ _ hr => hr.since hd.kept
  | .binary op lhs rhs _, ⟨hl, hr⟩, sc, t, i, j, hsc, ht, h, m, hm, hfuel => by
    simp only [constantSize, constantValue] at hfuel ⊢
    have hlt := Nat.lt_of_lt_of_le ht.1 hsc.top_le_slots
    rw [Nat.add_assoc] at hfuel ⊢
    have hfirst : m.Allows (constantSize lhs) := fun limit hlimit => by
      have := hfuel limit hlimit
      omega
    cases h with
    | binary hcode hle hroom hre hw =>
      have hlhs := comes_constant hσ lhs hl hsc ht hle m hm hfirst
      refine hlhs.bind hfuel fun d o hdv ho _ hd => ?_
      simp only [operate, hcode]
      have hrhs := comes_constant hσ rhs hr (hsc.take hroom) hsc.spare_take hre o
        hd.poised fun limit hlimit => by have := ho limit hlimit; omega
      refine hrhs.bind ho fun e o' _ ho' hheap he => ?_
      have hdv' : Reg σ n A o' t d := hd.value.grows (by rw [← hheap]; exact .refl _)
        (he.kept t (Nat.lt_succ_of_lt ht.1) (Nat.ne_of_lt ht.1))
      have hresult := comes_binary sc.top he.poised ho' (Spare.lt hsc ht) hlt
        (Nat.lt_succ_of_lt hroom.1) hσ (binary_of_operatorCode? hcode)
        (isPlain_constantValue lhs hdv) hdv' he.value hw
      have hkept : ∀ r < sc.top, r ≠ t → o'.stack[A.base + r]? = m.stack[A.base + r]? :=
        fun r hlt hne =>
          (he.kept r (Nat.lt_succ_of_lt hlt) (Nat.ne_of_lt hlt)).trans (hd.kept r hlt hne)
      exact hresult.mono fun _ _ hv => hv.since hkept
    | logical hcode hle hw hre hj =>
      have hlhs := comes_constant hσ lhs hl hsc ht hle m hm hfirst
      refine hlhs.bind hfuel fun d o _ ho _ hd => ?_
      simp only [operate, hcode]
      have hskip := comes_skip sc.top hd.poised
        (fun limit hlimit => by have := ho limit hlimit; omega) (Spare.lt hsc ht) op hd.value hw hj
      cases hdecides : decides op d with
      | true =>
        rw [hdecides, if_pos rfl] at hskip
        exact (hskip.mono fun _ _ hr => hr.since hd.kept).less (by omega)
      | false =>
        rw [hdecides, if_neg (by decide)] at hskip
        rw [if_neg (by decide)]
        rw [Nat.add_comm] at ho ⊢
        show Comes _ _ ((Except.ok d).bind fun _ => constantValue rhs) _
        refine hskip.bind ho fun d' o' _ ho' _ hd' => ?_
        exact (comes_constant hσ rhs hr hsc ht hre o' hd'.poised ho').mono
          fun _ _ hr => (hr.since hd'.kept).since hd.kept

/-! ## Whole runs -/

/-- A run with these steps ends with a value that stands for the datum, or with the fault. -/
def Ends (σ : Slots) (n steps : Nat) (m : Machine) : Except Fault Datum → Prop
  | .ok d => ∃ v o, Machine.run steps m = .ok (some v) o ∧ Stands σ n m.heap v d ∧ m.Undisturbed o
  | .error e => ∃ o, Machine.run steps m = .error e o ∧ m.Undisturbed o

/-- The run of a main body ends where the body returns. -/
theorem Comes.ends {result : Except Fault Datum} (h : Comes k m result (Filled σ n A C top t j m))
    (hcallers : A.callers = []) (ht : t < 256) (hw : C.At j (.abc .ret t 0 0))
    (hfuel : m.Allows (k + 1)) {steps : Nat} (hsteps : k + 1 ≤ steps) : Ends σ n steps m result := by
  obtain ⟨l, hl, o, ho, hcount, hr⟩ := h
  cases result with
  | error e =>
    have hended : ∀ o', Machine.run l m ≠ .ok none o' := fun o' h' => by
      rw [hr] at h'
      cases h'
    exact ⟨o, (Machine.run_of_ended (by omega) hended).trans hr, ho⟩
  | ok d =>
    obtain ⟨hrun, hpoised, ⟨v, hv, hvd⟩, -⟩ := hr
    have hallows : o.Allows 1 := fun limit hlimit => by
      have := hfuel limit (ho.fuel.symm.trans hlimit)
      omega
    obtain ⟨g, -, hs⟩ := hpoised.step (k := 0) hallows hw (Word.opcode?_abc _ _ _ _)
    have hpast := undisturbed_past o (A.frame j) A.callers
    have hread : Machine.readReg A.base t (o.past (A.frame j) A.callers) = .ok v _ :=
      Machine.readReg_eq hv
    have hleave : Machine.leaveFrame v (o.past (A.frame j) A.callers) =
        .ok (some v) { o.past (A.frame j) A.callers with frames := [] } := by
      rw [Machine.leaveFrame, hcallers]
      rfl
    have hstep : Machine.step o =
        .ok (some v) { o.past (A.frame j) A.callers with frames := [] } := by
      rw [hs, ← hleave]
      simp only [Machine.perform, Word.a_abc _ ht]
      exact Machine.bind_of_ok hread
    have hend : Machine.run 1 o = .ok (some v) { o.past (A.frame j) A.callers with frames := [] } := by
      unfold Machine.run
      rw [hstep]
    have hall : Machine.run (l + 1) m =
        .ok (some v) { o.past (A.frame j) A.callers with frames := [] } :=
      (Machine.run_add hrun).trans hend
    have hended : ∀ o', Machine.run (l + 1) m ≠ .ok none o' := fun o' h' => by
      rw [hall] at h'
      cases h'
    exact ⟨v, _, (Machine.run_of_ended (by omega) hended).trans hall, ho.heap ▸ hvd,
      ho.trans ⟨rfl, rfl, rfl, rfl, rfl, rfl⟩⟩

/-- The main body of a fragment that is a constant expression. -/
theorem ends_constant (hσ : σ.Distinct) {made : Nat → Closure → Prop} {names after : Names} {e : Expr}
    (he : IsConstant e) (hmain : MainAt C made names after [.expr e]) (hcallers : A.callers = [])
    (h : Poised A C 0 m) (hfuel : m.Allows (constantSize e + 2)) {steps : Nat}
    (hsteps : constantSize e + 2 ≤ steps) : Ends σ n steps m (constantValue e) := by
  obtain ⟨j, htop, hret, -⟩ := hmain.body
  have hsc := topScope_inOrder hmain.room
  have hnil : Comes 1 m (.ok .nil) (Filled σ n A C 1 resultReg 1 m) := by
    refine comes_result h (fun limit hlimit => ?_) hmain.room.2 hmain.start
      (Word.opcode?_abx _ _ _) fun g _ => ⟨.ok .nil, .ok .nil, fun o _ _ => ?_⟩
    · have := hfuel limit hlimit
      omega
    · simp only [Machine.perform, Word.a_abx _ (show resultReg < 256 by decide)]
      rfl
  cases htop with
  | plain hplain => exact hplain.elim
  | expr hexpr hrest =>
    cases hrest
    have hcode : Comes (1 + constantSize e) m ((Except.ok Datum.nil).bind fun _ => constantValue e)
        (Filled σ n A C 1 resultReg j m) := by
      refine hnil.bind (fun limit hlimit => ?_) fun d o _ ho _ hd => ?_
      · have := hfuel limit hlimit
        omega
      · exact (comes_constant hσ e he hsc topScope_spare hexpr o hd.poised ho).mono
          fun _ _ hr => hr.since hd.kept
    exact hcode.ends hcallers (by decide) hret
      (fun limit hlimit => by have := hfuel limit hlimit; omega) (by omega)

/-- How a unit that changes nothing ends: with a value that shows the datum, or with the fault. -/
def Settled (unit : LinkedUnit) (image : Image) (sink : Sink) (fuel : Option Nat) (patience : Nat) :
    Except Fault Datum → Prop
  | .ok d => ∃ v, Shows image.heap v d ∧
    unit.run image sink fuel patience = (.finished ⟨v, []⟩, image, sink)
  | .error e => unit.run image sink fuel patience = (.faulted e, image, sink)

theorem le_stepsFor {count : Nat} {fuel : Option Nat} {patience : Nat}
    (h : count ≤ fuel.getD patience) : count ≤ Machine.stepsFor fuel patience := by
  cases fuel with
  | none => exact h
  | some limit =>
    have : count ≤ limit := h
    show count ≤ 2 * limit + 3
    omega

/-- Without strings the constants of a linked body are integers that need no handles. -/
theorem has_linkedMain {main : Prototype} (h : SoundPrototype 0 0 main) (strings functions : Array UInt32)
    (heap : Heap) : Has heap (linkedFunction strings functions main) (coding #[] false main) where
  code := rfl
  slots := rfl
  constants := by
    rintro i d ⟨k, hk, hd⟩
    cases hd with
    | int x =>
      refine ⟨.int x.toInt, ?_, .int ?_⟩
      · rw [linkedFunction, Array.getElem?_map, hk]
        rfl
      · simpa [constantOk] using h.constants _ (Array.mem_of_getElem? hk)
    | text hs => simp at hs

/-- A linked body without strings is entered in front of its first instruction. -/
theorem poised_entered {main : Prototype} (h : SoundPrototype 0 0 main) {image : Image}
    {handle : UInt32} {strings functions : Array UInt32} (sink : Sink) (fuel : Option Nat)
    (hg : image.heap.function? handle = some (linkedFunction strings functions main)) :
    let m := entered (.new image.heap image.globals image.primitives sink fuel) handle
      main.slots.toNat
    Machine.enter handle (.new image.heap image.globals image.primitives sink fuel) = .ok () m ∧
      Poised ⟨handle, 0, 0, [], #[]⟩ (coding #[] false main) 0 m := by
  have hslots : main.slots.toNat ≤ stackLimit := Nat.le_trans h.slots_le (by decide)
  have henter := enter_eq (m := .new image.heap image.globals image.primitives sink fuel) hg hslots
  refine ⟨henter, rfl, ⟨_, hg, has_linkedMain h strings functions _⟩, ?_⟩
  simp [entered, coding]

/-- What a unit hands back of a run that has changed nothing. -/
theorem settled_of_ends {unit : LinkedUnit} {image : Image} {sink : Sink} {fuel : Option Nat}
    {patience slots : Nat} {result : Except Fault Datum}
    (henter : Machine.enter unit.main (.new image.heap image.globals image.primitives sink fuel) =
      .ok () (entered (.new image.heap image.globals image.primitives sink fuel) unit.main slots))
    (h : Ends σ n (Machine.stepsFor fuel patience)
      (entered (.new image.heap image.globals image.primitives sink fuel) unit.main slots) result) :
    Settled unit image sink fuel patience result := by
  have hrun : unit.run image sink fuel patience = _ := run_of_enter henter patience
  have hback : ∀ o, (entered (.new image.heap image.globals image.primitives sink fuel) unit.main
      slots).Undisturbed o → ({ image with heap := o.heap } : Image) = image ∧
        o.pending.toList = [] ∧ o.sink = sink := by
    intro o ho
    refine ⟨by rw [ho.heap]; rfl, ?_, ho.sink⟩
    rw [ho.pending]
    exact List.eq_nil_of_length_eq_zero rfl
  cases result with
  | ok d =>
    obtain ⟨v, o, ho, hv, hsame⟩ := h
    obtain ⟨himage, hpending, hsink⟩ := hback o hsame
    refine ⟨v, hv.shows, ?_⟩
    rw [hrun, ho]
    simp only [handedBack, himage, hpending, hsink]
  | error e =>
    obtain ⟨o, ho, hsame⟩ := h
    obtain ⟨himage, -, hsink⟩ := hback o hsame
    show unit.run image sink fuel patience = _
    rw [hrun, ho]
    simp only [handedBack, himage, hsink]

/-- A constant expression is a fragment that compiles, is read back and linked, and whose run comes
to its value or its fault within as many steps as the unit has instructions. -/
theorem settled_constant {names : Names} {image : Image} (hnames : names.InOrder)
    (hprimitives : image.primitives = .standard)
    (hroom : image.heap.functions.size < handleCount) {e : Expr} (he : IsConstant e)
    (hsize : constantSize e + 2 ≤ maxWide) (hheight : constantHeight e ≤ 254) (sink : Sink)
    {fuel : Option Nat} {patience : Nat} (hsteps : constantSize e + 2 ≤ fuel.getD patience) :
    ∃ c unit image', compileFragment names [.expr e] = .ok c ∧ c.definitions = [] ∧
      c.yieldsValue = true ∧ Program.decode c.bytes = .ok c.program ∧
      bind image c.program c.sizeHint = .ok (unit, image') ∧
      Settled unit image' sink fuel patience (constantValue e) := by
  obtain ⟨main, hcompile, hcode, hcaps⟩ := compileFragment_constant names he hsize hheight
  obtain ⟨fs, hlaid⟩ := laid_of_compileFragment hcompile
  have hverify : verify ⟨#[], #[], main⟩ image.primitives.count = .ok () := by
    refine verify_eq_ok_iff.2 (inOrder_of_compileFragment hcompile (Nat.zero_le _)
      (Nat.zero_le _) fun ident index hindex => ?_)
    rw [hprimitives]
    exact hnames.primitives ident index hindex
  let c : Compiled := ⟨⟨#[], #[], main⟩, [], true⟩
  obtain ⟨unit, image', hplace⟩ : ∃ unit image',
      place image c.program c.sizeHint = (unit, image') := ⟨_, _, rfl⟩
  have hbind : bind image c.program c.sizeHint = .ok (unit, image') :=
    bind_eq_ok_iff.2 ⟨hverify, hplace⟩
  have hfunctions : image'.heap.functions.size ≤ handleCount := by
    have hsize := place_functions_size image c.program c.sizeHint
    rw [hplace, length_bodies] at hsize
    exact Nat.le_trans (Nat.le_of_eq hsize) hroom
  refine ⟨c, unit, image', hcompile, rfl, rfl, decode_eq_ok_iff.2 ⟨rfl, hcaps⟩, hbind, ?_⟩
  have hplaced := placed_of_bind hbind hfunctions
  have hfunction := hplaced.function? hfunctions (getElem?_bodies_main _)
  rw [← (bind_heap hbind hfunctions).1] at hfunction
  have hmain : MainAt (coding #[] false main) (Made main fs) names (names.commit []) [.expr e] :=
    hlaid.code (Nat.zero_le _) (Nat.zero_le _)
  have hstart := poised_entered hlaid.main sink fuel hfunction
  have hallows : (entered (.new image'.heap image'.globals image'.primitives sink fuel) unit.main
      main.slots.toNat).Allows (constantSize e + 2) := by
    rintro limit rfl
    have : constantSize e + 2 ≤ limit := hsteps
    show 0 + (constantSize e + 2) ≤ limit
    omega
  have hends := ends_constant (σ := fun _ => none) (n := 0) (fun _ _ _ h => nomatch h) he hmain rfl
    hstart.2 hallows (le_stepsFor hsteps)
  exact settled_of_ends hstart.1 hends

end Simulation
end ScriptMachine
