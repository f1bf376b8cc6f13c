import ScriptMachine.Proofs.Bytecode.Words

/-!
# Registers whose values are needed

Which registers an instruction reads and writes, and where it leads. A register is live at a place in
the code when it may be read from there on before it is written. In code that keeps to its registers
only the arguments are live at the start, and of what is live after a call, the call itself writes its
target, and the callee's frame takes nothing else.
-/

namespace ScriptMachine.Bytecode

/-! ## Instructions -/

namespace Opcode

/-- The instruction reads this register. -/
def Reads : Opcode → Word → Nat → Prop
  | .move, w, r | .neg, w, r | .logNot, w, r => r = w.b
  | .add, w, r | .sub, w, r | .mul, w, r | .div, w, r | .mod, w, r | .eq, w, r | .notEq, w, r
  | .lt, w, r | .le, w, r | .gt, w, r | .ge, w, r => r = w.b ∨ r = w.c
  | .jumpIfFalse, w, r | .jumpIfTrue, w, r | .setGlobal, w, r | .defGlobal, w, r
  | .ret, w, r => r = w.a
  | .call, w, r => w.b ≤ r ∧ r ≤ w.b + w.c
  | _, _, _ => False

/-- The instruction writes this register. -/
def Writes : Opcode → Word → Nat → Prop
  | .jump, _, _ | .jumpIfFalse, _, _ | .jumpIfTrue, _, _ | .setGlobal, _, _ | .defGlobal, _, _
  | .ret, _, _ => False
  | _, w, r => r = w.a

/-- The instruction leaves this register to its activation: a callee's frame takes those after the one
that holds the callee. -/
def Spares (op : Opcode) (w : Word) (r : Nat) : Prop :=
  op = .call → r ≤ w.b

/-- After the instruction at `ip` the one at this place may be next. -/
def Leads : Opcode → Word → (ip : Nat) → Nat → Prop
  | .jump, w, _, next => next = w.bx
  | .jumpIfFalse, w, ip, next | .jumpIfTrue, w, ip, next => next = ip + 1 ∨ next = w.bx
  | .ret, _, _, _ => False
  | _, _, ip, next => next = ip + 1

instance : (op : Opcode) → (w : Word) → (r : Nat) → Decidable (op.Writes w r)
  | .jump, _, _ | .jumpIfFalse, _, _ | .jumpIfTrue, _, _ | .setGlobal, _, _ | .defGlobal, _, _
  | .ret, _, _ => inferInstanceAs (Decidable False)
  | .loadConst, w, r | .loadTrue, w, r | .loadFalse, w, r | .loadNil, w, r | .move, w, r
  | .neg, w, r | .logNot, w, r | .add, w, r | .sub, w, r | .mul, w, r | .div, w, r | .mod, w, r
  | .eq, w, r | .notEq, w, r | .lt, w, r | .le, w, r | .gt, w, r | .ge, w, r | .getGlobal, w, r
  | .getPrim, w, r | .call, w, r => inferInstanceAs (Decidable (r = w.a))

/-- An instruction writes no register but its target. -/
theorem Writes.eq {op : Opcode} {w : Word} {r : Nat} (h : op.Writes w r) : r = w.a := by
  cases op <;> first | exact h | exact h.elim

theorem spares_of_ne {op : Opcode} (h : op ≠ .call) (w : Word) (r : Nat) : op.Spares w r :=
  fun hcall => absurd hcall h

end Opcode

/-! ## Live registers -/

/-- From the instruction at `ip` on, the register may be read before it is written. -/
inductive Live (code : Array Word) : (ip : Nat) → (r : Nat) → Prop
  | read {ip r : Nat} {w : Word} {op : Opcode} (hw : code[ip]? = some w)
    (hop : w.opcode? = some op) (hreads : op.Reads w r) : Live code ip r
  | later {ip next r : Nat} {w : Word} {op : Opcode} (hw : code[ip]? = some w)
    (hop : w.opcode? = some op) (hleads : op.Leads w ip next) (hwrites : ¬ op.Writes w r)
    (h : Live code next r) : Live code ip r

/-- Code that never needs more than it has been given: at its start only arguments are live, and after
a call only registers that the callee's frame does not take, or the one that gets the result. -/
structure Definite (arity : Nat) (code : Array Word) : Prop where
  start : ∀ r, Live code 0 r → r < arity
  call : ∀ {ip : Nat} {w : Word} {r : Nat}, code[ip]? = some w → w.opcode? = some .call →
    Live code (ip + 1) r → r = w.a ∨ r ≤ w.b

/-- Here `D` says which registers have been written wherever a place in the code is reached, and are
still the activation's own. -/
structure Written (code : Array Word) (D : Nat → Nat → Prop) : Prop where
  reads : ∀ {ip : Nat} {w : Word} {op : Opcode} {r : Nat}, code[ip]? = some w →
    w.opcode? = some op → op.Reads w r → D ip r
  leads : ∀ {ip next : Nat} {w : Word} {op : Opcode} {r : Nat}, code[ip]? = some w →
    w.opcode? = some op → op.Leads w ip next → D next r → D ip r ∧ op.Spares w r ∨ op.Writes w r

variable {code : Array Word} {D : Nat → Nat → Prop} {arity : Nat}

/-- What is live has been written. -/
theorem Written.of_live (h : Written code D) {ip r : Nat} (hlive : Live code ip r) : D ip r := by
  induction hlive with
  | read hw hop hreads => exact h.reads hw hop hreads
  | later hw hop hleads hwrites _ ih =>
    rcases h.leads hw hop hleads ih with hhere | hwrote
    · exact hhere.1
    · exact absurd hwrote hwrites

/-- If only arguments count as written at the start, the code never needs more than it has. -/
theorem Written.definite (h : Written code D) (hstart : ∀ r, D 0 r → r < arity) :
    Definite arity code where
  start r hlive := hstart r (h.of_live hlive)
  call hw hop hlive := by
    rcases h.leads hw hop rfl (h.of_live hlive) with ⟨-, hspares⟩ | hwrites
    · exact .inr (hspares rfl)
    · exact .inl hwrites

/-- Where the code never needs more than it has, the live registers have been written. -/
theorem Definite.written (h : Definite arity code) : Written code (Live code) where
  reads := .read
  leads {ip next w op r} hw hop hleads hlive := by
    by_cases hwrites : op.Writes w r
    · exact .inr hwrites
    · refine .inl ⟨.later hw hop hleads hwrites hlive, ?_⟩
      rintro rfl
      obtain rfl : next = ip + 1 := hleads
      exact (h.call hw hop hlive).resolve_left hwrites

theorem Definite.mono {n m : Nat} (h : Definite n code) (hle : n ≤ m) : Definite m code :=
  ⟨fun r hlive => Nat.lt_of_lt_of_le (h.start r hlive) hle, h.call⟩

end ScriptMachine.Bytecode
