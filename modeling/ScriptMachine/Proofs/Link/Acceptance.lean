import ScriptMachine.Proofs.Link.Placement

/-!
# What verification promises

A program is accepted exactly when each of its bodies is in order: its arguments have registers, its
constants mean something, and each of its words is an instruction whose operands are in range. A
function in the heap is in order in the same sense, with live values for constants.
-/

namespace ScriptMachine

open Bytecode Link

/-! ## Instructions in range -/

/-- The operands of a word, read as the instruction `op`, are in range for a function with this many
registers, constants and instructions, among this many primitives. -/
structure Bytecode.Word.InRange (slots constants instructions primitives : Nat) (op : Opcode)
    (w : Word) : Prop where
  registers : ∀ r ∈ registersOf op w, r < slots
  constant : op = .loadConst → w.bx < constants
  window : op = .call → w.b + w.c < slots
  target : op = .jump ∨ op = .jumpIfFalse ∨ op = .jumpIfTrue → w.bx ≤ instructions
  primitive : op = .getPrim → w.bx < primitives

/-- A body in order: its arguments have registers, its constants mean something in a program with
tables of these sizes, and its words are instructions with operands in range. -/
structure Bytecode.Prototype.InOrder (strings prototypes primitives : Nat) (p : Prototype) :
    Prop where
  arity_le : p.arity.toNat ≤ p.slots.toNat
  constants : ∀ k ∈ p.constants, constantOk strings prototypes k = true
  code : ∀ (ip : Nat) (w : Word), p.code[ip]? = some w → ∃ op, w.opcode? = some op ∧
    w.InRange p.slots.toNat p.constants.size p.code.size primitives op

/-- A function in order among the objects of a heap. -/
structure Function.InOrder (heap : Heap) (primitives : Nat) (f : Function) : Prop where
  arity_le : f.arity ≤ f.slots
  constants : ∀ v ∈ f.constants, v.Live heap primitives
  code : ∀ (ip : Nat) (w : Word), f.code[ip]? = some w → ∃ op, w.opcode? = some op ∧
    w.InRange f.slots f.constants.size f.code.size primitives op

theorem Function.InOrder.grows {heap heap' : Heap} {primitives : Nat} {f : Function}
    (h : f.InOrder heap primitives) (hg : heap.Grows heap') : f.InOrder heap' primitives :=
  ⟨h.arity_le, fun v hv => (h.constants v hv).grows hg, h.code⟩

/-- All functions of a heap are in order. -/
def Heap.InOrder (heap : Heap) (primitives : Nat) : Prop :=
  ∀ (i : Nat) (f : Function), heap.functions[i]? = some f → f.InOrder heap primitives

namespace Link

/-! ## The checks -/

theorem checkOperand_eq_none_iff {p : Prototype} {primitives ip : Nat} {op : Opcode} {w : Word}
    (hregs : ∀ r ∈ registersOf op w, r < p.slots.toNat) :
    checkOperand p primitives ip op w = none ↔
      w.InRange p.slots.toNat p.constants.size p.code.size primitives op := by
  constructor
  · intro h
    refine ⟨hregs, ?_, ?_, ?_, ?_⟩
    · rintro rfl
      simpa [checkOperand] using h
    · rintro rfl
      simpa [checkOperand] using h
    · rintro (rfl | rfl | rfl) <;> simpa [checkOperand] using h
    · rintro rfl
      simpa [checkOperand] using h
  · intro h
    cases op with
    | loadConst => simpa [checkOperand] using h.constant rfl
    | call => simpa [checkOperand] using h.window rfl
    | jump => simpa [checkOperand] using h.target (.inl rfl)
    | jumpIfFalse => simpa [checkOperand] using h.target (.inr (.inl rfl))
    | jumpIfTrue => simpa [checkOperand] using h.target (.inr (.inr rfl))
    | getPrim => simpa [checkOperand] using h.primitive rfl
    | _ => rfl

theorem checkWord_eq_none_iff {p : Prototype} {primitives ip : Nat} {w : Word} :
    checkWord p primitives ip w = none ↔ ∃ op, w.opcode? = some op ∧
      w.InRange p.slots.toNat p.constants.size p.code.size primitives op := by
  unfold checkWord
  cases hop : w.opcode? with
  | none => simp
  | some op =>
    cases hfind : (registersOf op w).find? fun r => p.slots.toNat ≤ r with
    | some r =>
      simp only [hfind, reduceCtorEq, Option.some.injEq, exists_eq_left', false_iff]
      intro h
      have hr := h.registers r (List.mem_of_find?_eq_some hfind)
      have := List.find?_some hfind
      simp only [decide_eq_true_eq] at this
      omega
    | none =>
      have hregs : ∀ r ∈ registersOf op w, r < p.slots.toNat := by
        intro r hr
        simpa using List.find?_eq_none.1 hfind r hr
      simpa [hfind] using checkOperand_eq_none_iff hregs

theorem checkBody_eq_none_iff {strings prototypes primitives : Nat} {p : Prototype} :
    checkBody strings prototypes primitives p = none ↔
      p.InOrder strings prototypes primitives := by
  unfold checkBody
  constructor
  · intro h
    split at h
    · simp at h
    · next harity =>
      split at h
      · simp at h
      · next hconst =>
        refine ⟨by omega, ?_, ?_⟩
        · intro k hk
          obtain ⟨i, hi, rfl⟩ := Array.mem_iff_getElem.1 hk
          have := List.find?_eq_none.1 hconst (p.constants[i], i) (by
            rw [List.mem_zipIdx_iff_getElem?]
            simp [hi])
          simpa using this
        · intro ip w hw
          have hcheck := List.findSome?_eq_none_iff.1 h (w, ip)
          refine checkWord_eq_none_iff.1 (hcheck ?_)
          rw [List.mem_zipIdx_iff_getElem?]
          simpa using hw
  · rintro ⟨harity, hconst, hcode⟩
    rw [if_neg (by omega)]
    split
    · next k i hfind =>
      have hk := List.mem_of_find?_eq_some hfind
      rw [List.mem_zipIdx_iff_getElem?] at hk
      have hmem : k ∈ p.constants := Array.mem_of_getElem? (by simpa using hk)
      have := List.find?_some hfind
      simp [hconst k hmem] at this
    · rw [List.findSome?_eq_none_iff]
      rintro ⟨w, ip⟩ hw
      rw [List.mem_zipIdx_iff_getElem?] at hw
      exact checkWord_eq_none_iff.2 (hcode ip w (by simpa using hw))

/-- A program is accepted exactly when all its bodies are in order. -/
theorem verify_eq_ok_iff {program : Program} {primitives : Nat} :
    verify program primitives = .ok () ↔ ∀ p ∈ program.bodies,
      p.InOrder program.strings.size program.prototypes.size primitives := by
  unfold verify
  simp only [← checkBody_eq_none_iff]
  constructor
  · intro h p hp
    split at h
    · simp at h
    · next hnone => simpa using List.findSome?_eq_none_iff.1 hnone p hp
  · intro h
    have hnone : (program.bodies.findSome? fun p =>
        (checkBody program.strings.size program.prototypes.size primitives p).map
          (Objection.toLinkError p.name primitives)) = none := by
      rw [List.findSome?_eq_none_iff]
      intro p hp
      simp [h p hp]
    rw [hnone]

theorem bind_eq_ok_iff {image image' : Image} {program : Program} {sizeHint : Nat}
    {unit : LinkedUnit} :
    bind image program sizeHint = .ok (unit, image') ↔
      verify program image.primitives.count = .ok () ∧
        place image program sizeHint = (unit, image') := by
  unfold bind
  cases verify program image.primitives.count with
  | error e => simp
  | ok u => simp

end Link
end ScriptMachine
