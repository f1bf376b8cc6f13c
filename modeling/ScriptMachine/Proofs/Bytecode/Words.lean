import ScriptMachine.Bytecode.Opcode

/-!
# Reading words back

An instruction is read back from its word as it was put in, as long as its operands fit.
-/

namespace ScriptMachine.Bytecode

/-- The number of an opcode fits the top byte. -/
theorem Opcode.byte_lt (op : Opcode) : op.byte < 27 := by
  cases op <;> decide

namespace Word

theorem toNat_ofBytes (op a b c : Nat) :
    (ofBytes op a b c).toNat =
      op % 256 * 0x1000000 + a % 256 * 0x10000 + b % 256 * 0x100 + c % 256 := by
  rw [ofBytes, UInt32.toNat_ofNat']
  omega

/-- A word writes to a global slot. -/
def WritesGlobal (w : Word) : Prop :=
  w.opcode? = some .setGlobal ∨ w.opcode? = some .defGlobal

variable (o : Opcode) {x y z : Nat}

@[simp] theorem op_ofBytes (n x y z : Nat) : op (ofBytes n x y z) = n % 256 := by
  rw [op, toNat_ofBytes]
  omega

@[simp] theorem a_ofBytes (n x y z : Nat) : a (ofBytes n x y z) = x % 256 := by
  rw [a, toNat_ofBytes]
  omega

theorem b_ofBytes (n x y z : Nat) : b (ofBytes n x y z) = y % 256 := by
  rw [b, toNat_ofBytes]
  omega

theorem c_ofBytes (n x y z : Nat) : c (ofBytes n x y z) = z % 256 := by
  rw [c, toNat_ofBytes]
  omega

theorem bx_ofBytes (n x y z : Nat) : bx (ofBytes n x y z) = y % 256 * 256 + z % 256 := by
  rw [bx, toNat_ofBytes]
  omega

/-! ## Three operands -/

@[simp] theorem opcode?_abc (x y z : Nat) : opcode? (abc o x y z) = some o := by
  have hbyte := o.byte_lt
  rw [opcode?, abc, op_ofBytes, Nat.mod_eq_of_lt (by omega), Opcode.ofByte?_byte]

theorem a_abc (hx : x < 256) : a (abc o x y z) = x := by
  rw [abc, a_ofBytes, Nat.mod_eq_of_lt hx]

theorem b_abc (hy : y < 256) : b (abc o x y z) = y := by
  rw [abc, b_ofBytes, Nat.mod_eq_of_lt hy]

theorem c_abc (hz : z < 256) : c (abc o x y z) = z := by
  rw [abc, c_ofBytes, Nat.mod_eq_of_lt hz]

/-! ## A wide operand -/

@[simp] theorem opcode?_abx (x y : Nat) : opcode? (abx o x y) = some o := by
  have hbyte := o.byte_lt
  rw [opcode?, abx, op_ofBytes, Nat.mod_eq_of_lt (by omega), Opcode.ofByte?_byte]

theorem a_abx (hx : x < 256) : a (abx o x y) = x := by
  rw [abx, a_ofBytes, Nat.mod_eq_of_lt hx]

theorem bx_abx (hy : y < 65536) : bx (abx o x y) = y := by
  rw [abx, bx_ofBytes]
  omega

/-- A jump that is aimed anew has its new target. -/
theorem aim_abx (x y target : Nat) :
    ofBytes (op (abx o x y)) (a (abx o x y)) (target / 256) target = abx o x target := by
  have hbyte := o.byte_lt
  apply UInt32.toNat_inj.1
  rw [abx, abx, op_ofBytes, a_ofBytes, toNat_ofBytes, toNat_ofBytes]
  omega

end Word
end ScriptMachine.Bytecode
