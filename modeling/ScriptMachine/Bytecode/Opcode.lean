import ScriptMachine.Text.Hex

/-!
# Instructions

An instruction is one word of 32 bits with the opcode in the top byte. Below it stand either three
operands of eight bits, `a`, `b` and `c`, or `a` and one operand of sixteen bits, `bx`. The numbers
of the opcodes are part of the file format.
-/

namespace ScriptMachine.Bytecode

/-- Which operands of an instruction name registers; `ABx` and `Bx` also read the wide operand. -/
inductive Shape
  | A
  | AB
  | ABC
  | ABx
  | Bx
deriving DecidableEq, Repr

/-- The instruction set, in the order of its numbers. -/
inductive Opcode
  | loadConst
  | loadTrue
  | loadFalse
  | loadNil
  | move
  | add
  | sub
  | mul
  | div
  | mod
  | neg
  | eq
  | notEq
  | lt
  | le
  | gt
  | ge
  | logNot
  | jump
  | jumpIfFalse
  | jumpIfTrue
  | getGlobal
  | setGlobal
  | defGlobal
  | getPrim
  | call
  | ret
deriving DecidableEq, Repr

namespace Opcode

/-- The whole instruction set. -/
def all : List Opcode :=
  [.loadConst, .loadTrue, .loadFalse, .loadNil, .move, .add, .sub, .mul, .div, .mod, .neg, .eq,
    .notEq, .lt, .le, .gt, .ge, .logNot, .jump, .jumpIfFalse, .jumpIfTrue, .getGlobal, .setGlobal,
    .defGlobal, .getPrim, .call, .ret]

/-- The number of an opcode. -/
def byte : Opcode → Nat
  | .loadConst => 0
  | .loadTrue => 1
  | .loadFalse => 2
  | .loadNil => 3
  | .move => 4
  | .add => 5
  | .sub => 6
  | .mul => 7
  | .div => 8
  | .mod => 9
  | .neg => 10
  | .eq => 11
  | .notEq => 12
  | .lt => 13
  | .le => 14
  | .gt => 15
  | .ge => 16
  | .logNot => 17
  | .jump => 18
  | .jumpIfFalse => 19
  | .jumpIfTrue => 20
  | .getGlobal => 21
  | .setGlobal => 22
  | .defGlobal => 23
  | .getPrim => 24
  | .call => 25
  | .ret => 26

/-- The opcode with this number. -/
def ofByte? : Nat → Option Opcode
  | 0 => some .loadConst
  | 1 => some .loadTrue
  | 2 => some .loadFalse
  | 3 => some .loadNil
  | 4 => some .move
  | 5 => some .add
  | 6 => some .sub
  | 7 => some .mul
  | 8 => some .div
  | 9 => some .mod
  | 10 => some .neg
  | 11 => some .eq
  | 12 => some .notEq
  | 13 => some .lt
  | 14 => some .le
  | 15 => some .gt
  | 16 => some .ge
  | 17 => some .logNot
  | 18 => some .jump
  | 19 => some .jumpIfFalse
  | 20 => some .jumpIfTrue
  | 21 => some .getGlobal
  | 22 => some .setGlobal
  | 23 => some .defGlobal
  | 24 => some .getPrim
  | 25 => some .call
  | 26 => some .ret
  | _ => none

/-- The name of an opcode in listings and messages. -/
def mnemonic : Opcode → String
  | .loadConst => "LOAD_CONST"
  | .loadTrue => "LOAD_TRUE"
  | .loadFalse => "LOAD_FALSE"
  | .loadNil => "LOAD_NIL"
  | .move => "MOVE"
  | .add => "ADD"
  | .sub => "SUB"
  | .mul => "MUL"
  | .div => "DIV"
  | .mod => "MOD"
  | .neg => "NEG"
  | .eq => "EQ"
  | .notEq => "NOT_EQ"
  | .lt => "LT"
  | .le => "LE"
  | .gt => "GT"
  | .ge => "GE"
  | .logNot => "LOG_NOT"
  | .jump => "JUMP"
  | .jumpIfFalse => "JUMP_IF_FALSE"
  | .jumpIfTrue => "JUMP_IF_TRUE"
  | .getGlobal => "GET_GLOBAL"
  | .setGlobal => "SET_GLOBAL"
  | .defGlobal => "DEF_GLOBAL"
  | .getPrim => "GET_PRIM"
  | .call => "CALL"
  | .ret => "RETURN"

/-- The operands that an opcode takes. -/
def shape : Opcode → Shape
  | .loadTrue | .loadFalse | .loadNil | .ret => .A
  | .move | .neg | .logNot | .call => .AB
  | .add | .sub | .mul | .div | .mod | .eq | .notEq | .lt | .le | .gt | .ge => .ABC
  | .loadConst | .jumpIfFalse | .jumpIfTrue | .getGlobal | .setGlobal | .defGlobal
  | .getPrim => .ABx
  | .jump => .Bx

/-- Whether an opcode reads the wide operand. -/
def isWide (op : Opcode) : Bool :=
  op.shape == .ABx || op.shape == .Bx

/-- The byte of an opcode denotes it. -/
@[simp] theorem ofByte?_byte (op : Opcode) : ofByte? op.byte = some op := by
  cases op <;> rfl

/-- An opcode is denoted by its own byte only. -/
theorem byte_of_ofByte? {n : Nat} {op : Opcode} (h : ofByte? n = some op) : op.byte = n := by
  unfold ofByte? at h
  split at h <;> simp only [Option.some.injEq, reduceCtorEq] at h <;> (subst h; rfl)

end Opcode

/-! ## Instruction words -/

/-- An instruction word. -/
abbrev Word := UInt32

namespace Word

/-- The word with these four bytes, highest first; each operand is cut to eight bits. -/
def ofBytes (op a b c : Nat) : Word :=
  UInt32.ofNat (op % 256 * 0x1000000 + a % 256 * 0x10000 + b % 256 * 0x100 + c % 256)

/-- An instruction with three operands. -/
def abc (op : Opcode) (a b c : Nat) : Word :=
  ofBytes op.byte a b c

/-- An instruction with a wide operand, cut to sixteen bits. -/
def abx (op : Opcode) (a bx : Nat) : Word :=
  ofBytes op.byte a (bx / 256) bx

/-- The top byte. -/
def op (w : Word) : Nat :=
  w.toNat / 0x1000000

/-- The first operand. -/
def a (w : Word) : Nat :=
  w.toNat / 0x10000 % 256

/-- The second operand. -/
def b (w : Word) : Nat :=
  w.toNat / 0x100 % 256

/-- The third operand. -/
def c (w : Word) : Nat :=
  w.toNat % 256

/-- The wide operand. -/
def bx (w : Word) : Nat :=
  w.toNat % 0x10000

/-- The opcode, if the top byte is the number of one. -/
def opcode? (w : Word) : Option Opcode :=
  Opcode.ofByte? w.op

/-- A word in a listing: its digits and its mnemonic, or a question mark where it has none. -/
def listed (w : Word) : String :=
  Text.hexPadded 8 w.toNat ++ " " ++ (w.opcode?.map Opcode.mnemonic).getD "?"

end Word
end ScriptMachine.Bytecode
