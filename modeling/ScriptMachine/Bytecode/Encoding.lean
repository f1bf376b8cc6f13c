import ScriptMachine.Bytecode.Program

/-!
# The file format: writing

A file is a magic word, the table of strings, the table of functions and the main body. Every table
is preceded by its length, every number is little-endian, and no field is optional, so a program has
exactly one encoding.
-/

namespace ScriptMachine.Bytecode

/-- The contents of a file. -/
abbrev Bytes := List UInt8

/-- The first four bytes of every file: three letters and the version. -/
def magic : Bytes :=
  [0x51, 0x42, 0x43, 0x01]

/-- The lowest `width` bytes of `n`, lowest first. -/
def littleEndian : (width : Nat) → (n : Nat) → Bytes
  | 0, _ => []
  | w + 1, n => UInt8.ofNat n :: littleEndian w (n / 256)

/-- A length or an index. -/
def encodeU32 (n : Nat) : Bytes :=
  littleEndian 4 n

/-- The bytes of a text. -/
def utf8 (s : String) : Bytes :=
  s.toUTF8.data.toList

/-- A text preceded by its length in bytes. -/
def encodeText (s : String) : Bytes :=
  encodeU32 s.utf8ByteSize ++ utf8 s

/-- A list preceded by its length. -/
def encodeTable {α : Type} (encode : α → Bytes) (xs : List α) : Bytes :=
  encodeU32 xs.length ++ xs.flatMap encode

/-- A constant: a tag, and a payload where there is one. -/
def Constant.encode : Constant → Bytes
  | .int n => 0 :: littleEndian 8 n.toUInt64.toNat
  | .str i => 1 :: encodeU32 i.toNat
  | .bool true => [2]
  | .bool false => [3]
  | .fn i => 4 :: encodeU32 i.toNat
  | .nil => [255]

/-- An instruction word. -/
def Word.encode (w : Word) : Bytes :=
  encodeU32 w.toNat

/-- A function: name, arity, registers, constants and code. -/
def Prototype.encode (p : Prototype) : Bytes :=
  encodeText p.name ++ (p.arity :: littleEndian 2 p.slots.toNat) ++
    encodeTable Constant.encode p.constants.toList ++ encodeTable Word.encode p.code.toList

/-- The file that holds a program. -/
def Program.encode (p : Program) : Bytes :=
  magic ++ encodeTable encodeText p.strings.toList ++
    encodeTable Prototype.encode p.prototypes.toList ++ p.main.encode

/-- A number takes the width that it is written with. -/
@[simp] theorem length_littleEndian (w n : Nat) : (littleEndian w n).length = w := by
  induction w generalizing n with
  | zero => rfl
  | succ w ih => simp [littleEndian, ih]

end ScriptMachine.Bytecode
