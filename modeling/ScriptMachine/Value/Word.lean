/-!
# Values

A value is one word of 64 bits: a tag in the upper four and a payload in the other sixty. An integer
is a payload in two's complement; a string, a function or a primitive is a handle of 32 bits.
-/

namespace ScriptMachine

/-- A tagged word. -/
structure Value where
  word : UInt64
deriving DecidableEq, Inhabited

/-- What the tag of a word says it is; eight tags have no meaning. -/
inductive Kind
  | int
  | nil
  | no
  | yes
  | empty
  | string
  | function
  | primitive
  | unknown
deriving DecidableEq, Repr

namespace Value

/-- The number of payloads. -/
def payloads : Nat :=
  0x1000000000000000

/-- The least integer that fits a payload. -/
def minInt : Int :=
  -0x800000000000000

/-- The greatest integer that fits a payload. -/
def maxInt : Int :=
  0x7ffffffffffffff

/-- The word with this tag and payload. -/
def tagged (tag payload : Nat) : Value :=
  ⟨UInt64.ofNat (tag * payloads + payload)⟩

/-- The integer congruent to `n` that fits a payload. -/
def int (n : Int) : Value :=
  tagged 0 (n % (payloads : Int)).toNat

/-- The value of a missing result. -/
def nil : Value :=
  tagged 1 0

/-- A truth value. -/
def bool (b : Bool) : Value :=
  tagged (if b then 3 else 2) 0

/-- What a global slot holds before it is bound. -/
def empty : Value :=
  tagged 4 0

/-- The string with this handle. -/
def string (handle : UInt32) : Value :=
  tagged 5 handle.toNat

/-- The function with this handle. -/
def function (handle : UInt32) : Value :=
  tagged 6 handle.toNat

/-- The primitive with this index. -/
def primitive (index : UInt32) : Value :=
  tagged 7 index.toNat

/-- Whether an integer fits a payload. -/
def fits (n : Int) : Bool :=
  minInt ≤ n && n ≤ maxInt

/-- The integer `n`, if it fits a payload. -/
def int? (n : Int) : Option Value :=
  if fits n then some (int n) else none

/-- The upper four bits. -/
def tag (v : Value) : Nat :=
  v.word.toNat / payloads

/-- The other sixty bits. -/
def payload (v : Value) : Nat :=
  v.word.toNat % payloads

/-- What the tag says. -/
def kind (v : Value) : Kind :=
  match v.tag with
  | 0 => .int
  | 1 => .nil
  | 2 => .no
  | 3 => .yes
  | 4 => .empty
  | 5 => .string
  | 6 => .function
  | 7 => .primitive
  | _ => .unknown

/-- The lower 32 bits. -/
def handle (v : Value) : UInt32 :=
  v.word.toUInt32

/-- The integer that a word with the integer tag holds. -/
def asInt? (v : Value) : Option Int :=
  if v.kind = .int then
    some (if v.payload < 0x800000000000000 then (v.payload : Int) else (v.payload : Int) - payloads)
  else none

/-- The truth value that a word holds. -/
def asBool? (v : Value) : Option Bool :=
  match v.kind with
  | .yes => some true
  | .no => some false
  | _ => none

/-- The handle of a string, function or primitive. -/
def asHandle? (v : Value) : Option UInt32 :=
  match v.kind with
  | .string | .function | .primitive => some v.handle
  | _ => none

/-- The handle of a string. -/
def asString? (v : Value) : Option UInt32 :=
  if v.kind = .string then some v.handle else none

/-- The handle of a function. -/
def asFunction? (v : Value) : Option UInt32 :=
  if v.kind = .function then some v.handle else none

/-- Only `nil` and `false` count as false. -/
def isFalsey (v : Value) : Bool :=
  v.kind == .nil || v.kind == .no

end Value

/-- The name of a kind, as programs and reports see it. -/
def Kind.typeName : Kind → String
  | .int => "int"
  | .nil => "nil"
  | .no | .yes => "bool"
  | .empty => "empty"
  | .string => "string"
  | .function => "fn"
  | .primitive => "primitive"
  | .unknown => "unknown"

/-- The name of a value's kind. -/
def Value.typeName (v : Value) : String :=
  v.kind.typeName

/-- A decimal integer, with a minus sign below zero. -/
def decimal (n : Int) : String :=
  if n < 0 then "-" ++ Nat.repr n.natAbs else Nat.repr n.natAbs

/-- The word spelled out: its kind, and its payload where that means something. -/
def Value.spelled (v : Value) : String :=
  match v.kind with
  | .int => "Int(" ++ decimal (v.asInt?.getD 0) ++ ")"
  | .yes => "Bool(true)"
  | .no => "Bool(false)"
  | .nil => "Nil"
  | .empty => "Empty"
  | .string => "String(" ++ Nat.repr v.handle.toNat ++ ")"
  | .function => "Function(" ++ Nat.repr v.handle.toNat ++ ")"
  | .primitive => "NativeFn(" ++ Nat.repr v.handle.toNat ++ ")"
  | .unknown => "Unknown(0x" ++ String.ofList (Nat.toDigits 16 v.word.toNat) ++ ")"

end ScriptMachine
