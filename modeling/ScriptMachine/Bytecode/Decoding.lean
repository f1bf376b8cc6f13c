import ScriptMachine.Bytecode.Encoding

/-!
# The file format: reading

A reader takes bytes from the front and hands back the rest. Every length is checked against its cap
before anything of that length is read.
-/

namespace ScriptMachine.Bytecode

/-! ## Errors -/

/-- What a text in a file is for. -/
inductive TextRole
  | string
  | functionName
deriving DecidableEq, Repr

/-- The tables of a file that have a cap on their length. -/
inductive TableRole
  | strings
  | prototypes
  | constants
  | code
deriving DecidableEq, Repr

/-- The three ways in which a file is refused. -/
inductive LoadErrorKind
  | io
  | format
  | security
deriving DecidableEq, Repr

/-- Why a file is refused; `refused` is for readers of formats of their own. -/
inductive LoadError
  | truncated
  | badMagic
  | trailingBytes
  | unknownTag (tag : UInt8)
  | invalidText (role : TextRole)
  | textTooLong (role : TextRole) (length : Nat)
  | tableTooLong (role : TableRole) (length : Nat)
  | refused (kind : LoadErrorKind) (reason : String)
deriving DecidableEq, Repr

/-- The most bytes in one text. -/
def maxTextLength : Nat :=
  4096

/-- The most entries in a table. -/
def TableRole.cap : TableRole → Nat
  | .strings => 1000000
  | .prototypes => 65535
  | .constants => 65536
  | .code => 1000000

/-- How a message names a text. -/
def TextRole.shown : TextRole → String
  | .string => "String"
  | .functionName => "Function name"

/-- How a message names a length. -/
def TableRole.shown : TableRole → String
  | .strings => "String count"
  | .prototypes => "Prototype count"
  | .constants => "Constant count"
  | .code => "Bytecode length"

/-- The class of a cause. -/
def LoadError.kind : LoadError → LoadErrorKind
  | .truncated => .io
  | .badMagic | .trailingBytes | .unknownTag _ | .invalidText _ => .format
  | .textTooLong _ _ | .tableTooLong _ _ => .security
  | .refused kind _ => kind

/-- The wording of a cause, without its class. -/
def LoadError.reason : LoadError → String
  | .truncated => "failed to fill whole buffer"
  | .badMagic => "Invalid binary magic or version"
  | .trailingBytes => "Trailing bytes after main prototype"
  | .unknownTag tag => s!"Unknown constant tag: {tag.toNat}"
  | .invalidText role => "Invalid UTF-8 in " ++ role.shown
  | .textTooLong role n => role.shown ++ s!" length exceeds limit of {maxTextLength}: {n}"
  | .tableTooLong role n => role.shown ++ s!" too large: {n}"
  | .refused _ reason => reason

/-- The wording of a cause after its class. -/
def LoadError.message (e : LoadError) : String :=
  let kind := match e.kind with
    | .io => "I/O error: "
    | .format => "invalid format: "
    | .security => "security limit exceeded: "
  kind ++ e.reason

/-! ## Readers -/

/-- Takes bytes from the front and hands back the rest. -/
abbrev Reader (α : Type) := Bytes → Except LoadError (α × Bytes)

/-- A number of `width` bytes, lowest first. -/
def readNumber : (width : Nat) → Reader Nat
  | 0, bytes => .ok (0, bytes)
  | _ + 1, [] => .error .truncated
  | w + 1, b :: bytes =>
    match readNumber w bytes with
    | .error e => .error e
    | .ok (n, rest) => .ok (b.toNat + 256 * n, rest)

/-- Exactly `n` bytes. -/
def readBytes (n : Nat) : Reader Bytes := fun bytes =>
  let taken := bytes.take n
  if taken.length = n then .ok (taken, bytes.drop n) else .error .truncated

/-- The text with these bytes. -/
def ofUtf8? (bytes : Bytes) : Option String :=
  String.fromUTF8? ⟨bytes.toArray⟩

/-- A text preceded by its length. -/
def readText (role : TextRole) : Reader String := fun bytes => do
  let (length, bytes) ← readNumber 4 bytes
  if length > maxTextLength then
    .error (.textTooLong role length)
  else
    let (taken, bytes) ← readBytes length bytes
    match ofUtf8? taken with
    | none => .error (.invalidText role)
    | some s => .ok (s, bytes)

/-- The number of items that `n` says, put after those in `done`, which are in reverse. -/
def readItems {α : Type} (read : Reader α) : (n : Nat) → (done : List α) → Reader (List α)
  | 0, done, bytes => .ok (done.reverse, bytes)
  | n + 1, done, bytes =>
    match read bytes with
    | .error e => .error e
    | .ok (x, bytes) => readItems read n (x :: done) bytes

/-- A list preceded by its length. -/
def readTable {α : Type} (role : TableRole) (read : Reader α) : Reader (Array α) := fun bytes => do
  let (length, bytes) ← readNumber 4 bytes
  if length > role.cap then
    .error (.tableTooLong role length)
  else
    let (items, bytes) ← readItems read length [] bytes
    .ok (items.toArray, bytes)

/-- An index of 32 bits. -/
def readIndex : Reader UInt32 := fun bytes => do
  let (n, bytes) ← readNumber 4 bytes
  .ok (UInt32.ofNat n, bytes)

/-- A constant. -/
def readConstant : Reader Constant
  | [] => .error .truncated
  | 0 :: bytes => do
    let (n, bytes) ← readNumber 8 bytes
    .ok (.int (UInt64.ofNat n).toInt64, bytes)
  | 1 :: bytes => do
    let (i, bytes) ← readIndex bytes
    .ok (.str i, bytes)
  | 2 :: bytes => .ok (.bool true, bytes)
  | 3 :: bytes => .ok (.bool false, bytes)
  | 4 :: bytes => do
    let (i, bytes) ← readIndex bytes
    .ok (.fn i, bytes)
  | 255 :: bytes => .ok (.nil, bytes)
  | tag :: _ => .error (.unknownTag tag)

/-- A function. -/
def readPrototype : Reader Prototype := fun bytes => do
  let (name, bytes) ← readText .functionName bytes
  let (arity, bytes) ← readNumber 1 bytes
  let (slots, bytes) ← readNumber 2 bytes
  let (constants, bytes) ← readTable .constants readConstant bytes
  let (code, bytes) ← readTable .code readIndex bytes
  .ok (⟨name, UInt8.ofNat arity, UInt16.ofNat slots, constants, code⟩, bytes)

/-- The magic word. -/
def readMagic : Reader Unit := fun bytes => do
  let (taken, bytes) ← readBytes magic.length bytes
  if taken = magic then .ok ((), bytes) else .error .badMagic

/-- The program that a file holds; no byte may follow it. -/
def Program.decode (bytes : Bytes) : Except LoadError Program := do
  let ((), bytes) ← readMagic bytes
  let (strings, bytes) ← readTable .strings (readText .string) bytes
  let (prototypes, bytes) ← readTable .prototypes readPrototype bytes
  let (main, bytes) ← readPrototype bytes
  if bytes.isEmpty then .ok ⟨strings, prototypes, main⟩ else .error .trailingBytes

end ScriptMachine.Bytecode
