import ScriptMachine.Bytecode.Decoding

/-!
# Files

The files that a session can see, as a tree below its working directory. A path is resolved to the
components of one place in the tree, so two paths to one file resolve alike.
-/

namespace ScriptMachine.Session

open Bytecode

/-- Why a path or a file cannot be used. -/
inductive FileError
  | notFound
  | notADirectory
  | isADirectory
  | nameTooLong
  | nulInName
  | notText
deriving DecidableEq, Repr

/-- The wording of a cause, with its number where the system has one. -/
def FileError.message : FileError → String
  | .notFound => "No such file or directory (os error 2)"
  | .notADirectory => "Not a directory (os error 20)"
  | .isADirectory => "Is a directory (os error 21)"
  | .nameTooLong => "File name too long (os error 36)"
  | .nulInName => "file name contained an unexpected NUL byte"
  | .notText => "stream did not contain valid UTF-8"

/-- A place: the way down to it from the root. -/
abbrev Place := List String

/-- What stands at a place. -/
inductive Node
  | file (content : Bytes)
  | directory
deriving DecidableEq

/-- A tree: the directory that paths start from, and the places where something stands. The way to
each of them is made of directories. -/
structure FileTree where
  workingDirectory : Place
  entries : List (Place × Node)
deriving DecidableEq

/-- What a session needs of files: where a path leads, and the text of the file there. -/
structure Files where
  resolve : String → Except FileError Place
  read : Place → Except FileError String

namespace FileTree

/-- A tree that holds nothing but its working directory. -/
def empty (workingDirectory : Place) : FileTree :=
  ⟨workingDirectory, []⟩

/-- What stands at a place. -/
def node? (t : FileTree) (p : Place) : Option Node :=
  match t.entries.lookup p with
  | some n => some n
  | none =>
    if (t.workingDirectory :: t.entries.map Prod.fst).any p.isPrefixOf || p.isEmpty then
      some .directory
    else none

/-- Puts a node at a place. -/
def put (t : FileTree) (p : Place) (n : Node) : FileTree :=
  { t with entries := (p, n) :: t.entries.filter fun (q, _) => q != p }

/-- Follows one component of a path from a directory. -/
def follow (t : FileTree) (p : Place) (name : String) : Except FileError Place :=
  match t.node? p with
  | none => .error .notFound
  | some (.file _) => .error .notADirectory
  | some .directory =>
    if name = "" || name = "." then .ok p
    else if name = ".." then .ok p.dropLast
    else if name.utf8ByteSize > 255 then .error .nameTooLong
    else .ok (p ++ [name])

/-- Follows components from a place. -/
def walk (t : FileTree) (p : Place) : List String → Except FileError Place
  | [] => .ok p
  | name :: rest =>
    match t.follow p name with
    | .error e => .error e
    | .ok p => t.walk p rest

/-- Where the way along a path starts: at the root, if the path begins with a slash. -/
def start (t : FileTree) (path : String) : Except FileError Place :=
  if path.isEmpty then .error .notFound
  else if path.toList.any (· == '\x00') then .error .nulInName
  else .ok (if path.startsWith "/" then [] else t.workingDirectory)

/-- The content of the file at a place. -/
def readBytesAt (t : FileTree) (p : Place) : Except FileError Bytes :=
  match t.node? p with
  | none => .error .notFound
  | some .directory => .error .isADirectory
  | some (.file content) => .ok content

/-- A content as text. -/
def asText (content : Bytes) : Except FileError String :=
  match ofUtf8? content with
  | some s => .ok s
  | none => .error .notText

/-- The most bytes of a path by which a file can be opened. -/
def maxPathSize : Nat :=
  4095

/-- Where the way to a file that is opened starts. -/
def startOpening (t : FileTree) (path : String) : Except FileError Place :=
  (t.start path).bind fun p =>
    if path.utf8ByteSize ≤ maxPathSize then .ok p else .error .nameTooLong

/-- The content of the file that a path leads to. -/
def readBytes (t : FileTree) (path : String) : Except FileError Bytes :=
  (t.startOpening path).bind fun p => (t.walk p (path.splitOn "/")).bind t.readBytesAt

/-- The text of the file that a path leads to. -/
def readText (t : FileTree) (path : String) : Except FileError String :=
  (t.readBytes path).bind asText

/-- Whether a path leads to a file. -/
def isFile (t : FileTree) (path : String) : Bool :=
  match t.readBytes path with
  | .ok _ => true
  | .error _ => false

/-- The components of the way to the directory that holds the last name of a path. -/
def holderNames (path : String) : List String :=
  ((path.splitOn "/").reverse.dropWhile (· == "")).tail.reverse ++ [""]

/-- Writes a file; the directory that holds it has to exist. A path that ends in a slash is one of a
directory, even where nothing stands yet. -/
def write (t : FileTree) (path : String) (content : Bytes) : Except FileError FileTree :=
  (t.startOpening path).bind fun start =>
    if path.endsWith "/" then (t.walk start (holderNames path)).bind fun _ => .error .isADirectory
    else
      (t.walk start (path.splitOn "/")).bind fun p =>
        if t.node? p = some .directory then .error .isADirectory
        else .ok (t.put p (.file content))

/-- The bytes of a place as it is spelled out from the root. -/
def spelledSize (p : Place) : Nat :=
  p.foldr (fun name size => name.utf8ByteSize + 1 + size) 0

/-- Why names do not lead on from a file. The place of the next name is looked up as it is spelled
out, if it is not too long. -/
def blockedBy (p : Place) (names : List String) : FileError :=
  match names.find? fun name => name != "" && name != "." with
  | some name =>
    if spelledSize (p ++ [name]) ≤ maxPathSize then .notADirectory else .nameTooLong
  | none => .notADirectory

/-- Follows components from a place, which is spelled out after each of them. -/
def trace (t : FileTree) (p : Place) : List String → Except FileError Place
  | [] => .ok p
  | name :: rest =>
    match t.follow p name with
    | .error .notADirectory => .error (blockedBy p (name :: rest))
    | .error e => .error e
    | .ok p => t.trace p rest

/-- The place that a path of any length leads to, where something has to stand. -/
def resolve (t : FileTree) (path : String) : Except FileError Place :=
  ((t.start path).bind fun p => t.trace p (path.splitOn "/")).bind fun p =>
    if (t.node? p).isSome then .ok p else .error .notFound

/-- The tree as a session sees it. -/
def toFiles (t : FileTree) : Files :=
  ⟨t.resolve, fun p => (t.readBytesAt p).bind asText⟩

end FileTree
end ScriptMachine.Session
