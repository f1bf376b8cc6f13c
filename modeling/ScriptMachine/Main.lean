import ScriptMachine.CommandLine.Execution

/-!
# The program

The outer layer: it reads the files that a command line names and those that they use, executes the
command line, prints what that wrote, and stores the files that it changed. At a terminal a session
takes its lines one by one.
-/

namespace ScriptMachine

open Session CommandLine

/-- The steps that a run without a limit on fuel may take. -/
def unlimited : Nat :=
  0x4000000000000000

/-- The place that a path names, taken by its letters. -/
def placeOf (workingDirectory : Place) (path : String) : Place :=
  (path.splitOn "/").foldl
    (fun p name =>
      if name = "" || name = "." then p else if name = ".." then p.dropLast else p ++ [name])
    (if path.startsWith "/" then [] else workingDirectory)

/-- The paths to all that stands on the way to a path, and the path. -/
def waysTo (path : String) : List String :=
  let names := path.splitOn "/"
  (List.range names.length).map fun n => String.intercalate "/" (names.take (n + 1))

/-- The files that a text uses. -/
def usedFiles (source : List Char) : List String :=
  (segments source).filterMap fun segment =>
    match segment with
    | .code _ => none
    | .directive line =>
      match Directive.parse line with
      | .ok (.use file) => some file
      | _ => none

/-- What stands at a path in the file system, if something does. -/
def readNode (path : String) : IO (Option Node) := do
  try
    let bytes ← IO.FS.readBinFile path
    return some (.file bytes.toList)
  catch e =>
    match e with
    | .inappropriateType .. => return some .directory
    | _ => return none

/-- The paths of what a file uses. -/
def usedBy : Node → List String
  | .directory => []
  | .file content =>
    match FileTree.asText content with
    | .ok text => (usedFiles text.toList).flatMap waysTo
    | .error _ => []

/-- Reads the files at some paths, and those that they use, into a tree. -/
partial def fetch (t : FileTree) : List String → IO FileTree
  | [] => return t
  | path :: rest => do
    let p := placeOf t.workingDirectory path
    if path.isEmpty || (t.entries.lookup p).isSome then fetch t rest
    else
      match ← readNode path with
      | some node => fetch (t.put p node) (usedBy node ++ rest)
      | none => fetch t rest

/-- Stores the files of a tree that are not in another. -/
def store (old new : FileTree) : IO Unit := do
  for (p, node) in new.entries do
    match node with
    | .file content =>
      if old.node? p != some node then
        IO.FS.writeBinFile ("/" ++ String.intercalate "/" p) ⟨content.toArray⟩
    | .directory => pure ()

/-- Reads a stream to its end. -/
partial def readAll (s : IO.FS.Stream) (text : String) : IO String := do
  let line ← s.getLine
  if line.isEmpty then return text else readAll s (text ++ line)

/-- Prints what a session has written, and goes on without it. -/
def flushOutput (t : Transcript) : IO Transcript := do
  IO.print t.session.output
  (← IO.getStdout).flush
  return { t with session := { t.session with output := "" } }

/-- Takes the lines of a terminal until they or the session end. -/
partial def converse (t : Transcript) (files : FileTree) : IO Unit := do
  let t ← flushOutput (if t.isOver then t else t.write t.prompt)
  if t.isOver then return
  let line ← (← IO.getStdin).getLine
  if line.isEmpty then return
  let line := line.toList.reverse.dropWhile (· == '\n') |>.reverse
  let files ← fetch files ((usedFiles (t.pending ++ line)).flatMap waysTo)
  let t := { t with session := { t.session with files := files.toFiles } }
  converse (t.takeLine line) files

/-- Executes a command line, and hands back the code to end with. -/
def carryOut (words : List String) (s : Surroundings) : IO UInt32 := do
  let finish := execute words s
  IO.print finish.effects.output
  IO.eprint finish.effects.errors
  store s.files finish.effects.files
  return UInt32.ofNat finish.code

end ScriptMachine

open ScriptMachine Session CommandLine in
/-- Executes the command line of the process. -/
def main (words : List String) : IO UInt32 := do
  let home ← IO.getEnv "HOME"
  let here := (← IO.currentDir).toString
  let settings := home.toList.map (Config.inHome · "config.toml")
  let named := words.flatMap fun word => [word, (word.splitOn "=").getLastD word]
  let files ← fetch (.empty (placeOf [] here)) ((named ++ settings).flatMap waysTo)
  let stdin ← IO.getStdin
  let s : Surroundings := ⟨home, "", files, unlimited⟩
  match Invocation.parse words with
  | .ok ⟨options, .repl⟩ =>
    if ← stdin.isTty then
      match loadSettings s options.config with
      | .error f =>
        IO.eprint f.report
        return 1
      | .ok settings =>
        let settings := applyOptions settings options
        converse (.start (newSession settings files unlimited) settings) files
        return 0
    else
      let input ← readAll stdin ""
      let files ← fetch files ((usedFiles input.toList).flatMap waysTo)
      carryOut words { s with input, files }
  | _ => carryOut words s
