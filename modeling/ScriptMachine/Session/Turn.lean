import ScriptMachine.Link.Linker
import ScriptMachine.Link.Library
import ScriptMachine.Session.Segment
import ScriptMachine.Session.Directive
import ScriptMachine.Session.Files
import ScriptMachine.Session.Outcome
import ScriptMachine.Session.Diagnostic

/-!
# Sessions

A session takes one fragment a turn. The fragment is compiled against the names known so far, linked
into the image and run. Only when all of that has succeeded are its writes stored and its names made
known; otherwise the session goes on as if the fragment had not been there, but for its output.
-/

namespace ScriptMachine

open Bytecode Compile Link Session

/-- The limits of a session: instructions for each run, and steps for a run without such a limit. -/
structure Limits where
  fuel : Option Nat
  patience : Nat
deriving DecidableEq, Repr

/-- A session: its image and linker, the names it knows, the compiler and files it uses, its limits,
the libraries it opened, and what programs have printed. -/
structure Session where
  image : Image
  linker : Linker
  names : Names
  compiler : FragmentCompiler
  files : Files
  limits : Limits
  libraries : LibraryLoader
  output : String

namespace Session

/-- The most files that can be in use inside one another. -/
def maxOpenFiles : Nat :=
  16

/-- The names that a new session knows. -/
def standardNames : Names :=
  Names.empty.namePrimitives Registry.standard.names

/-- A session that cannot link anything yet. -/
def uninitialized (compiler : FragmentCompiler) (files : Files) (limits : Limits) : Session :=
  ⟨.standard, .uninitialized, standardNames, compiler, files, limits, .new, ""⟩

/-- Puts a backend in place of the one before. -/
def install (s : Session) (b : Backend) : Session :=
  { s with linker := s.linker.install b }

/-- A session that links units in the file format. -/
def new (compiler : FragmentCompiler) (files : Files) (limits : Limits) : Session :=
  (uninitialized compiler files limits).install .bytecode

/-- Offers one more primitive to later fragments. -/
def addPrimitive (s : Session) (p : Primitive) : Session :=
  { s with
    image := { s.image with primitives := s.image.primitives.register p }
    names := s.names.namePrimitive p.name s.image.primitives.count }

/-- A value as a report shows it. -/
def shown (s : Session) (v : Value) : Shown :=
  ⟨v.typeName, s.image.legend.repr v⟩

/-- The binding that a definition has made, unless a later one of the same name hides it. -/
def binding? (s : Session) (d : Definition) : Option Binding :=
  if (s.names.global? d.name).map GlobalName.slot = some d.slot then
    match s.image.globals.get d.slot with
    | .ok v => some ⟨d.name, s.shown v⟩
    | .error _ => none
  else none

/-! ## Code -/

/-- Stores the writes of a run, makes the unit's names known, and says what is new. -/
def commit (s : Session) (u : FragmentUnit) (o : Outcome) : TurnOutcome × Session :=
  let ⟨image, linker, names, compiler, files, limits, libraries, output⟩ := s
  match o.commit image with
  | .error e image =>
    (.linkFailed e, ⟨image, linker, names, compiler, files, limits, libraries, output⟩)
  | .ok () image =>
    let names := names.commit u.definitions
    let s : Session := ⟨image, linker, names, compiler, files, limits, libraries, output⟩
    let value := if u.yieldsValue then some (s.shown o.value) else none
    (.evaluated (u.definitions.filterMap s.binding?) value, s)

/-- Links and runs a unit. -/
def runUnit (s : Session) (u : FragmentUnit) : TurnOutcome × Session :=
  let ⟨image, linker, names, compiler, files, limits, libraries, output⟩ := s
  match linker.read image.primitives.count u.bytes u.sizeHint with
  | (.error e, linker) =>
    (.linkFailed e, ⟨image, linker, names, compiler, files, limits, libraries, output⟩)
  | (.ok program, linker) =>
    let (linked, image) := place image program u.sizeHint
    match linked.run image ⟨output, none⟩ limits.fuel limits.patience with
    | (result, image, sink) =>
      let s : Session := ⟨image, linker, names, compiler, files, limits, libraries, sink.text⟩
      match result with
      | .finished o => s.commit u o
      | .faulted e => (.faulted e, s)
      | .unfinished => (.unfinished, s)

/-- Compiles and runs a source text. -/
def runSource (s : Session) (source : List Char) : TurnOutcome × Session :=
  match s.compiler s.names (String.ofList source) with
  | .error d => (.compileFailed (d.render source), s)
  | .ok u => s.runUnit u

/-- The number of instructions in a file; one that is no program has none. -/
def announcedSize (bytes : Bytes) : Nat :=
  match Program.decode bytes with
  | .ok program => program.instructionCount
  | .error _ => 0

/-- Runs a unit that was compiled elsewhere; its value is reported. -/
def runFile (s : Session) (bytes : Bytes) : TurnOutcome × Session :=
  s.runUnit ⟨bytes, announcedSize bytes, [], true⟩

/-! ## Turns -/

/-- Looks a symbol up in a native library. -/
def lookUpNative (s : Session) (library symbol : String) : TurnOutcome × Session :=
  let ((_, missing), libraries) := s.libraries.withLibrary library symbol
  (.directive ("Error: " ++ missing.message), { s with libraries })

/-- A failure with a message of its own. -/
def refusal (message : String) : TurnOutcome :=
  .compileFailed ("Error: " ++ message)

/-- Runs pieces until one fails or ends the session; the outcomes, after those in `done`, which are
in reverse. -/
def runPieces (runPiece : Session → Segment → TurnOutcome × Session) (s : Session)
    (done : List TurnOutcome) : List Segment → List TurnOutcome × Session
  | [] => (done.reverse, s)
  | piece :: rest =>
    let (outcome, s) := runPiece s piece
    if !outcome.isSuccess || outcome.quits then ((outcome :: done).reverse, s)
    else runPieces runPiece s (outcome :: done) rest

/-- Runs the pieces of a text; a single piece needs no sequence. -/
def runSegments (runPiece : Session → Segment → TurnOutcome × Session) (s : Session)
    (source : List Char) : TurnOutcome × Session :=
  match segments source with
  | [piece] => runPiece s piece
  | pieces =>
    let (outcomes, s) := runPieces runPiece s [] pieces
    (.sequence outcomes, s)

/-- Runs a piece while the files in `inUse` are being used, with room for `room` more. A used file
is run as a turn of its own. -/
def runPiece : (room : Nat) → (inUse : List Place) → Session → Segment → TurnOutcome × Session
  | _, _, s, .code source => s.runSource source
  | room, inUse, s, .directive line =>
    match Directive.parse line with
    | .error e => (refusal e.message, s)
    | .ok .quit => (.quit, s)
    | .ok .sections => (.directive s.image.sections, s)
    | .ok .libs => (.directive s!"libraries: {s.libraries.current.length} loaded", s)
    | .ok (.native library symbol) => s.lookUpNative library symbol
    | .ok (.use file) =>
      match s.files.resolve file with
      | .error e => (refusal ("cannot read " ++ file ++ ": " ++ e.message), s)
      | .ok place =>
        if inUse.contains place then (refusal ("recursive #use of " ++ file), s)
        else
          match room with
          | 0 =>
            (refusal ("recursive #use of " ++ file ++
              s!": more than {maxOpenFiles} nested files"), s)
          | room + 1 =>
            match s.files.read place with
            | .error e => (refusal ("cannot read " ++ file ++ ": " ++ e.message), s)
            | .ok content => runSegments (runPiece room (place :: inUse)) s content.toList

/-- Runs one fragment. -/
def runTurn (s : Session) (source : String) : TurnOutcome × Session :=
  runSegments (runPiece maxOpenFiles []) s source.toList

/-- Runs fragments in turn and adds each report to the output; blank ones are skipped, and a
fragment that ends the session is the last. -/
def runScript (echo : Bool) (s : Session) : List String → Session
  | [] => s
  | fragment :: rest =>
    if fragment.toList.all Text.isBlank then runScript echo s rest
    else
      let (outcome, s) := s.runTurn fragment
      let s := { s with output := s.output ++ outcome.report echo }
      if outcome.quits then s else runScript echo s rest

end Session
end ScriptMachine
