import ScriptMachine.Benchmark.Format
import ScriptMachine.CommandLine.Failure
import ScriptMachine.CommandLine.Invocation
import ScriptMachine.CommandLine.Transcript

/-!
# Executing commands

What a command line does to the files that it can see, what it writes, and the code that it ends
with.
-/

namespace ScriptMachine.CommandLine

open Bytecode Compile Session Config

/-- What a command can see: the home directory, the text on its input, the files, and the steps that
a run without a limit on fuel may take. -/
structure Surroundings where
  home : Option String
  input : String
  files : FileTree
  patience : Nat

/-- What a command has done so far: what it wrote as output and as errors, and the files. -/
structure Effects where
  output : String
  errors : String
  files : FileTree

/-- How a command ends. -/
structure Finish where
  code : Nat
  effects : Effects

/-- What a command does, and whether it succeeds. -/
abbrev Deed := Effects → Except Failure Unit × Effects

/-! ## Running files -/

/-- A new session. -/
def newSession (settings : Settings) (files : FileTree) (patience : Nat) : Session :=
  .new standardCompiler files.toFiles ⟨settings.fuel, patience⟩

/-- The turn that a file makes: a unit if its name says so, else a source text. -/
def turnOfFile (session : Session) (files : FileTree) (path : String) :
    Except FileError (TurnOutcome × Session) :=
  if path.endsWith ".qbc" then (files.readBytes path).map session.runFile
  else (files.readText path).map session.runTurn

/-- Runs a file as the only turn of a session, and hands back what it printed. -/
def runFile (settings : Settings) (files : FileTree) (patience : Nat) (path : String) :
    Except Failure Unit × String :=
  match turnOfFile (newSession settings files patience) files path with
  | .error e => (.error (.programUnreadable path e), "")
  | .ok (outcome, session) =>
    match outcome.failure? with
    | none => (.ok (), session.output)
    | some failure => (.error (.turn failure), session.output)

/-- Runs a file. -/
def run (settings : Settings) (patience : Nat) (path : String) : Deed := fun e =>
  let (result, printed) := runFile settings e.files patience path
  (result, { e with output := e.output ++ printed })

/-- A session at a prompt. -/
def repl (settings : Settings) (s : Surroundings) : Deed := fun e =>
  let t := Transcript.start (newSession settings e.files s.patience) settings
  let t := t.readLines (Text.lines s.input.toList)
  (.ok (), { e with output := e.output ++ t.session.output })

/-! ## Compiling files -/

/-- The file that a source text compiles to, with the names that a new session knows. -/
def compileSource (source : String) : Except Failure Bytes :=
  match Compile.compile standardNames source with
  | .error e => .error (.compile e)
  | .ok c => .ok c.bytes

/-- What is said of a compiled program. -/
def compiledNotice (p : Program) : String :=
  "Compiled " ++ Nat.repr p.instructionCount ++ " instructions (" ++ Nat.repr p.prototypes.size ++
    " functions).\n"

/-- A source text as a file and a notice, if the file can be loaded. -/
def prepare (source : String) : Except Failure (Bytes × String) :=
  match compileSource source with
  | .error f => .error f
  | .ok bytes =>
    match Program.decode bytes with
    | .error e => .error (.load e)
    | .ok program => .ok (bytes, compiledNotice program)

/-- Compiles a file, and writes the unit if there is a place for it. -/
def compileFile (path : String) (output : Option String) : Deed := fun e =>
  match e.files.readText path with
  | .error cause => (.error (.sourceUnreadable cause), e)
  | .ok source =>
    match prepare source with
    | .error f => (.error f, e)
    | .ok (bytes, notice) =>
      let e := { e with output := e.output ++ notice }
      match output with
      | none => (.ok (), e)
      | some target =>
        match e.files.write target bytes with
        | .error cause => (.error (.programUnwritable cause), e)
        | .ok files =>
          (.ok (), { e with files, output := e.output ++ "Saved binary to " ++ target ++ "\n" })

/-! ## Charts -/

/-- The samples in a file. -/
def readSamples (files : FileTree) (path : String) : Except Failure Benchmark.Samples :=
  match files.readText path with
  | .error e => .error (.samplesUnreadable path e)
  | .ok text =>
    match Benchmark.Samples.parse? text with
    | none => .error (.samplesInvalid path)
    | some samples => .ok samples

/-- The samples in a file, if there is one. -/
def readBaseline (files : FileTree) : Option String → Except Failure (Option Benchmark.Samples)
  | none => .ok none
  | some path => (readSamples files path).map some

/-- Charts the samples in a file. Titles without a chart are reported as errors. -/
def chartFile (path : String) (baseline output : Option String) : Deed := fun e =>
  match readSamples e.files path with
  | .error f => (.error f, e)
  | .ok data =>
    match readBaseline e.files baseline with
    | .error f => (.error f, e)
    | .ok base =>
      let entries := Benchmark.ofSamples data base
      let charts := Benchmark.charts entries
      let text := Benchmark.chartsText charts
      let e := { e with
        errors := e.errors ++ String.join ((Benchmark.reports entries).map (· ++ "\n")) }
      match output with
      | none => (.ok (), { e with output := e.output ++ text ++ "\n" })
      | some target =>
        match e.files.write target (utf8 text) with
        | .error cause => (.error (.chartsUnwritable cause), e)
        | .ok files =>
          let notice := "Wrote " ++ Nat.repr charts.length ++ " charts to " ++ target ++ "\n"
          (.ok (), { e with files, output := e.output ++ notice })

/-! ## Command lines -/

/-- The settings in a file. -/
def readSettings (s : Surroundings) (path : String) : Except Failure Settings :=
  match s.files.readText path with
  | .error e => .error (.configUnreadable path e)
  | .ok text =>
    match Settings.parse? s.home text with
    | none => .error (.configInvalid path)
    | some settings => .ok settings

/-- The settings: from a file that was asked for, or from the one in the home directory if there is
one. -/
def loadSettings (s : Surroundings) : Option String → Except Failure Settings
  | some path => readSettings s path
  | none =>
    match s.home with
    | none => .ok (.default none)
    | some home =>
      let path := inHome home "config.toml"
      if s.files.isFile path then readSettings s path else .ok (.default s.home)

/-- The settings with the options of a command line. -/
def applyOptions (settings : Settings) (o : Options) : Settings :=
  { settings with
    fuel := o.fuel.or settings.fuel
    echoBindings := settings.echoBindings && !o.noEcho }

/-- What a command does. -/
def deedOf (settings : Settings) (s : Surroundings) : Command → Deed
  | .repl => repl settings s
  | .run path => run settings s.patience path
  | .compile path output => compileFile path output
  | .chart path baseline output => chartFile path baseline output

/-- Reads the settings and carries out a command. -/
def Invocation.deed (i : Invocation) (s : Surroundings) : Deed := fun e =>
  match loadSettings s i.options.config with
  | .error f => (.error f, e)
  | .ok settings => deedOf (applyOptions settings i.options) s i.command e

/-- Executes a command line. -/
def execute (words : List String) (s : Surroundings) : Finish :=
  let start : Effects := ⟨"", "", s.files⟩
  match Invocation.parse words with
  | .error .help => ⟨0, { start with output := UsageError.help.message ++ "\n" }⟩
  | .error e => ⟨2, { start with errors := e.message ++ "\n" }⟩
  | .ok i =>
    match i.deed s start with
    | (.ok (), e) => ⟨0, e⟩
    | (.error f, e) => ⟨1, { e with errors := e.errors ++ f.report }⟩

end ScriptMachine.CommandLine
