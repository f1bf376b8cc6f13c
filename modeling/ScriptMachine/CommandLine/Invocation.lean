import ScriptMachine.Text.Digits

/-!
# Invocations

What the words of a command line ask for. Options that hold for every command may stand before or
after the command's name; after it they count more. Words after two dashes are no options.
-/

namespace ScriptMachine.CommandLine

/-- A command. -/
inductive Command
  | repl
  | run (path : String)
  | compile (path : String) (output : Option String)
  | chart (path : String) (baseline output : Option String)
deriving DecidableEq, Repr

/-- The options that hold for every command. -/
structure Options where
  config : Option String
  fuel : Option Nat
  noEcho : Bool
deriving DecidableEq, Repr

/-- What a command line asks for. -/
structure Invocation where
  options : Options
  command : Command
deriving DecidableEq, Repr

/-- Why there is nothing to do: help was asked for, or a word is out of place. -/
inductive UsageError
  | help
  | unexpected (word : String)
  | repeated (option : String)
  | missing (what : String)
  | invalid (word option : String)
deriving DecidableEq, Repr

/-- The wording of a cause. -/
def UsageError.message : UsageError → String
  | .help => "Usage: [OPTIONS] [repl | run PATH | compile PATH | chart PATH]"
  | .unexpected word => "error: unexpected argument '" ++ word ++ "' found"
  | .repeated option => "error: the argument '" ++ option ++ "' cannot be used multiple times"
  | .missing what => "error: a value is required for '" ++ what ++ "' but none was supplied"
  | .invalid word option => "error: invalid value '" ++ word ++ "' for '" ++ option ++ "'"

/-! ## Options -/

/-- The options with a value. -/
inductive ValueOption
  | config
  | fuel
  | baseline
  | output
deriving DecidableEq, Repr

/-- An option as it is written. -/
def ValueOption.name : ValueOption → String
  | .config => "--config"
  | .fuel => "--fuel"
  | .baseline => "--baseline"
  | .output => "--output"

/-- The names of the commands. -/
inductive CommandName
  | repl
  | run
  | compile
  | chart
deriving DecidableEq, Repr

/-- The command with a name. -/
def CommandName.ofString? : String → Option CommandName
  | "repl" => some .repl
  | "run" => some .run
  | "compile" => some .compile
  | "chart" => some .chart
  | _ => none

/-- Whether an option with a value may be given, before any command or after one. -/
def ValueOption.isAllowed (o : ValueOption) (c : Option CommandName) : Bool :=
  match o with
  | .config | .fuel => true
  | .baseline => c == some .chart
  | .output => c == some .chart || c == some .compile

/-- What one word is. An option can carry its value with it. -/
inductive Argument
  | separator
  | help
  | noEcho
  | option (o : ValueOption) (value : Option String)
  | plain (word : String)
  | unknown (word : String)
deriving DecidableEq, Repr

/-- A long option, given its name and the value that it carries. -/
def longOption (word name : String) (value : Option String) : Argument :=
  match name, value with
  | "help", none => .help
  | "no-echo", none => .noEcho
  | "config", v => .option .config v
  | "fuel", v => .option .fuel v
  | "baseline", v => .option .baseline v
  | "output", v => .option .output v
  | _, _ => .unknown word

/-- What a word is. -/
def Argument.ofString (word : String) : Argument :=
  match word.toList with
  | ['-', '-'] => .separator
  | '-' :: '-' :: r =>
    match r.span (· ≠ '=') with
    | (name, '=' :: value) => longOption word (String.ofList name) (some (String.ofList value))
    | (name, _) => longOption word (String.ofList name) none
  | ['-', 'o'] => .option .output none
  | '-' :: 'o' :: '=' :: r => .option .output (some (String.ofList r))
  | '-' :: 'o' :: r => .option .output (some (String.ofList r))
  | '-' :: 'h' :: _ => .help
  | ['-'] => .plain word
  | '-' :: _ => .unknown word
  | _ => .plain word

/-! ## Reading -/

/-- What was given so far, before any command or after one. -/
structure Given where
  config : Option String
  fuel : Option Nat
  noEcho : Bool
  baseline : Option String
  output : Option String
  path : Option String
deriving DecidableEq, Repr

/-- Nothing. -/
def Given.nothing : Given :=
  ⟨none, none, false, none, none, none⟩

/-- The natural number below `2 ^ 64` that a word denotes. -/
def natural? (word : String) : Option Nat :=
  let digits := match word.toList with
    | '+' :: r => r
    | r => r
  let n := Text.ofDigits digits
  if Text.areDigits digits && n < 0x10000000000000000 then some n else none

/-- A value for an option, which may be given once. -/
def setOnce {α : Type} (name : String) (before : Option α) (a : α) : Except UsageError (Option α) :=
  if before.isSome then .error (.repeated name) else .ok (some a)

/-- Gives an option its value. -/
def Given.setOption (g : Given) (o : ValueOption) (value : String) : Except UsageError Given :=
  match o with
  | .config =>
    if value.isEmpty then .error (.missing o.name)
    else (setOnce o.name g.config value).map fun config => { g with config }
  | .fuel =>
    match natural? value with
    | none => .error (.invalid value o.name)
    | some n => (setOnce o.name g.fuel n).map fun fuel => { g with fuel }
  | .baseline => (setOnce o.name g.baseline value).map fun baseline => { g with baseline }
  | .output => (setOnce o.name g.output value).map fun output => { g with output }

/-- Takes a word that is no option as the command's path. -/
def Given.setPath (g : Given) (c : CommandName) (word : String) : Except UsageError Given :=
  if c = .repl || g.path.isSome then .error (.unexpected word) else .ok { g with path := some word }

/-- Reads the words after two dashes, all of them plain. -/
def readPlain (c : Option CommandName) : Given → List String → Except UsageError Given
  | g, [] => .ok g
  | g, word :: rest =>
    match c with
    | none => .error (.unexpected word)
    | some name => (g.setPath name word).bind fun g => readPlain c g rest

/-- Reads words: what they give, and the command's name and the words after it, if they hold one and
`c` says that there was none before. -/
def readWords (c : Option CommandName) :
    Given → List String → Except UsageError (Given × Option (CommandName × List String))
  | g, [] => .ok (g, none)
  | g, word :: rest =>
    match Argument.ofString word with
    | .separator => (readPlain c g rest).map (·, none)
    | .help => .error .help
    | .unknown w => .error (.unexpected w)
    | .noEcho =>
      if g.noEcho then .error (.repeated "--no-echo")
      else readWords c { g with noEcho := true } rest
    | .plain w =>
      match c with
      | some name => (g.setPath name w).bind fun g => readWords c g rest
      | none =>
        match CommandName.ofString? w with
        | some name => .ok (g, some (name, rest))
        | none => if w = "help" then .error .help else .error (.unexpected w)
    | .option o carried =>
      if !o.isAllowed c then .error (.unexpected word)
      else
        match carried, rest with
        | some value, rest => (g.setOption o value).bind fun g => readWords c g rest
        | none, [] => .error (.missing o.name)
        | none, value :: rest =>
          match Argument.ofString value with
          | .plain value => (g.setOption o value).bind fun g => readWords c g rest
          | _ => .error (.missing o.name)

/-- The command with a name and what was given after it. -/
def commandOf (name : CommandName) (g : Given) : Except UsageError Command :=
  match name, g.path with
  | .repl, _ => .ok .repl
  | _, none => .error (.missing "<PATH>")
  | .run, some path => .ok (.run path)
  | .compile, some path => .ok (.compile path g.output)
  | .chart, some path => .ok (.chart path g.baseline g.output)

/-- The options given before a command and after it. -/
def optionsOf (before after : Given) : Options :=
  ⟨after.config.or before.config, after.fuel.or before.fuel, before.noEcho || after.noEcho⟩

/-- What a command line asks for; without a command, a session. -/
def Invocation.parse (words : List String) : Except UsageError Invocation :=
  match readWords none .nothing words with
  | .error e => .error e
  | .ok (before, none) => .ok ⟨optionsOf before .nothing, .repl⟩
  | .ok (before, some (name, rest)) =>
    match readWords (some name) .nothing rest with
    | .error e => .error e
    | .ok (after, _) => (commandOf name after).map fun command => ⟨optionsOf before after, command⟩

end ScriptMachine.CommandLine
