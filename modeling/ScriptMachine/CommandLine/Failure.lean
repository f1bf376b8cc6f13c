import ScriptMachine.Compile.CompileError
import ScriptMachine.Bytecode.Decoding
import ScriptMachine.Session.Files
import ScriptMachine.Session.Outcome

/-!
# Failures of commands

Why a command fails, as its user reads it: a message, and the cause behind it where there is one.
-/

namespace ScriptMachine.CommandLine

open Session Compile Bytecode

/-- Why a command fails. -/
inductive Failure
  | configUnreadable (path : String) (e : FileError)
  | configInvalid (path : String)
  | programUnreadable (path : String) (e : FileError)
  | turn (outcome : TurnOutcome)
  | sourceUnreadable (e : FileError)
  | compile (e : CompileError)
  | load (e : LoadError)
  | programUnwritable (e : FileError)
  | samplesUnreadable (path : String) (e : FileError)
  | samplesInvalid (path : String)
  | chartsUnwritable (e : FileError)

namespace Failure

/-- What a failed turn says. -/
def turnMessage : TurnOutcome → String
  | .compileFailed text => "Compile error:\n" ++ text
  | .linkFailed e => "Link error: " ++ e.message
  | .faulted e => "Runtime error: " ++ e.message
  | _ => "turn failed"

/-- The message of a failure. -/
def message : Failure → String
  | .configUnreadable path _ => "failed to read config " ++ path
  | .configInvalid path => "invalid config " ++ path
  | .programUnreadable path _ | .samplesUnreadable path _ => "failed to read " ++ path
  | .turn outcome => turnMessage outcome
  | .sourceUnreadable _ => "Failed to read file"
  | .compile e => "Compile error: " ++ e.message
  | .load e => "Encode error: " ++ e.message
  | .programUnwritable _ => "Failed to write output file"
  | .samplesInvalid path => "invalid samples in " ++ path
  | .chartsUnwritable _ => "Failed to write chart file"

/-- The cause behind a failure. -/
def cause? : Failure → Option String
  | .configUnreadable _ e | .programUnreadable _ e | .sourceUnreadable e | .programUnwritable e
  | .samplesUnreadable _ e | .chartsUnwritable e => some e.message
  | .configInvalid _ => some "not a valid TOML document"
  | .samplesInvalid _ => some "not a JSON record of samples"
  | .turn _ | .compile _ | .load _ => none

/-- Message and cause on one line. -/
def chain (f : Failure) : String :=
  f.message ++ f.cause?.elim "" (": " ++ ·)

/-- Message and cause as a command reports them. -/
def report (f : Failure) : String :=
  "Error: " ++ f.message ++ f.cause?.elim "" ("\n\nCaused by:\n    " ++ ·) ++ "\n"

end Failure
end ScriptMachine.CommandLine
