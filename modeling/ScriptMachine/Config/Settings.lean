import ScriptMachine.Toml.Document

/-!
# Settings

The settings of a session, from a TOML document. Each has a default; a document sets some of them,
and its other names do not matter.
-/

namespace ScriptMachine.Config

/-- The settings: both prompts, where lines are kept, the instructions allowed for a turn, whether
new bindings are shown, and what to log. -/
structure Settings where
  prompt : String
  continuationPrompt : String
  historyFile : Option String
  fuel : Option Nat
  echoBindings : Bool
  logFilter : Option String
deriving DecidableEq, Repr

/-- A path below the directory for settings in a home directory. -/
def inHome (home name : String) : String :=
  (if home.isEmpty || home.endsWith "/" then home else home ++ "/") ++ ".quill/" ++ name

/-- The settings without a document. -/
def Settings.default (home : Option String) : Settings :=
  ⟨"# ", "  ", home.map (inHome · "history"), none, true, none⟩

open Toml (Value Fields)

/-- A string. -/
def string? : Value → Option String
  | .string s => some s
  | _ => none

/-- A boolean. -/
def boolean? : Value → Option Bool
  | .boolean b => some b
  | _ => none

/-- An integer that is not below zero. -/
def natural? : Value → Option Nat
  | .integer n => if n < 0 then none else some n.toNat
  | _ => none

/-- The setting with a name: the default if the name is not there, none if its value is of the wrong
kind. -/
def setting {α : Type} (fields : Fields) (name : String) (read : Value → Option α) (default : α) :
    Option α :=
  match fields.lookup name with
  | none => some default
  | some v => read v

/-- The settings in a document. -/
def Settings.ofFields (home : Option String) (fields : Fields) : Option Settings := do
  let base := Settings.default home
  return {
    prompt := ← setting fields "prompt" string? base.prompt
    continuationPrompt := ← setting fields "continuation_prompt" string? base.continuationPrompt
    historyFile := ← setting fields "history_file" (fun v => (string? v).map some) base.historyFile
    fuel := ← setting fields "fuel" (fun v => (natural? v).map some) base.fuel
    echoBindings := ← setting fields "echo_bindings" boolean? base.echoBindings
    logFilter := ← setting fields "log_filter" (fun v => (string? v).map some) base.logFilter }

/-- The settings in the text of a document. -/
def Settings.parse? (home : Option String) (text : String) : Option Settings :=
  (Toml.parse? text).bind (Settings.ofFields home)

end ScriptMachine.Config
