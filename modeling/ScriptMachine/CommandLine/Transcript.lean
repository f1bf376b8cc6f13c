import ScriptMachine.Config.Settings
import ScriptMachine.Session.Turn
import ScriptMachine.Source.Balance
import ScriptMachine.Text.Backspace

/-!
# Transcripts

A session at a prompt. Lines are gathered until they make a complete text, which is run as one turn.
The transcript holds the prompts, the lines and all that turns print and report.
-/

namespace ScriptMachine.CommandLine

open Config (Settings)

/-- A session at a prompt: the lines gathered for the next turn, each ended by a newline, and
whether the session is over. What has been written is the session's output. -/
structure Transcript where
  session : Session
  settings : Settings
  pending : List Char
  isOver : Bool

namespace Transcript

/-- The line that a session opens with. -/
def banner : String :=
  "Quill toplevel 0.4.0\n"

/-- A session before its first prompt. -/
def start (session : Session) (settings : Settings) : Transcript :=
  ⟨{ session with output := session.output ++ banner }, settings, [], false⟩

/-- The prompt for the next line. -/
def prompt (t : Transcript) : String :=
  if t.pending.isEmpty then t.settings.prompt else t.settings.continuationPrompt

/-- Writes text. -/
def write (t : Transcript) (text : String) : Transcript :=
  { t with session := { t.session with output := t.session.output ++ text } }

/-- Runs the gathered lines as a turn. -/
def runPending (t : Transcript) (fragment : List Char) : Transcript :=
  let (outcome, session) := t.session.runTurn (String.ofList fragment)
  let t : Transcript := ⟨session, t.settings, [], outcome.quits⟩
  t.write (outcome.report t.settings.echoBindings)

/-- Takes a line. A blank text is dropped; one that is not complete waits for more lines. -/
def takeLine (t : Transcript) (line : List Char) : Transcript :=
  let pending := t.pending ++ line ++ ['\n']
  if !Source.isBalanced pending then { t with pending }
  else
    let fragment := Text.trim pending
    if fragment.isEmpty then { t with pending := [] } else t.runPending fragment

/-- Writes the prompt and a line as its backspaces leave it, and takes the line. -/
def readLine (t : Transcript) (line : Text.Line) : Transcript :=
  let line := Text.applyBackspaces line
  ((t.write t.prompt).write (String.ofList line ++ "\n")).takeLine line

/-- Reads lines until they or the session end. At the end of the lines there is one more prompt, and
lines that wait are dropped. -/
def readLines (t : Transcript) : List Text.Line → Transcript
  | [] => if t.isOver then t else { t.write t.prompt with isOver := true }
  | line :: rest => if t.isOver then t else (t.readLine line).readLines rest

end Transcript
end ScriptMachine.CommandLine
