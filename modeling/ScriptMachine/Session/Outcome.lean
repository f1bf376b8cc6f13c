import ScriptMachine.Machine.Fault

/-!
# Outcomes of turns

What a turn did, as the session reports it. A turn made of several pieces has an outcome for each
piece that was run; only the last of them can be a failure or an end of the session.
-/

namespace ScriptMachine.Session

/-- A value as a report shows it. -/
structure Shown where
  typeName : String
  repr : String
deriving DecidableEq

/-- A name and the value it is now bound to. -/
structure Binding where
  name : String
  value : Shown
deriving DecidableEq

/-- The outcome of a turn. A run without a limit on fuel may be left unfinished. -/
inductive TurnOutcome
  | evaluated (bindings : List Binding) (value : Option Shown)
  | directive (text : String)
  | quit
  | compileFailed (text : String)
  | linkFailed (e : LinkError)
  | faulted (e : Fault)
  | unfinished
  | sequence (parts : List TurnOutcome)

namespace TurnOutcome

mutual

/-- Whether no piece failed. -/
def isSuccess : TurnOutcome → Bool
  | .evaluated _ _ | .directive _ | .quit => true
  | .compileFailed _ | .linkFailed _ | .faulted _ | .unfinished => false
  | .sequence parts => allSucceed parts

/-- Whether no piece of any of these failed. -/
def allSucceed : List TurnOutcome → Bool
  | [] => true
  | o :: rest => o.isSuccess && allSucceed rest

end

mutual

/-- Whether the session ends after this turn. -/
def quits : TurnOutcome → Bool
  | .quit => true
  | .sequence parts => lastQuits parts
  | _ => false

/-- Whether the last of these ends the session. -/
def lastQuits : List TurnOutcome → Bool
  | [] => false
  | [o] => o.quits
  | _ :: rest => lastQuits rest

end

mutual

/-- The first piece that failed. -/
def failure? : TurnOutcome → Option TurnOutcome
  | .sequence parts => firstFailure? parts
  | .evaluated _ _ | .directive _ | .quit => none
  | .compileFailed text => some (.compileFailed text)
  | .linkFailed e => some (.linkFailed e)
  | .faulted e => some (.faulted e)
  | .unfinished => some .unfinished

/-- The first piece of any of these that failed. -/
def firstFailure? : List TurnOutcome → Option TurnOutcome
  | [] => none
  | o :: rest =>
    match o.failure? with
    | some f => some f
    | none => firstFailure? rest

end

/-- The lines of a report on a value and new bindings. -/
def evaluatedLines (echo : Bool) (bindings : List Binding) (value : Option Shown) : List String :=
  (if echo then bindings else []).map (fun b =>
    "val " ++ b.name ++ " : " ++ b.value.typeName ++ " = " ++ b.value.repr) ++
  value.toList.map fun v => "- : " ++ v.typeName ++ " = " ++ v.repr

mutual

/-- The report of a turn: lines, each ended by a newline. New bindings are shown on request. -/
def report (echo : Bool) : TurnOutcome → String
  | .evaluated bindings value =>
    String.join ((evaluatedLines echo bindings value).map (· ++ "\n"))
  | .directive text => text ++ "\n"
  | .quit | .unfinished => ""
  | .compileFailed text => text ++ "\n"
  | .linkFailed e => "Error: " ++ e.message ++ "\n"
  | .faulted e => "Exception: " ++ e.message ++ "\n"
  | .sequence parts => reportAll echo parts

/-- The reports of several turns, one after the other. -/
def reportAll (echo : Bool) : List TurnOutcome → String
  | [] => ""
  | o :: rest => o.report echo ++ reportAll echo rest

end

end TurnOutcome
end ScriptMachine.Session
