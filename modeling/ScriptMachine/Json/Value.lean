import ScriptMachine.Decimal.Shortest
import ScriptMachine.Text.JsonString

/-!
# JSON values

A value, and its text with one item a line, indented by two spaces a level. Numbers are written as
their shortest decimals; JSON has no text for a number that is not finite, so null stands for it.
-/

namespace ScriptMachine.Json

/-- A JSON value. -/
inductive Value
  | null
  | bool (b : Bool)
  | number (x : Float)
  | string (s : String)
  | list (items : List Value)
  | record (fields : List (String × Value))

/-- A number as text. -/
def numberText (x : Float) : String :=
  if x.isFinite then Decimal.shortestText x.toBits else "null"

/-- The indentation of a level. -/
def indent (level : Nat) : String :=
  String.ofList (List.replicate (2 * level) ' ')

/-- Items between an opening and a closing sign, one a line; no items make no lines. -/
def block (opening closing : String) (level : Nat) (items : List String) : String :=
  if items.isEmpty then opening ++ closing
  else
    opening ++ "\n" ++ String.intercalate ",\n" (items.map (indent (level + 1) ++ ·)) ++
      "\n" ++ indent level ++ closing

mutual

/-- The text of a value that stands at a level. -/
def pretty (level : Nat) : Value → String
  | .null => "null"
  | .bool b => if b then "true" else "false"
  | .number x => numberText x
  | .string s => Text.jsonString s
  | .list items => block "[" "]" level (prettyItems (level + 1) items)
  | .record fields => block "\x7b" "\x7d" level (prettyFields (level + 1) fields)

/-- The texts of the items of a list. -/
def prettyItems (level : Nat) : List Value → List String
  | [] => []
  | v :: rest => pretty level v :: prettyItems level rest

/-- The texts of the fields of a record. -/
def prettyFields (level : Nat) : List (String × Value) → List String
  | [] => []
  | (name, v) :: rest =>
    (Text.jsonString name ++ ": " ++ pretty level v) :: prettyFields level rest

end

end ScriptMachine.Json
