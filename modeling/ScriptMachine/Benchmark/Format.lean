import ScriptMachine.Benchmark.Chart
import ScriptMachine.Json.Reading

/-!
# Files of samples and charts

Samples are read from a JSON record of titles, each a record of cases, each a list of numbers; of a
repeated name the last counts. Charts are written as a JSON list.
-/

namespace ScriptMachine.Benchmark

open Json (Value)

/-- A list of numbers as samples. -/
def samplesOf? : Value → Option (List Sample)
  | .list items => items.mapM fun item =>
    match item with
    | .number x => some (.ofFloat x)
    | _ => none
  | _ => none

/-- A record as a table. -/
def tableOf? {α : Type} (item? : Value → Option α) : Value → Option (Table α)
  | .record fields =>
    (fields.mapM fun (field : String × Value) => (item? field.2).map (field.1, ·)).map Table.ofList
  | _ => none

/-- The samples that a text holds. -/
def Samples.parse? (text : String) : Option Samples :=
  (Json.parse? text).bind (tableOf? (tableOf? samplesOf?))

/-- A series as a value. -/
def Series.toJson (s : Series) : Value :=
  .record [("name", .string s.name), ("type", .string s.kind.name),
    ("data", .list (s.rows.map fun row => .list (row.map fun x => .number x.toFloat)))]

/-- A chart as a value. -/
def Chart.toJson (c : Chart) : Value :=
  .record [("title", .string c.title), ("categories", .list (c.categories.map Value.string)),
    ("series", .list (c.series.map Series.toJson))]

/-- The text of a file of charts. -/
def chartsText (cs : List Chart) : String :=
  Json.pretty 0 (.list (cs.map Chart.toJson))

end ScriptMachine.Benchmark
