import ScriptMachine.Benchmark.Table
import ScriptMachine.Benchmark.Sample

/-!
# Charts

A title's cases become a chart: one row a case, for the current samples and for the baseline, where
there is one. All rows of a chart are of one kind. A title whose cases do not match the baseline's,
or that has a case without samples, gets a report in place of a chart.
-/

namespace ScriptMachine.Benchmark

/-- The samples of each case of a title. -/
abbrev Cases := Table (List Sample)

/-- The cases of each title. -/
abbrev Samples := Table Cases

/-- How a case is drawn: as a box plot of five numbers, or as a bar from the smallest value to the
largest. -/
inductive Kind
  | boxplot
  | errorbar
deriving DecidableEq, Repr

namespace Kind

/-- The name of a kind. -/
def name : Kind → String
  | .boxplot => "boxplot"
  | .errorbar => "errorbar"

/-- The samples that a box plot needs. -/
def boxplotSamples : Nat :=
  5

/-- The kind that all of these cases can be drawn in. -/
def ofCases (cases : List (List Sample)) : Kind :=
  if cases.all fun samples => boxplotSamples ≤ samples.length then .boxplot else .errorbar

/-- The row of a case. -/
def row (kind : Kind) (r : Run) : List Sample :=
  match kind with
  | .boxplot => r.fiveNumbers
  | .errorbar => r.range

end Kind

/-- The rows of one set of samples, in the order of the cases. -/
structure Series where
  name : String
  kind : Kind
  rows : List (List Sample)
deriving DecidableEq

/-- A chart. -/
structure Chart where
  title : String
  categories : List String
  series : List Series
deriving DecidableEq

/-- Why there is no chart: cases that only one side has, or a case without samples. -/
inductive Mismatch
  | cases (missing extra : List String)
  | noSamples (case : String)
deriving DecidableEq, Repr

/-- The wording of a cause, for a title. -/
def Mismatch.report (title : String) : Mismatch → String
  | .cases missing extra =>
    title ++ ": case keys differ (missing from baseline: [" ++ String.intercalate ", " missing ++
      "]; only in baseline: [" ++ String.intercalate ", " extra ++ "])"
  | .noSamples case => title ++ ": case \x60" ++ case ++ "\x60 has no samples"

/-! ## Building -/

/-- The cases as runs, or the first case without samples. -/
def runs : List (String × List Sample) → Except Mismatch (List Run)
  | [] => .ok []
  | (case, samples) :: rest =>
    if h : samples = [] then .error (.noSamples case)
    else
      match runs rest with
      | .error e => .error e
      | .ok more => .ok (⟨samples, h⟩ :: more)

/-- The names that are in one list and not in the other. -/
def missingFrom (names others : List String) : List String :=
  names.filter fun name => !others.contains name

/-- Checks that two sets of cases have the same names. -/
def checkCases (current baseline : Cases) : Except Mismatch Unit :=
  if current.names = baseline.names then .ok ()
  else
    .error (.cases (missingFrom current.names baseline.names)
      (missingFrom baseline.names current.names))

/-- A series of runs. -/
def seriesOf (name : String) (kind : Kind) (rs : List Run) : Series :=
  ⟨name, kind, rs.map kind.row⟩

/-- The chart of a title without a baseline. -/
def plain (title : String) (current : Cases) : Except Mismatch Chart :=
  match runs current.entries with
  | .error e => .error e
  | .ok rs =>
    let kind := Kind.ofCases (current.entries.map Prod.snd)
    .ok ⟨title, current.names, [seriesOf "current" kind rs]⟩

/-- The chart of a title with the baseline's samples beside its own. -/
def compared (title : String) (current baseline : Cases) : Except Mismatch Chart :=
  match checkCases current baseline with
  | .error e => .error e
  | .ok () =>
    match runs current.entries, runs baseline.entries with
    | .error e, _ => .error e
    | .ok _, .error e => .error e
    | .ok rs, .ok base =>
      let kind := Kind.ofCases ((current.entries ++ baseline.entries).map Prod.snd)
      .ok ⟨title, current.names, [seriesOf "current" kind rs, seriesOf "baseline" kind base]⟩

/-- The chart of a title. A title that the baseline lacks has no cases there. -/
def ofTitle (title : String) (current : Cases) : (baseline : Option Samples) → Except Mismatch Chart
  | none => plain title current
  | some baseline => compared title current ((baseline.get? title).getD .empty)

/-- A title with its chart, or with the cause why there is none. -/
structure Entry where
  title : String
  result : Except Mismatch Chart

/-- One entry for each title, in order. -/
def ofSamples (data : Samples) (baseline : Option Samples) : List Entry :=
  data.entries.map fun (title, cases) => ⟨title, ofTitle title cases baseline⟩

/-- The charts among entries. -/
def charts (entries : List Entry) : List Chart :=
  entries.filterMap fun e => e.result.toOption

/-- The reports among entries. -/
def reports (entries : List Entry) : List String :=
  entries.filterMap fun e =>
    match e.result with
    | .ok _ => none
    | .error cause => some (cause.report e.title)

end ScriptMachine.Benchmark
