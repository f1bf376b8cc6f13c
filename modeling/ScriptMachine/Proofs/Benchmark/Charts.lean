import Mathlib.Data.List.Forall2
import Mathlib.Data.List.Sort
import ScriptMachine.Benchmark.Chart

/-!
# Charts and the samples behind them

A chart is drawn of one set of cases, or of two with the same names. Main statements: each row of a
chart stands under the name of the case whose samples it is computed from, and a title gets no chart
exactly if its cases and those of the baseline do not match, or one of them has no samples.
-/

namespace ScriptMachine.Benchmark

/-! ## Tables -/

namespace Table

variable {α : Type} {t u : Table α} {name : String} {a : α}

/-- Names are unique, so a table gives what stands beside a name. -/
theorem get?_eq_some_iff : t.get? name = some a ↔ (name, a) ∈ t.entries := by
  constructor
  · intro h
    obtain ⟨before, after, hentries, -⟩ := List.lookup_eq_some_iff.1 h
    rw [hentries]
    exact List.mem_append_right _ List.mem_cons_self
  · intro h
    obtain ⟨before, after, hentries⟩ := List.append_of_mem h
    refine List.lookup_eq_some_iff.2 ⟨before, after, hentries, fun entry hentry => ?_⟩
    have hrising := t.rising
    rw [hentries, List.map_append, List.map_cons, List.pairwise_append] at hrising
    have hlt := hrising.2.2 _ (List.mem_map_of_mem hentry) _ List.mem_cons_self
    have hne : name ≠ entry.1 := fun heq => String.lt_irrefl name (by rwa [heq] at hlt ⊢)
    simpa using hne

theorem mem_names_iff : name ∈ t.names ↔ ∃ a, t.get? name = some a := by
  simp [names, get?_eq_some_iff]

/-- Two tables with the same names have them in the same order. -/
theorem names_eq_iff : t.names = u.names ↔ ∀ name, name ∈ t.names ↔ name ∈ u.names := by
  constructor
  · intro h name
    rw [h]
  · intro h
    have : Std.Irrefl (α := String) (· < ·) := ⟨String.lt_irrefl⟩
    have : Std.Antisymm (α := String) (· < ·) := ⟨fun _ _ h h' => absurd h' (String.lt_asymm h)⟩
    exact t.rising.eq_of_mem_iff u.rising h

end Table

/-! ## Runs -/

/-- Whether every case has a sample. -/
def Cases.AllSampled (cases : Cases) : Prop :=
  ∀ case samples, cases.get? case = some samples → samples ≠ []

theorem Cases.allSampled_iff {cases : Cases} :
    cases.AllSampled ↔ ∀ entry ∈ cases.entries, entry.2 ≠ [] := by
  simp only [AllSampled, Table.get?_eq_some_iff, Prod.forall]

/-- Runs are the samples of the cases, in order. -/
theorem samples_of_runs {entries : List (String × List Sample)} {rs : List Run}
    (h : runs entries = .ok rs) : rs.map Run.samples = entries.map Prod.snd := by
  induction entries generalizing rs with
  | nil => cases h; rfl
  | cons entry rest ih =>
    obtain ⟨case, samples⟩ := entry
    rw [runs] at h
    split at h
    · cases h
    split at h
    · cases h
    next more hmore =>
      cases h
      rw [List.map_cons, List.map_cons, ih hmore]

/-- There are runs exactly if no case lacks samples. -/
theorem exists_runs_iff {entries : List (String × List Sample)} :
    (∃ rs, runs entries = .ok rs) ↔ ∀ entry ∈ entries, entry.2 ≠ [] := by
  induction entries with
  | nil => simp [runs]
  | cons entry rest ih =>
    obtain ⟨case, samples⟩ := entry
    rw [List.forall_mem_cons, ← ih, runs]
    by_cases hempty : samples = []
    · simp [hempty]
    · cases runs rest <;> simp [hempty]

/-! ## One title -/

/-- The sets of cases that a chart of a title shows, with the names of their series. A title that the
baseline lacks has no cases there. -/
def sides (title : String) (current : Cases) : Option Samples → List (String × Cases)
  | none => [("current", current)]
  | some baseline => [("current", current), ("baseline", (baseline.get? title).getD .empty)]

/-- The kind that all cases of these sets can be drawn in. -/
def kindOf (shown : List (String × Cases)) : Kind :=
  .ofCases (shown.flatMap fun side => side.2.entries.map Prod.snd)

/-- How a series comes from a set of cases. -/
def IsDrawn (kind : Kind) (categories : List String) (s : Series) (side : String × Cases) : Prop :=
  side.2.names = categories ∧ ∃ rs, runs side.2.entries = .ok rs ∧ s = seriesOf side.1 kind rs

theorem checkCases_eq_ok_iff {current baseline : Cases} {u : Unit} :
    checkCases current baseline = .ok u ↔ current.names = baseline.names := by
  unfold checkCases
  split <;> simp [*]

/-- A chart has a series for each set of cases that it shows, all with the same names. -/
theorem drawn_of_ofTitle {title : String} {current : Cases} {baseline : Option Samples}
    {chart : Chart} (h : ofTitle title current baseline = .ok chart) :
    chart.title = title ∧ chart.categories = current.names ∧
      List.Forall₂ (IsDrawn (kindOf (sides title current baseline)) current.names) chart.series
        (sides title current baseline) := by
  cases baseline with
  | none =>
    rw [ofTitle, plain] at h
    split at h
    · cases h
    next rs hrs =>
      cases h
      refine ⟨rfl, rfl, .cons ⟨rfl, rs, hrs, ?_⟩ .nil⟩
      simp [kindOf, sides]
  | some baseline =>
    rw [ofTitle, compared] at h
    split at h
    · cases h
    next hcheck =>
    split at h
    · cases h
    · cases h
    next rs base hrs hbase =>
      cases h
      refine ⟨rfl, rfl, .cons ⟨rfl, rs, hrs, ?_⟩ (.cons ⟨?_, base, hbase, ?_⟩ .nil)⟩
      · simp [kindOf, sides]
      · exact (checkCases_eq_ok_iff.1 hcheck).symm
      · simp [kindOf, sides]

/-- There is a chart of a title exactly if all sets of cases that it shows have the same names, and each
of their cases has a sample. -/
theorem exists_chart_iff {title : String} {current : Cases} {baseline : Option Samples} :
    (∃ chart, ofTitle title current baseline = .ok chart) ↔
      ∀ side ∈ sides title current baseline, side.2.names = current.names ∧ side.2.AllSampled := by
  constructor
  · rintro ⟨chart, h⟩ side hside
    obtain ⟨hlength, hdrawn⟩ := List.forall₂_iff_get.1 (drawn_of_ofTitle h).2.2
    obtain ⟨⟨i, hi⟩, rfl⟩ := List.mem_iff_get.1 hside
    obtain ⟨hnames, rs, hrs, -⟩ := hdrawn i (hlength.symm ▸ hi) hi
    exact ⟨hnames, Cases.allSampled_iff.2 (exists_runs_iff.1 ⟨rs, hrs⟩)⟩
  · intro h
    have hruns : ∀ side ∈ sides title current baseline, ∃ rs, runs side.2.entries = .ok rs :=
      fun side hside => exists_runs_iff.2 (Cases.allSampled_iff.1 (h side hside).2)
    cases baseline with
    | none =>
      obtain ⟨rs, hrs⟩ := hruns ("current", current) List.mem_cons_self
      exact ⟨_, by rw [ofTitle, plain, hrs]⟩
    | some baseline =>
      obtain ⟨rs, hrs⟩ := hruns ("current", current) List.mem_cons_self
      have hmem : ("baseline", (baseline.get? title).getD .empty) ∈
          sides title current (some baseline) := List.mem_cons_of_mem _ List.mem_cons_self
      obtain ⟨base, hbase⟩ := hruns _ hmem
      have hcheck := (checkCases_eq_ok_iff (u := ())).2 (h _ hmem).1.symm
      rw [ofTitle, compared, hcheck]
      simp [hrs, hbase]

/-! ## Alignment -/

/-- A series shows a set of cases: each case has a sample, and under its name stands the one row that is
computed from its samples, of five numbers in a box plot and of two in an error bar. -/
structure Series.Shows (s : Series) (kind : Kind) (categories : List String) (cases : Cases) :
    Prop where
  kind_eq : s.kind = kind
  sampled : cases.AllSampled
  length_eq : s.rows.length = categories.length
  row : ∀ (k : Nat) case, categories[k]? = some case →
    ∃ r : Run, cases.get? case = some r.samples ∧ s.rows[k]? = some (kind.row r)
  size : ∀ row ∈ s.rows, row.length = match kind with
    | .boxplot => 5
    | .errorbar => 2

theorem shows_of_isDrawn {kind : Kind} {categories : List String} {s : Series}
    {side : String × Cases} (h : IsDrawn kind categories s side) :
    s.name = side.1 ∧ s.Shows kind categories side.2 := by
  obtain ⟨rfl, rs, hrs, rfl⟩ := h
  have hsamples := samples_of_runs hrs
  have hlength : rs.length = side.2.entries.length := by simpa using congrArg List.length hsamples
  refine ⟨rfl, rfl, Cases.allSampled_iff.2 (exists_runs_iff.1 ⟨rs, hrs⟩), ?_, fun k case hk => ?_,
    fun row hrow => ?_⟩
  · simp [seriesOf, Table.names, hlength]
  · -- the `k`-th run and the `k`-th name are of one entry
    rw [Table.names, List.getElem?_map, Option.map_eq_some_iff] at hk
    obtain ⟨⟨name, samples⟩, hentry, rfl⟩ := hk
    have hsample := congrArg (·[k]?) hsamples
    simp only [List.getElem?_map, hentry, Option.map_some, Option.map_eq_some_iff] at hsample
    obtain ⟨r, hr, rfl⟩ := hsample
    refine ⟨r, Table.get?_eq_some_iff.2 (List.mem_of_getElem? hentry), ?_⟩
    rw [seriesOf, List.getElem?_map, hr, Option.map_some]
  · obtain ⟨r, -, rfl⟩ := List.mem_map.1 hrow
    cases kind <;> rfl

theorem Kind.ofCases_eq_boxplot_iff {cases : List (List Sample)} :
    Kind.ofCases cases = .boxplot ↔ ∀ samples ∈ cases, 5 ≤ samples.length := by
  by_cases h : cases.all (fun samples => boxplotSamples ≤ samples.length) = true
  · rw [ofCases, if_pos h]
    exact iff_of_true rfl fun samples hs => of_decide_eq_true (List.all_eq_true.1 h samples hs)
  · rw [ofCases, if_neg h]
    refine iff_of_false (by decide) fun h' => h (List.all_eq_true.2 fun samples hs => ?_)
    exact decide_eq_true (h' samples hs)

theorem kindOf_eq_boxplot_iff {shown : List (String × Cases)} :
    kindOf shown = .boxplot ↔ ∀ side ∈ shown, ∀ case samples,
      side.2.get? case = some samples → 5 ≤ samples.length := by
  simp only [kindOf, Kind.ofCases_eq_boxplot_iff, List.mem_flatMap, List.mem_map,
    Table.get?_eq_some_iff]
  constructor
  · exact fun h side hside case samples hmem => h samples ⟨side, hside, _, hmem, rfl⟩
  · rintro h samples ⟨side, hside, ⟨case, _⟩, hmem, rfl⟩
    exact h side hside case _ hmem

theorem get?_of_mem_ofSamples {data : Samples} {baseline : Option Samples} {e : Entry}
    (h : e ∈ ofSamples data baseline) :
    ∃ current, data.get? e.title = some current ∧ e.result = ofTitle e.title current baseline := by
  obtain ⟨⟨title, current⟩, hmem, rfl⟩ := List.mem_map.1 h
  exact ⟨current, Table.get?_eq_some_iff.2 hmem, rfl⟩

theorem titles_ofSamples (data : Samples) (baseline : Option Samples) :
    (ofSamples data baseline).map Entry.title = data.names := by
  rw [ofSamples, List.map_map]
  rfl

/-- Each title has one entry, in the order of the titles. In a chart the names of the cases are in order,
and each set of cases that it shows has a series: the current one, and the baseline's exactly if there is
a baseline. All series are of one kind, a box plot if each of all these cases has five samples or more,
and each of them has one row for each case, computed from the samples of that case, which are some. -/
theorem charts_aligned (data : Samples) (baseline : Option Samples) :
    (ofSamples data baseline).map Entry.title = data.names ∧
    ∀ e ∈ ofSamples data baseline, ∀ chart, e.result = .ok chart →
      ∃ current, data.get? e.title = some current ∧
        chart.title = e.title ∧ chart.categories = current.names ∧
        ∃ kind, (kind = .boxplot ↔ ∀ side ∈ sides e.title current baseline, ∀ case samples,
            side.2.get? case = some samples → 5 ≤ samples.length) ∧
          List.Forall₂ (fun s side => s.name = side.1 ∧ s.Shows kind chart.categories side.2)
            chart.series (sides e.title current baseline) := by
  refine ⟨titles_ofSamples data baseline, fun e he chart hchart => ?_⟩
  obtain ⟨current, hcurrent, hresult⟩ := get?_of_mem_ofSamples he
  obtain ⟨htitle, hcategories, hdrawn⟩ := drawn_of_ofTitle (hresult.symm.trans hchart)
  refine ⟨current, hcurrent, htitle, hcategories, _, kindOf_eq_boxplot_iff, ?_⟩
  rw [hcategories]
  exact hdrawn.imp fun _ _ => shows_of_isDrawn

/-- The cases of one title, one of them with six samples. -/
def startupCases : Cases :=
  ⟨[("fib", [⟨5⟩, ⟨1⟩, ⟨4⟩, ⟨2⟩, ⟨3⟩, ⟨6⟩]), ("hello", [⟨7⟩, ⟨8⟩])], by decide⟩

/-- Samples of this title. -/
def startupSamples : Samples :=
  ⟨[("startup", startupCases)], by decide⟩

theorem startup_aligned :
    ∃ e ∈ ofSamples startupSamples (some startupSamples), ∃ chart, e.result = .ok chart ∧
      chart.categories = ["fib", "hello"] ∧
      chart.series.map Series.name = ["current", "baseline"] ∧
      ∀ s ∈ chart.series, s.kind = .errorbar ∧ s.rows.length = 2 := by
  have hget : startupSamples.get? "startup" = some startupCases := rfl
  have hsampled : startupCases.AllSampled := Cases.allSampled_iff.2 (by decide)
  have hbuilt : ∃ chart, ofTitle "startup" startupCases (some startupSamples) = .ok chart :=
    exists_chart_iff.2 (by simp [sides, hget, hsampled])
  obtain ⟨chart, hchart⟩ := hbuilt
  have hmem : ⟨"startup", .ok chart⟩ ∈ ofSamples startupSamples (some startupSamples) := by
    rw [← hchart]
    exact List.mem_cons_self
  refine ⟨_, hmem, chart, rfl, ?_⟩
  obtain ⟨current, hcurrent, -, hcategories, kind, hkind, hseries⟩ :=
    (charts_aligned startupSamples (some startupSamples)).2 _ hmem chart rfl
  obtain rfl : startupCases = current := Option.some.inj (hget.symm.trans hcurrent)
  have hbar : kind = .errorbar := by
    cases kind with
    | errorbar => rfl
    | boxplot =>
      have hlong := hkind.1 rfl ("current", startupCases) List.mem_cons_self "hello" [⟨7⟩, ⟨8⟩]
        (by decide +kernel)
      exact absurd hlong (by decide)
  have hlength : chart.categories.length = 2 := by rw [hcategories]; rfl
  refine ⟨hcategories, ?_⟩
  generalize chart.series = series at hseries
  match hseries with
  | .cons ⟨hfirst, hshows⟩ (.cons ⟨hsecond, hshows'⟩ .nil) =>
    refine ⟨by rw [List.map_cons, hfirst, List.map_cons, hsecond]; rfl, fun s hs => ?_⟩
    simp only [List.mem_cons, List.not_mem_nil, or_false] at hs
    rcases hs with rfl | rfl
    · exact ⟨hshows.kind_eq.trans hbar, hshows.length_eq.trans hlength⟩
    · exact ⟨hshows'.kind_eq.trans hbar, hshows'.length_eq.trans hlength⟩

/-! ## Mismatches -/

/-- Whether a baseline has a title with the same cases, each with a sample. -/
def Samples.Covers (baseline : Samples) (title : String) (current : Cases) : Prop :=
  ∃ base, baseline.get? title = some base ∧ (∀ case, case ∈ base.names ↔ case ∈ current.names) ∧
    base.AllSampled

/-- The cases that a chart takes from the baseline match those of the title if the baseline covers it, or
if there are none on either side. -/
theorem matches_iff_covers (baseline : Samples) (title : String) (current : Cases) :
    (((baseline.get? title).getD .empty).names = current.names ∧
        Cases.AllSampled ((baseline.get? title).getD .empty)) ↔
      baseline.Covers title current ∨ baseline.get? title = none ∧ current.names = [] := by
  cases hget : baseline.get? title with
  | none =>
    have hempty : Cases.AllSampled .empty := fun _ _ h => nomatch h
    have hcovers : ¬baseline.Covers title current := by simp [Samples.Covers, hget]
    constructor
    · exact fun h => .inr ⟨rfl, h.1.symm⟩
    · rintro (h | ⟨-, h⟩)
      · exact absurd h hcovers
      · exact ⟨h.symm, hempty⟩
  | some base =>
    simp [Samples.Covers, hget, Table.names_eq_iff]

/-- A title has one entry. It is a chart exactly if each case has a sample, and the baseline, where there
is one, has the title with the same cases and samples for each of them. The one exception is a title
without cases: it gets an empty chart also if the baseline lacks it. -/
theorem chart_iff_covered {data : Samples} {title : String} {current : Cases}
    (h : data.get? title = some current) (baseline : Option Samples) :
    ∃ e ∈ ofSamples data baseline, e.title = title ∧
      (∀ e' ∈ ofSamples data baseline, e'.title = title → e' = e) ∧
      ((∃ chart, e.result = .ok chart) ↔ current.AllSampled ∧ ∀ base, baseline = some base →
        base.Covers title current ∨ base.get? title = none ∧ current.names = []) := by
  refine ⟨⟨title, ofTitle title current baseline⟩, ?_, rfl, fun e' he' htitle => ?_, ?_⟩
  · exact List.mem_map.2 ⟨(title, current), Table.get?_eq_some_iff.1 h, rfl⟩
  · obtain ⟨current', hcurrent', hresult⟩ := get?_of_mem_ofSamples he'
    obtain ⟨title', result'⟩ := e'
    obtain rfl : title' = title := htitle
    obtain rfl : current = current' := Option.some.inj (h.symm.trans hcurrent')
    exact congrArg _ hresult
  rw [exists_chart_iff]
  cases baseline with
  | none => simp [sides]
  | some baseline =>
    have hmatches := matches_iff_covers baseline title current
    simpa [sides] using fun _ => hmatches

/-- A baseline in which a case has no samples. -/
def unsampledBaseline : Samples :=
  ⟨[("startup", ⟨[("fib", [⟨1⟩]), ("hello", [])], by decide⟩)], by decide⟩

theorem startup_skipped :
    ∃ e ∈ ofSamples startupSamples (some unsampledBaseline), e.title = "startup" ∧
      ¬∃ chart, e.result = .ok chart := by
  have hget : startupSamples.get? "startup" = some startupCases := rfl
  obtain ⟨e, he, htitle, -, hiff⟩ := chart_iff_covered hget (some unsampledBaseline)
  refine ⟨e, he, htitle, fun hchart => ?_⟩
  rcases (hiff.1 hchart).2 _ rfl with ⟨base, hbase, -, hsampled⟩ | ⟨-, hnone⟩
  · obtain rfl := Option.some.inj (hbase.symm.trans rfl)
    exact hsampled "hello" [] (by decide +kernel) rfl
  · exact absurd hnone (by decide)

/-- A title without cases gets a chart, although the baseline lacks it. -/
theorem caseless_title_charted :
    (Table.empty : Samples).get? "t" = none ∧
      ofSamples ⟨[("t", .empty)], by decide⟩ (some .empty) =
        [⟨"t", .ok ⟨"t", [], [⟨"current", .boxplot, []⟩, ⟨"baseline", .boxplot, []⟩]⟩⟩] :=
  ⟨rfl, rfl⟩

end ScriptMachine.Benchmark
