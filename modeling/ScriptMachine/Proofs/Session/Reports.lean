import ScriptMachine.Proofs.Compile.Definitions
import ScriptMachine.Proofs.Session.Immutable
import ScriptMachine.Proofs.Source.Numerals

/-!
# Reports on turns

What a turn reports is what it has done. The bindings are the names that the code has defined, each
with the value that its slot holds now, and the value is that of an expression at the end of the code,
as evaluation gives it after all the rest.
-/

namespace ScriptMachine

open Source Bytecode Compile Evaluation Link Simulation Session

/-! ## Data as reports show them -/

/-- A datum as reports show it: texts stand in quotes. -/
def Evaluation.Datum.repr : Datum → String
  | .text s => Text.quote s
  | d => d.display

/-- What a report says of a datum. -/
def Evaluation.Datum.shown (d : Datum) : Shown :=
  ⟨d.kind.typeName, d.repr⟩

namespace Simulation

variable {σ : Slots} {n : Nat} {heap : Heap} {v : Value} {d : Datum}

/-- A value is reported as its datum is. -/
theorem Stands.repr_eq (h : Stands σ n heap v d) :
    Legend.repr ⟨heap, Registry.standard.name?⟩ v = d.repr := by
  have hdisplay := h.display_eq
  unfold Legend.display at hdisplay
  unfold Legend.repr
  cases h with
  | text hs => simp [Datum.repr, hs]
  | bool b => cases b <;> exact hdisplay
  | _ => simpa [Datum.repr] using hdisplay

theorem Stands.shown_eq {t : Session} (h : Stands σ n t.image.heap v d)
    (hprimitives : t.image.primitives = .standard) : t.shown v = d.shown := by
  show (⟨v.typeName, Legend.repr ⟨t.image.heap, t.image.primitives.name?⟩ v⟩ : Shown) = _
  rw [hprimitives, h.typeName_eq, h.repr_eq]
  rfl

end Simulation

namespace Evaluation

variable {k : Nat} {names : Names} {s : Store}

end Evaluation

namespace Session

variable {s t : Session} {f : Fragment} {c : Compiled} {b : Binding} {d : Definition}

section

variable {linker : Linker} {unit : LinkedUnit} {image : Image} {bindings : List Binding}
  {value : Option Shown} {σ : Slots} {held : Nat → Option Datum}

/-- The report of a run that has come to its end: the bindings are those of the definitions that were
made, and the value is that of the evaluation. -/
theorem RanFragment.report (h : s.Standard) (hmodels : Models σ s.names s.image held)
    (hran : s.RanFragment f c linker unit image (.evaluated bindings value, t))
    (hroom : t.image.heap.strings.size ≤ handleCount) :
    t.names = s.names.commit c.definitions ∧ bindings = c.definitions.filterMap t.binding? ∧
      ∃ k d st, evaluate k s.names f ⟨[], held, ⟨s.output, none⟩⟩ = .ok d st ∧
        value = if c.yieldsValue then some d.shown else none := by
  obtain ⟨-, hprimitives, σ', result, hfollowed, hfinish⟩ := hran.follows h hmodels
  have hstandard : image.primitives = .standard := hprimitives.trans h.primitives
  cases result with
  | error e o => cases hfinish
  | ok v o =>
    cases v with
    | none => cases hfinish
    | some v =>
      obtain ⟨table, -, -, hcommit⟩ := commit_writes { s with
        linker := linker, image := { image with heap := o.heap }, output := o.sink.text }
        (.ofCompiled c) v o.pending
      have hreport := hfinish.trans hcommit
      cases hreport
      have hends := hfollowed.ends (by simp)
      cases hends with
      | limit hover =>
        cases hover with
        | full hfull => exact absurd hfull (Nat.not_lt.2 hroom)
      | @value k d st _ _ heval hv _ =>
        refine ⟨rfl, rfl, k, d, st, heval, ?_⟩
        rw [hv.shown_eq hstandard]
        rfl

end

end Session
end ScriptMachine
