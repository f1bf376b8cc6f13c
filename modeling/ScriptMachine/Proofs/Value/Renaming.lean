import ScriptMachine.Machine.Arithmetic
import ScriptMachine.Machine.Display
import ScriptMachine.Proofs.Value.Growth
import Mathlib.Data.List.Forall2

/-!
# Values under other handles

Two heaps may hold the same strings and functions under different handles. Which functions belong
together is given; strings belong together when they have one content, and all other values are the
same. Nothing that a program can do with values depends on the handles.
-/

namespace ScriptMachine

/-- Two values that mean the same in their heaps, where `r` says which functions belong together. -/
inductive Value.Renamed (r : Nat → Nat → Prop) (h k : Heap) : Value → Value → Prop
  | same (v : Value) (hs : v.kind ≠ .string) (hf : v.kind ≠ .function) : Renamed r h k v v
  | string {i j : UInt32} {s : String} (hi : h.string? i = some s) (hj : k.string? j = some s) :
    Renamed r h k (.string i) (.string j)
  | function {i j : UInt32} (hr : r i.toNat j.toNat) : Renamed r h k (.function i) (.function j)

/-- Each function belongs to one other, on either side. -/
def OneToOne (r : Nat → Nat → Prop) : Prop :=
  ∀ i j i' j', r i j → r i' j' → (i = i' ↔ j = j')

/-- Functions that belong together look the same. -/
def ShownAlike (r : Nat → Nat → Prop) (h k : Heap) : Prop :=
  ∀ i j, r i j → ∃ f g, h.functions[i]? = some f ∧ k.functions[j]? = some g ∧
    f.name = g.name ∧ f.arity = g.arity

namespace Value.Renamed

variable {r r' : Nat → Nat → Prop} {h k h' k' : Heap} {v w v' w' : Value}

theorem int (n : Int) : Renamed r h k (.int n) (.int n) :=
  .same _ (by simp) (by simp)

theorem nil : Renamed r h k .nil .nil :=
  .same _ (by simp) (by simp)

theorem bool (b : Bool) : Renamed r h k (.bool b) (.bool b) :=
  .same _ (by cases b <;> simp) (by cases b <;> simp)

theorem primitive (i : UInt32) : Renamed r h k (.primitive i) (.primitive i) :=
  .same _ (by simp) (by simp)

theorem empty : Renamed r h k .empty .empty :=
  .same _ (by simp) (by simp)

theorem mono (a : Renamed r h k v w) (hr : ∀ i j, r i j → r' i j) (hg : h.Grows h')
    (kg : k.Grows k') : Renamed r' h' k' v w := by
  cases a with
  | same v hs hf => exact .same v hs hf
  | string hi hj => exact .string (hg.string? hi) (kg.string? hj)
  | function hij => exact .function (hr _ _ hij)

theorem grows (a : Renamed r h k v w) (hg : h.Grows h') (kg : k.Grows k') : Renamed r h' k' v w :=
  a.mono (fun _ _ hr => hr) hg kg

/-- The second heap may be looked at first. -/
theorem flip (a : Renamed r h k v w) : Renamed (fun j i => r i j) k h w v := by
  cases a with
  | same v hs hf => exact .same v hs hf
  | string hi hj => exact .string hj hi
  | function hr => exact .function hr

/-- A live value stands for itself where its function does. -/
theorem of_live {primitives : Nat} (hv : v.Live h primitives)
    (hr : ∀ i < h.functions.size, r i i) : Renamed r h h v v := by
  cases hv with
  | int n => exact .int n
  | nil => exact .nil
  | bool b => exact .bool b
  | string i hi =>
    obtain ⟨s, hs⟩ := Heap.string?_of_lt hi
    exact .string hs hs
  | function i hi => exact .function (hr _ hi)
  | primitive i hi => exact .primitive i

theorem kind_eq (a : Renamed r h k v w) : v.kind = w.kind := by
  cases a with
  | same v => rfl
  | string => simp
  | function => simp

theorem isFalsey_eq (a : Renamed r h k v w) : v.isFalsey = w.isFalsey := by
  rw [isFalsey, isFalsey, a.kind_eq]

theorem asBool?_eq (a : Renamed r h k v w) : v.asBool? = w.asBool? := by
  rw [asBool?, asBool?, a.kind_eq]

theorem typeName_eq (a : Renamed r h k v w) : v.typeName = w.typeName := by
  rw [typeName, typeName, a.kind_eq]

theorem asInt?_eq (a : Renamed r h k v w) : v.asInt? = w.asInt? := by
  cases a with
  | same v => rfl
  | string => simp
  | function => simp

/-- Renamed strings have one content. -/
theorem string?_eq (a : Renamed r h k v w) (hv : v.kind = .string) :
    ∃ s, h.string? v.handle = some s ∧ k.string? w.handle = some s := by
  cases a with
  | same v hs => exact absurd hv hs
  | string hi hj => exact ⟨_, by simpa using hi, by simpa using hj⟩
  | function => simp at hv

/-- Renamed functions belong together. -/
theorem function_related (a : Renamed r h k v w) (hv : v.kind = .function) :
    r v.handle.toNat w.handle.toNat := by
  cases a with
  | same v _ hf => exact absurd hv hf
  | string => simp at hv
  | function hr => simpa using hr

theorem eq_of_kind (a : Renamed r h k v w) (hs : v.kind ≠ .string) (hf : v.kind ≠ .function) :
    v = w := by
  cases a with
  | same v => rfl
  | string => simp at hs
  | function => simp at hf

/-- Renaming pairs values off: what one heap holds equal, the other does. -/
theorem same_iff (hr : OneToOne r) (a : Renamed r h k v w) (b : Renamed r h k v' w')
    (hv : v.kind ≠ .string) : v = v' ↔ w = w' := by
  by_cases hkind : v.kind = v'.kind
  · cases a with
    | same v _ hf =>
      have := b.eq_of_kind (by rwa [← hkind]) (by rwa [← hkind])
      rw [this]
    | string => simp at hv
    | @function i j hij =>
      cases b with
      | same v' _ hf => simp [← hkind] at hf
      | string => simp at hkind
      | @function i' j' hij' =>
        have hiff := hr _ _ _ _ hij hij'
        constructor
        · intro e
          rw [UInt32.toNat_inj.1 (hiff.1 (congrArg UInt32.toNat (function_inj e)))]
        · intro e
          rw [UInt32.toNat_inj.1 (hiff.2 (congrArg UInt32.toNat (function_inj e)))]
  · have hv' : v ≠ v' := fun e => hkind (congrArg kind e)
    have hw' : w ≠ w' := fun e => hkind (by rw [a.kind_eq, b.kind_eq, e])
    exact iff_of_false hv' hw'

end Value.Renamed

/-! ## What does not depend on handles -/

section
variable {r : Nat → Nat → Prop} {h k : Heap} {v w v' w' : Value}

theorem content?_string {h : Heap} (hv : v.kind = .string) :
    h.content? v = h.string? v.handle := by
  rw [Heap.content?, Value.asString?, if_pos hv, Option.bind_some]

theorem content?_of_ne {h : Heap} (hv : v.kind ≠ .string) : h.content? v = none := by
  rw [Heap.content?, Value.asString?, if_neg hv, Option.bind_none]

theorem Value.Renamed.content?_eq (a : v.Renamed r h k w) : h.content? v = k.content? w := by
  by_cases hv : v.kind = .string
  · obtain ⟨s, hs, ht⟩ := a.string?_eq hv
    rw [content?_string hv, content?_string (a.kind_eq ▸ hv), hs, ht]
  · rw [content?_of_ne hv, content?_of_ne (a.kind_eq ▸ hv)]

/-- A string equals the strings of the same content and nothing else. -/
theorem sameValue_string {h : Heap} {s : String} (hv : h.content? v = some s) :
    Machine.sameValue h v v' = decide (h.content? v' = some s) := by
  unfold Machine.sameValue
  rw [hv]
  by_cases he : v = v'
  · rw [← he, hv]
    simp
  · have hbeq : (v == v') = false := by simpa using he
    rw [hbeq, Bool.false_or]
    cases h.content? v' with
    | none => simp
    | some t =>
      by_cases hst : s = t
      · simp [hst]
      · simp [hst, Ne.symm hst]

/-- What is no string equals itself and nothing else. -/
theorem sameValue_of_ne {h : Heap} (hv : v.kind ≠ .string) :
    Machine.sameValue h v v' = (v == v') := by
  simp [Machine.sameValue, content?_of_ne hv]

theorem Value.Renamed.sameValue_eq (hr : OneToOne r) (a : v.Renamed r h k w)
    (b : v'.Renamed r h k w') : Machine.sameValue h v v' = Machine.sameValue k w w' := by
  by_cases hv : v.kind = .string
  · obtain ⟨s, hs, -⟩ := a.string?_eq hv
    have hvs : h.content? v = some s := by rw [content?_string hv, hs]
    rw [sameValue_string hvs, sameValue_string (a.content?_eq ▸ hvs), b.content?_eq]
  · rw [sameValue_of_ne hv, sameValue_of_ne (a.kind_eq ▸ hv), Bool.eq_iff_iff, beq_iff_eq,
      beq_iff_eq]
    exact a.same_iff hr b hv

/-- Renamed values look the same. -/
theorem Value.Renamed.render_eq (a : v.Renamed r h k w) (hk : ShownAlike r h k)
    (hv : v.kind ≠ .string) (name? : Nat → Option String) :
    Legend.render ⟨h, name?⟩ v = Legend.render ⟨k, name?⟩ w := by
  cases a with
  | same v _ hf => cases hkind : v.kind <;> simp_all [Legend.render]
  | string => simp at hv
  | function hr =>
    obtain ⟨f, g, hf, hg, hname, harity⟩ := hk _ _ hr
    simp [Legend.render, Heap.function?, hf, hg, hname, harity]

theorem Value.Renamed.display_eq (a : v.Renamed r h k w) (hk : ShownAlike r h k)
    (name? : Nat → Option String) :
    Legend.display ⟨h, name?⟩ v = Legend.display ⟨k, name?⟩ w := by
  unfold Legend.display
  by_cases hv : v.kind = .string
  · obtain ⟨s, hs, ht⟩ := a.string?_eq hv
    rw [if_pos hv, if_pos (a.kind_eq ▸ hv), hs, ht]
  · rw [if_neg hv, if_neg (a.kind_eq ▸ hv)]
    exact a.render_eq hk hv name?

theorem Value.Renamed.repr_eq (a : v.Renamed r h k w) (hk : ShownAlike r h k)
    (name? : Nat → Option String) : Legend.repr ⟨h, name?⟩ v = Legend.repr ⟨k, name?⟩ w := by
  unfold Legend.repr
  by_cases hv : v.kind = .string
  · obtain ⟨s, hs, ht⟩ := a.string?_eq hv
    rw [if_pos hv, if_pos (a.kind_eq ▸ hv), hs, ht]
  · rw [if_neg hv, if_neg (a.kind_eq ▸ hv)]
    exact a.render_eq hk hv name?

end

/-! ## Operands -/

namespace Machine

open Bytecode

variable {r : Nat → Nat → Prop} {h k : Heap} {v w v' w' : Value} {op : Opcode}

theorem intOperands_renamed (hv : v.Renamed r h k w) (hv' : v'.Renamed r h k w') :
    intOperands op v v' = intOperands op w w' := by
  unfold intOperands
  rw [hv.asInt?_eq, hv'.asInt?_eq, hv.kind_eq, hv'.kind_eq]

theorem bothStrings_renamed (hv : v.Renamed r h k w) (hv' : v'.Renamed r h k w') :
    bothStrings v v' = bothStrings w w' := by
  rw [bothStrings, bothStrings, hv.kind_eq, hv'.kind_eq]

theorem stringOperands_renamed (hv : v.Renamed r h k w) (hv' : v'.Renamed r h k w')
    (hs : bothStrings v v' = true) :
    ∃ s t, stringOperands h v v' = .ok (s, t) ∧ stringOperands k w w' = .ok (s, t) := by
  have hkinds : v.kind = .string ∧ v'.kind = .string := by simpa [bothStrings] using hs
  obtain ⟨s, hs₁, hs₂⟩ := hv.string?_eq hkinds.1
  obtain ⟨t, ht₁, ht₂⟩ := hv'.string?_eq hkinds.2
  exact ⟨s, t, by simp only [stringOperands, hs₁, ht₁], by simp only [stringOperands, hs₂, ht₂]⟩

theorem order_renamed (hv : v.Renamed r h k w) (hv' : v'.Renamed r h k w') :
    order h op v v' = order k op w w' := by
  unfold order
  rw [intOperands_renamed hv hv', ← bothStrings_renamed hv hv']
  split_ifs with hs
  · obtain ⟨s, t, h₁, h₂⟩ := stringOperands_renamed hv hv' hs
    rw [h₁, h₂]
  · rfl

theorem unaryResult_renamed (hv : v.Renamed r h k w) : unaryResult op v = unaryResult op w := by
  unfold unaryResult
  rw [hv.isFalsey_eq, intOperands_renamed hv (.int 0)]

end Machine

end ScriptMachine
