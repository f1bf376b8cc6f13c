import ScriptMachine.Proofs.Value.Renaming

/-!
# Values that are alike in two heaps

Two heaps may differ in where their strings stand, and the second may hold some functions more, all
in one stretch. Values are alike when they are the same but for their handles: two strings with one
content, or two functions at matching places. Nothing that a program can do with values tells such
heaps apart.
-/

namespace ScriptMachine

/-- Where the functions of a heap stand in one that holds `gap` functions more, from `start` on. -/
structure Shift where
  start : Nat
  gap : Nat

namespace Shift

/-- The place in the second heap of the function at `i` in the first. -/
def place (ρ : Shift) (i : Nat) : Nat :=
  if i < ρ.start then i else i + ρ.gap

theorem place_of_lt {ρ : Shift} {i : Nat} (h : i < ρ.start) : ρ.place i = i :=
  if_pos h

theorem place_of_le {ρ : Shift} {i : Nat} (h : ρ.start ≤ i) : ρ.place i = i + ρ.gap :=
  if_neg (by omega)

theorem place_inj {ρ : Shift} {i j : Nat} (h : ρ.place i = ρ.place j) : i = j := by
  unfold place at h
  split_ifs at h <;> omega

end Shift

/-! ## Alike values -/

/-- Two values that mean the same in their heaps. -/
inductive Value.Alike (ρ : Shift) (h k : Heap) : Value → Value → Prop
  | same (v : Value) (hs : v.kind ≠ .string) (hf : v.kind ≠ .function) : Alike ρ h k v v
  | string {i j : UInt32} {s : String} (hi : h.string? i = some s) (hj : k.string? j = some s) :
    Alike ρ h k (.string i) (.string j)
  | function {i j : UInt32} (hi : i.toNat < h.functions.size) (hj : j.toNat = ρ.place i.toNat) :
    Alike ρ h k (.function i) (.function j)

/-- The functions at matching places, of `n` functions. -/
def Shift.Joins (ρ : Shift) (n i j : Nat) : Prop :=
  i < n ∧ j = ρ.place i

theorem Shift.joins_oneToOne (ρ : Shift) (n : Nat) : OneToOne (ρ.Joins n) := by
  rintro i j i' j' ⟨-, rfl⟩ ⟨-, rfl⟩
  exact ⟨congrArg ρ.place, ρ.place_inj⟩

namespace Value.Alike

variable {ρ : Shift} {h k h' k' : Heap} {v w v' w' : Value}

/-- Alike values are renamed ones. -/
theorem renamed (a : Alike ρ h k v w) : v.Renamed (ρ.Joins h.functions.size) h k w := by
  cases a with
  | same v hs hf => exact .same v hs hf
  | string hi hj => exact .string hi hj
  | function hi hj => exact .function ⟨hi, hj⟩

theorem of_renamed (a : v.Renamed (ρ.Joins h.functions.size) h k w) : Alike ρ h k v w := by
  cases a with
  | same v hs hf => exact .same v hs hf
  | string hi hj => exact .string hi hj
  | function hr => exact .function hr.1 hr.2

theorem int (n : Int) : Alike ρ h k (.int n) (.int n) :=
  .of_renamed (.int n)

theorem nil : Alike ρ h k .nil .nil :=
  .of_renamed .nil

theorem bool (b : Bool) : Alike ρ h k (.bool b) (.bool b) :=
  .of_renamed (.bool b)

theorem primitive (i : UInt32) : Alike ρ h k (.primitive i) (.primitive i) :=
  .of_renamed (.primitive i)

theorem kind_eq (a : Alike ρ h k v w) : v.kind = w.kind :=
  a.renamed.kind_eq

theorem typeName_eq (a : Alike ρ h k v w) : v.typeName = w.typeName :=
  a.renamed.typeName_eq

theorem grows (a : Alike ρ h k v w) (hg : h.Grows h') (kg : k.Grows k') : Alike ρ h' k' v w :=
  .of_renamed (a.renamed.mono (fun _ _ hr => ⟨hr.1.trans_le hg.functions_size, hr.2⟩) hg kg)

theorem isFalsey_eq (a : Alike ρ h k v w) : v.isFalsey = w.isFalsey :=
  a.renamed.isFalsey_eq

/-- Alike functions stand at matching places. -/
theorem function_place (a : Alike ρ h k v w) (hv : v.kind = .function) :
    v.handle.toNat < h.functions.size ∧ w.handle.toNat = ρ.place v.handle.toNat :=
  a.renamed.function_related hv

theorem eq_of_kind (a : Alike ρ h k v w) (hs : v.kind ≠ .string) (hf : v.kind ≠ .function) :
    v = w :=
  a.renamed.eq_of_kind hs hf

end Value.Alike

/-! ## Alike heaps -/

/-- Arrays that hold alike values. -/
def AlikeArrays (ρ : Shift) (h k : Heap) (xs ys : Array Value) : Prop :=
  ∀ i : Nat, Option.Rel (Value.Alike ρ h k) xs[i]? ys[i]?

/-- Functions that are the same but for the handles among their constants. -/
structure Function.Alike (ρ : Shift) (h k : Heap) (f g : Function) : Prop where
  name : f.name = g.name
  arity : f.arity = g.arity
  slots : f.slots = g.slots
  code : f.code = g.code
  constants : AlikeArrays ρ h k f.constants g.constants

/-- The second heap holds no fewer strings, and alike functions at the places that `ρ` gives, with a
gap between them. -/
structure Heap.Alike (ρ : Shift) (h k : Heap) : Prop where
  strings_le : h.strings.size ≤ k.strings.size
  start_le : ρ.start ≤ h.functions.size
  functions_size : k.functions.size = h.functions.size + ρ.gap
  functions : ∀ (i : Nat) (f : Function), h.functions[i]? = some f →
    ∃ g, k.functions[ρ.place i]? = some g ∧ f.Alike ρ h k g

theorem rel_mono {α β : Type} {R S : α → β → Prop} {x : Option α} {y : Option β}
    (hRS : ∀ a b, R a b → S a b) (h : Option.Rel R x y) : Option.Rel S x y := by
  cases h with
  | none => exact .none
  | some h => exact .some (hRS _ _ h)

theorem rel_none_iff {α β : Type} {R : α → β → Prop} {x : Option α} {y : Option β}
    (h : Option.Rel R x y) : x = none ↔ y = none := by
  cases h with
  | none => simp
  | some h => simp

section
variable {ρ : Shift} {h k h' k' : Heap} {xs ys : Array Value}

theorem AlikeArrays.grows (a : AlikeArrays ρ h k xs ys) (hg : h.Grows h') (kg : k.Grows k') :
    AlikeArrays ρ h' k' xs ys :=
  fun i => rel_mono (fun _ _ hv => hv.grows hg kg) (a i)

theorem AlikeArrays.size_eq (a : AlikeArrays ρ h k xs ys) : xs.size = ys.size := by
  have hiff : ∀ i : Nat, xs[i]? = none ↔ ys[i]? = none := fun i => rel_none_iff (a i)
  simp only [Array.getElem?_eq_none_iff] at hiff
  have h₁ := (hiff xs.size).1 (le_refl _)
  have h₂ := (hiff ys.size).2 (le_refl _)
  omega

theorem AlikeArrays.get (a : AlikeArrays ρ h k xs ys) {i : Nat} (hx : i < xs.size)
    (hy : i < ys.size) : Value.Alike ρ h k xs[i] ys[i] := by
  have := a i
  rw [Array.getElem?_eq_getElem hx, Array.getElem?_eq_getElem hy] at this
  cases this with
  | some hv => exact hv

theorem AlikeArrays.extract (a : AlikeArrays ρ h k xs ys) (i j : Nat) :
    List.Forall₂ (Value.Alike ρ h k) (xs.extract i j).toList (ys.extract i j).toList := by
  rw [List.forall₂_iff_get]
  have hsize := a.size_eq
  refine ⟨by simp [hsize], fun l h₁ h₂ => ?_⟩
  simp only [List.get_eq_getElem, Array.getElem_toList, Array.getElem_extract]
  exact a.get _ _

theorem Function.Alike.grows {f g : Function} (a : f.Alike ρ h k g) (hg : h.Grows h')
    (kg : k.Grows k') : f.Alike ρ h' k' g :=
  ⟨a.name, a.arity, a.slots, a.code, a.constants.grows hg kg⟩

theorem Heap.Alike.addStrings (a : h.Alike ρ k) (hadd : h.AddsStrings h') (kadd : k.AddsStrings k')
    (hle : h'.strings.size ≤ k'.strings.size) : h'.Alike ρ k' where
  strings_le := hle
  start_le := by
    rw [hadd.functions]
    exact a.start_le
  functions_size := by
    rw [hadd.functions, kadd.functions]
    exact a.functions_size
  functions := by
    intro i f hf
    rw [hadd.functions] at hf
    obtain ⟨g, hg, hfg⟩ := a.functions i f hf
    exact ⟨g, by rwa [kadd.functions], hfg.grows hadd.grows kadd.grows⟩

theorem Heap.Alike.function? (a : h.Alike ρ k) {i j : UInt32} (hi : i.toNat < h.functions.size)
    (hj : j.toNat = ρ.place i.toNat) :
    ∃ f g, h.function? i = some f ∧ k.function? j = some g ∧ f.Alike ρ h k g := by
  obtain ⟨f, hf⟩ := Heap.function?_of_lt hi
  obtain ⟨g, hg, hfg⟩ := a.functions _ f hf
  refine ⟨f, g, hf, ?_, hfg⟩
  rwa [Heap.function?, hj]

end

/-! ## What cannot tell alike values apart -/

section
variable {ρ : Shift} {h k : Heap} {v w v' w' : Value}

theorem Heap.Alike.shownAlike (a : h.Alike ρ k) : ShownAlike (ρ.Joins h.functions.size) h k := by
  rintro i j ⟨hi, rfl⟩
  obtain ⟨g, hg, hfg⟩ := a.functions i _ (Array.getElem?_eq_getElem hi)
  exact ⟨_, g, Array.getElem?_eq_getElem hi, hg, hfg.name, hfg.arity⟩

theorem Value.Alike.sameValue_eq (a : v.Alike ρ h k w) (b : v'.Alike ρ h k w') :
    Machine.sameValue h v v' = Machine.sameValue k w w' :=
  a.renamed.sameValue_eq (ρ.joins_oneToOne _) b.renamed

/-- Alike values look the same. -/
theorem Value.Alike.repr_eq (a : v.Alike ρ h k w) (hk : h.Alike ρ k)
    (name? : Nat → Option String) : Legend.repr ⟨h, name?⟩ v = Legend.repr ⟨k, name?⟩ w :=
  a.renamed.repr_eq hk.shownAlike name?

end

end ScriptMachine
