import ScriptMachine.Proofs.Value.Tags

/-!
# Growth of the heap

A heap grows when strings and functions are added behind those that are there. A live value is one
that a constructor builds, other than the empty one, and whose handle leads to something; it stays
live while the heap grows.
-/

namespace ScriptMachine

/-- The most objects of one sort that handles can tell apart. -/
def handleCount : Nat :=
  2 ^ 32

/-! ## Growth -/

/-- `new` holds all that `old` holds, under the same handles. -/
structure Heap.Grows (old new : Heap) : Prop where
  strings : ∀ (i : Nat) (s : String), old.strings[i]? = some s → new.strings[i]? = some s
  functions : ∀ (i : Nat) (f : Function), old.functions[i]? = some f → new.functions[i]? = some f

namespace Heap

theorem Grows.refl (h : Heap) : h.Grows h :=
  ⟨fun _ _ hs => hs, fun _ _ hf => hf⟩

theorem Grows.trans {g h k : Heap} (h₁ : g.Grows h) (h₂ : h.Grows k) : g.Grows k :=
  ⟨fun i s hs => h₂.strings i s (h₁.strings i s hs),
    fun i f hf => h₂.functions i f (h₁.functions i f hf)⟩

theorem size_le_of_getElem? {α : Type} {xs ys : Array α}
    (h : ∀ (i : Nat) (x : α), xs[i]? = some x → ys[i]? = some x) : xs.size ≤ ys.size := by
  by_contra hlt
  have hi : ys.size < xs.size := by omega
  have := h ys.size xs[ys.size] (Array.getElem?_eq_getElem hi)
  simp at this

theorem Grows.strings_size {old new : Heap} (h : old.Grows new) :
    old.strings.size ≤ new.strings.size :=
  size_le_of_getElem? h.strings

theorem Grows.functions_size {old new : Heap} (h : old.Grows new) :
    old.functions.size ≤ new.functions.size :=
  size_le_of_getElem? h.functions

theorem Grows.string? {old new : Heap} (h : old.Grows new) {i : UInt32} {s : String}
    (hs : old.string? i = some s) : new.string? i = some s :=
  h.strings _ _ hs

theorem Grows.function? {old new : Heap} (h : old.Grows new) {i : UInt32} {f : Function}
    (hf : old.function? i = some f) : new.function? i = some f :=
  h.functions _ _ hf

theorem grows_of_append {old new : Heap} {ss : Array String} {fs : Array Function}
    (hs : new.strings = old.strings ++ ss) (hf : new.functions = old.functions ++ fs) :
    old.Grows new := by
  constructor
  · intro i s h
    have hi := (Array.getElem?_eq_some_iff.1 h).1
    rw [hs, Array.getElem?_append_left hi, h]
  · intro i f h
    have hi := (Array.getElem?_eq_some_iff.1 h).1
    rw [hf, Array.getElem?_append_left hi, h]

/-! ## Storing a string -/

@[simp] theorem allocString_strings (h : Heap) (s : String) :
    (h.allocString s).2.strings = h.strings.push s := rfl

@[simp] theorem allocString_functions (h : Heap) (s : String) :
    (h.allocString s).2.functions = h.functions := rfl

@[simp] theorem allocString_handle (h : Heap) (s : String) :
    (h.allocString s).1 = UInt32.ofNat h.strings.size := rfl

theorem grows_allocString (h : Heap) (s : String) : h.Grows (h.allocString s).2 := by
  apply grows_of_append
  · show h.strings.push s = h.strings ++ #[s]
    simp
  · show h.functions = h.functions ++ #[]
    simp

/-- The handle of a stored string leads to a string, even where the count of handles wraps. -/
theorem allocString_handle_lt (h : Heap) (s : String) :
    (h.allocString s).1.toNat < (h.allocString s).2.strings.size := by
  simp only [allocString_handle, allocString_strings, Array.size_push, UInt32.toNat_ofNat']
  exact Nat.lt_succ_of_le (Nat.mod_le _ _)

/-- The handle of a stored string leads to it as long as the handles have not wrapped. -/
theorem string?_allocString {h : Heap} (s : String) (hsize : h.strings.size < 2 ^ 32) :
    (h.allocString s).2.string? (h.allocString s).1 = some s := by
  simp only [string?, allocString_handle, allocString_strings, UInt32.toNat_ofNat']
  rw [Nat.mod_eq_of_lt hsize]
  simp

/-- `new` holds what `old` holds, and perhaps more strings. -/
structure AddsStrings (old new : Heap) : Prop where
  grows : old.Grows new
  functions : new.functions = old.functions

theorem AddsStrings.refl (h : Heap) : h.AddsStrings h :=
  ⟨.refl h, rfl⟩

theorem AddsStrings.trans {g h k : Heap} (h₁ : g.AddsStrings h) (h₂ : h.AddsStrings k) :
    g.AddsStrings k :=
  ⟨h₁.grows.trans h₂.grows, h₂.functions.trans h₁.functions⟩

theorem addsStrings_allocString (h : Heap) (s : String) : h.AddsStrings (h.allocString s).2 :=
  ⟨grows_allocString h s, rfl⟩

end Heap

/-! ## Live values -/

/-- A value that a constructor builds, other than the empty one, and whose handle leads to something
in the heap or among this number of primitives. -/
inductive Value.Live (heap : Heap) (primitives : Nat) : Value → Prop
  | int (n : Int) : Live heap primitives (.int n)
  | nil : Live heap primitives .nil
  | bool (b : Bool) : Live heap primitives (.bool b)
  | string (h : UInt32) (hh : h.toNat < heap.strings.size) : Live heap primitives (.string h)
  | function (h : UInt32) (hh : h.toNat < heap.functions.size) : Live heap primitives (.function h)
  | primitive (i : UInt32) (hi : i.toNat < primitives) : Live heap primitives (.primitive i)

namespace Value.Live

variable {heap heap' : Heap} {primitives : Nat} {v : Value}

theorem grows (h : v.Live heap primitives) (hg : heap.Grows heap') : v.Live heap' primitives := by
  cases h with
  | int n => exact .int n
  | nil => exact .nil
  | bool b => exact .bool b
  | string h hh => exact .string h (lt_of_lt_of_le hh hg.strings_size)
  | function h hh => exact .function h (lt_of_lt_of_le hh hg.functions_size)
  | primitive i hi => exact .primitive i hi

theorem kind_ne_empty (h : v.Live heap primitives) : v.kind ≠ .empty := by
  cases h with
  | bool b => cases b <;> simp
  | _ => simp

theorem string_lt (h : v.Live heap primitives) (hk : v.kind = .string) :
    v.handle.toNat < heap.strings.size := by
  cases h with
  | bool b => cases b <;> simp at hk
  | string h hh => simpa using hh
  | _ => simp at hk

theorem function_lt (h : v.Live heap primitives) (hk : v.kind = .function) :
    v.handle.toNat < heap.functions.size := by
  cases h with
  | bool b => cases b <;> simp at hk
  | function h hh => simpa using hh
  | _ => simp at hk

theorem primitive_lt (h : v.Live heap primitives) (hk : v.kind = .primitive) :
    v.handle.toNat < primitives := by
  cases h with
  | bool b => cases b <;> simp at hk
  | primitive i hi => simpa using hi
  | _ => simp at hk

end Value.Live

/-- A stored string is a live value. -/
theorem Heap.live_allocString (h : Heap) (primitives : Nat) (s : String) :
    (Value.string (h.allocString s).1).Live (h.allocString s).2 primitives :=
  .string _ (allocString_handle_lt h s)

/-- The text of a live string value. -/
theorem Heap.string?_of_lt {heap : Heap} {h : UInt32} (hh : h.toNat < heap.strings.size) :
    ∃ s, heap.string? h = some s :=
  ⟨_, Array.getElem?_eq_getElem hh⟩

/-- The function behind a live function value. -/
theorem Heap.function?_of_lt {heap : Heap} {h : UInt32} (hh : h.toNat < heap.functions.size) :
    ∃ f, heap.function? h = some f :=
  ⟨_, Array.getElem?_eq_getElem hh⟩

end ScriptMachine
