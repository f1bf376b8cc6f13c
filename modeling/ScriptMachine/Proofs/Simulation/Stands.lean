import ScriptMachine.Proofs.Compile.Layout
import ScriptMachine.Proofs.Compile.Numbering
import ScriptMachine.Proofs.Value.Alike

/-!
# Values that stand for data

A value stands for a datum when programs cannot tell them apart: an integer or a text is the same, a
primitive has the same index, and a function is the linked code of the declaration. Each declaration
is known by the slot that it defines, and has one handle.
-/

namespace ScriptMachine

open Bytecode Compile Evaluation

namespace Simulation

/-- Which slot the declaration of a function defines, by the handle of the function. -/
abbrev Slots := UInt32 → Option Nat

/-- No two handles belong to one declaration. -/
def Slots.Distinct (σ : Slots) : Prop :=
  ∀ (h h' : UInt32) (slot : Nat), σ h = some slot → σ h' = some slot → h = h'

/-! ## Functions -/

/-- A value that stands for an integer or a text. -/
inductive Literal (heap : Heap) : Value → Datum → Prop
  | int {n : Int} (h : Value.fits n = true) : Literal heap (.int n) (.int n)
  | text {h : UInt32} {s : String} (hs : heap.string? h = some s) :
    Literal heap (.string h) (.text s)

theorem Literal.grows {heap heap' : Heap} {v : Value} {d : Datum} (h : Literal heap v d)
    (hg : heap.Grows heap') : Literal heap' v d := by
  cases h with
  | int h => exact .int h
  | text hs => exact .text (hg.string? hs)

/-- A function of the heap that has this code, with constants that stand for what they should. -/
structure Has (heap : Heap) (g : Function) (C : Coding) : Prop where
  code : g.code = C.code
  slots : g.slots = C.slots
  constants : ∀ (k : Nat) (d : Datum), C.constant k d →
    ∃ v, g.constants[k]? = some v ∧ Literal heap v d

theorem Has.grows {heap heap' : Heap} {g : Function} {C : Coding} (h : Has heap g C)
    (hg : heap.Grows heap') : Has heap' g C := by
  refine ⟨h.code, h.slots, fun k d hk => ?_⟩
  obtain ⟨v, hv, hd⟩ := h.constants k d hk
  exact ⟨v, hv, hd.grows hg⟩

/-- The finished code of a declaration: it fills its body, and returns the value of the body. -/
structure Codes (C : Coding) (f : Closure) : Prop where
  returns : C.returns = true
  room : C.Room f.params.length
  body : ∃ k, BlockAt C f.names f.body (paramScope f.params) f.params.length 0 k ∧
    C.At k (.abc .ret f.params.length 0 0)

/-- A function of the heap that is the linked code of a declaration. -/
structure Implements (heap : Heap) (g : Function) (f : Closure) : Prop where
  name : g.name = f.name
  arity : g.arity = f.params.length
  distinct : f.params.Nodup
  code : ∃ C, Has heap g C ∧ Codes C f

theorem Implements.grows {heap heap' : Heap} {g : Function} {f : Closure}
    (h : Implements heap g f) (hg : heap.Grows heap') : Implements heap' g f := by
  obtain ⟨C, hC, hf⟩ := h.code
  exact ⟨h.name, h.arity, h.distinct, C, hC.grows hg, hf⟩

/-! ## Values -/

/-- A value stands for a datum, where the first `n` slots are bound. -/
inductive Stands (σ : Slots) (n : Nat) (heap : Heap) : Value → Datum → Prop
  | int {x : Int} (h : Value.fits x = true) : Stands σ n heap (.int x) (.int x)
  | nil : Stands σ n heap .nil .nil
  | bool (b : Bool) : Stands σ n heap (.bool b) (.bool b)
  | text {h : UInt32} {s : String} (hs : heap.string? h = some s) :
    Stands σ n heap (.string h) (.text s)
  | function {h : UInt32} {g : Function} {f : Closure} (hg : heap.function? h = some g)
    (hf : Implements heap g f) (hslot : σ h = some f.slot) (horder : f.names.InOrder)
    (hn : f.names.nextSlot ≤ n) : Stands σ n heap (.function h) (.function f)
  | primitive {i : UInt32} (hi : i.toNat < routines.length) :
    Stands σ n heap (.primitive i) (.primitive i.toNat)

namespace Stands

variable {σ : Slots} {n n' : Nat} {heap heap' : Heap} {v w : Value} {d e : Datum}

theorem of_literal (h : Literal heap v d) : Stands σ n heap v d := by
  cases h with
  | int h => exact .int h
  | text hs => exact .text hs

theorem grows (h : Stands σ n heap v d) (hg : heap.Grows heap') : Stands σ n heap' v d := by
  cases h with
  | int h => exact .int h
  | nil => exact .nil
  | bool b => exact .bool b
  | text hs => exact .text (hg.string? hs)
  | function hf hi hslot horder hn => exact .function (hg.function? hf) (hi.grows hg) hslot horder hn
  | primitive hi => exact .primitive hi

/-- What stands for a datum still does when more slots are bound. -/
theorem mono (h : Stands σ n heap v d) (hle : n ≤ n') : Stands σ n' heap v d := by
  cases h with
  | int h => exact .int h
  | nil => exact .nil
  | bool b => exact .bool b
  | text hs => exact .text hs
  | function hf hi hslot horder hn => exact .function hf hi hslot horder (Nat.le_trans hn hle)
  | primitive hi => exact .primitive hi

theorem kind_eq (h : Stands σ n heap v d) : v.kind = d.kind := by
  cases h with
  | bool b => cases b <;> simp [Datum.kind]
  | _ => simp [Datum.kind]

theorem kind_ne_empty (h : Stands σ n heap v d) : v.kind ≠ .empty := by
  rw [h.kind_eq]
  cases d with
  | bool b => cases b <;> simp [Datum.kind]
  | _ => simp [Datum.kind]

theorem isFalsey_eq (h : Stands σ n heap v d) : v.isFalsey = d.isFalsey := by
  rw [Value.isFalsey, h.kind_eq]
  cases d with
  | bool b => cases b <;> rfl
  | _ => rfl

theorem typeName_eq (h : Stands σ n heap v d) : v.typeName = d.kind.typeName := by
  rw [Value.typeName, h.kind_eq]

/-- Integers stand for themselves. -/
theorem asInt?_eq (h : Stands σ n heap v d) :
    v.asInt? = match d with
      | .int x => some x
      | _ => none := by
  cases h with
  | int hx => exact Value.asInt?_int hx
  | _ => simp

theorem fits {x : Int} (h : Stands σ n heap v (.int x)) : Value.fits x = true := by
  cases h with
  | int hx => exact hx

/-- Texts stand as strings with their characters. -/
theorem string_eq {s : String} (h : Stands σ n heap v (.text s)) :
    heap.string? v.handle = some s := by
  cases h with
  | text hs => simpa using hs

theorem content_eq (h : Stands σ n heap v d) :
    heap.content? v = match d with
      | .text s => some s
      | _ => none := by
  cases h with
  | text hs =>
    rw [content?_string (Value.kind_string _), Value.handle_string]
    exact hs
  | bool b => exact content?_of_ne (by cases b <;> simp)
  | _ => exact content?_of_ne (by simp)

theorem int_eq_iff {x y : Int} (h : Stands σ n heap v (.int x)) (h' : Stands σ n heap w (.int y)) :
    v = w ↔ x = y := by
  cases h with
  | int hx =>
    cases h' with
    | int hy => exact ⟨Value.int_inj hx hy, congrArg _⟩

theorem bool_eq_iff {b c : Bool} (h : Stands σ n heap v (.bool b))
    (h' : Stands σ n heap w (.bool c)) : v = w ↔ b = c := by
  cases h
  cases h'
  refine ⟨fun he => ?_, congrArg _⟩
  have hkind := congrArg Value.kind he
  cases b <;> cases c <;> simp at hkind ⊢

/-- Functions are equal when their declarations define the same slot: the handle is not in the datum,
but no two handles have code with the same slot. -/
theorem function_eq_iff (hσ : σ.Distinct) {f g : Closure} (h : Stands σ n heap v (.function f))
    (h' : Stands σ n heap w (.function g)) : v = w ↔ f.slot = g.slot := by
  cases h with
  | @function i _ _ _ _ hslot =>
    cases h' with
    | @function j _ _ _ _ hslot' =>
      constructor
      · intro he
        rw [Value.function_inj he, hslot', Option.some.injEq] at hslot
        exact hslot.symm
      · intro he
        rw [hσ i j f.slot hslot (he ▸ hslot')]

theorem primitive_eq_iff {k l : Nat} (h : Stands σ n heap v (.primitive k))
    (h' : Stands σ n heap w (.primitive l)) : v = w ↔ k = l := by
  cases h
  cases h'
  exact ⟨fun he => by rw [Value.primitive_inj he], fun he => by rw [UInt32.toNat_inj.1 he]⟩

/-- Values other than strings are equal when the data are. -/
theorem eq_iff_same (hσ : σ.Distinct) (h : Stands σ n heap v d) (h' : Stands σ n heap w e)
    (htext : d.kind ≠ .string) : v = w ↔ d.same e = true := by
  by_cases hkind : d.kind = e.kind
  · cases d with
    | int x =>
      cases e with
      | int y => exact (h.int_eq_iff h').trans beq_iff_eq.symm
      | bool c => cases c <;> cases hkind
      | _ => cases hkind
    | nil =>
      cases h
      cases e with
      | nil =>
        cases h'
        exact iff_of_true rfl rfl
      | bool c => cases c <;> cases hkind
      | _ => cases hkind
    | bool b =>
      cases e with
      | bool c => exact (h.bool_eq_iff h').trans beq_iff_eq.symm
      | _ => cases b <;> cases hkind
    | text s => exact absurd rfl htext
    | function f =>
      cases e with
      | function g => exact (h.function_eq_iff hσ h').trans beq_iff_eq.symm
      | bool c => cases c <;> cases hkind
      | _ => cases hkind
    | primitive k =>
      cases e with
      | primitive l => exact (h.primitive_eq_iff h').trans beq_iff_eq.symm
      | bool c => cases c <;> cases hkind
      | _ => cases hkind
  · refine iff_of_false (fun he => hkind ?_) (by rw [Datum.same_of_kind_ne hkind]; simp)
    rw [← h.kind_eq, ← h'.kind_eq, he]

/-- Two values are equal when the data are. -/
theorem same_eq (hσ : σ.Distinct) (h : Stands σ n heap v d) (h' : Stands σ n heap w e) :
    Machine.sameValue heap v w = d.same e := by
  -- strings are compared by their characters, all other values by their words
  by_cases htext : d.kind = .string
  · cases d with
    | text s =>
      rw [sameValue_string h.content_eq, h'.content_eq]
      cases e with
      | text t =>
        show decide (some t = some s) = (s == t)
        rw [Bool.eq_iff_iff, decide_eq_true_iff, beq_iff_eq, Option.some.injEq]
        exact eq_comm
      | _ => rfl
    | bool b => cases b <;> cases htext
    | _ => cases htext
  · rw [sameValue_of_ne (by rwa [h.kind_eq]), Bool.eq_iff_iff, beq_iff_eq]
    exact h.eq_iff_same hσ h' htext

/-- A value looks like the datum. -/
theorem display_eq (h : Stands σ n heap v d) :
    Legend.display ⟨heap, Registry.standard.name?⟩ v = d.display := by
  unfold Legend.display
  cases h with
  | int hx => simp [Legend.render, Datum.display, Value.asInt?_int hx]
  | nil => rfl
  | bool b => cases b <;> rfl
  | text hs => simp [Datum.display, hs]
  | function hg hf =>
    simp only [Value.kind_function, reduceCtorEq, if_false, Legend.render, Value.handle_function, hg,
      Datum.display, hf.name, hf.arity]
  | @primitive i hi =>
    cases hname : Registry.standard.name? i.toNat with
    | none => simp [Legend.render, Datum.display, hname]
    | some name => simp [Legend.render, Datum.display, hname]

end Stands

end Simulation
end ScriptMachine
