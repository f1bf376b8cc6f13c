import ScriptMachine.Proofs.Evaluation.Datum
import Mathlib.Tactic.SplitIfs

/-!
# Slots in a row

The definitions of a fragment get the free slots one after another. So names stay in order: their
slots were given out, and no two of them share one.
-/

namespace ScriptMachine.Compile

open Evaluation

/-! ## Definitions in a row -/

/-- Definitions that have the slots from `n` on, one after another. -/
def InARow : (n : Nat) → List Definition → Prop
  | _, [] => True
  | n, d :: ds => d.slot = n ∧ InARow (n + 1) ds

namespace InARow

variable {n : Nat} {ds es : List Definition} {d e : Definition}

theorem append (h : InARow n ds) (h' : InARow (n + ds.length) es) : InARow n (ds ++ es) := by
  induction ds generalizing n with
  | nil => exact h'
  | cons d ds ih =>
    refine ⟨h.1, ih h.2 ?_⟩
    rwa [Nat.add_right_comm]

theorem between (h : InARow n ds) (hd : d ∈ ds) : n ≤ d.slot ∧ d.slot < n + ds.length := by
  induction ds generalizing n with
  | nil => cases hd
  | cons d' ds ih =>
    rw [List.length_cons]
    rcases List.mem_cons.1 hd with rfl | hd
    · have hslot := h.1
      omega
    · have hrest := ih h.2 hd
      omega

/-- Each slot belongs to one definition. -/
theorem eq_of_slot (h : InARow n ds) (hd : d ∈ ds) (he : e ∈ ds) (hslot : d.slot = e.slot) :
    d = e := by
  induction ds generalizing n with
  | nil => cases hd
  | cons d' ds ih =>
    have hfirst := h.1
    rcases List.mem_cons.1 hd with hd' | hd' <;> rcases List.mem_cons.1 he with he' | he'
    · rw [hd', he']
    · have hlater := h.2.between he'
      rw [← hslot, hd'] at hlater
      omega
    · have hlater := h.2.between hd'
      rw [hslot, he'] at hlater
      omega
    · exact ih h.2 hd' he'

end InARow

/-! ## Names -/

namespace Names

theorem global?_define (n : Names) (d : Definition) (name : String) :
    (n.define d).global? name = if name = d.name then some d.place else n.global? name := by
  show (assign d.name d.place n.globals).lookup name = _
  split_ifs with hname
  · rw [hname, lookup_assign_self]
  · exact lookup_assign_ne hname _ _

theorem nextSlot_define (n : Names) (name : String) (mutable : Bool) :
    (n.define ⟨name, n.nextSlot, mutable⟩).nextSlot = n.nextSlot + 1 := by
  show max n.nextSlot (n.nextSlot + 1) = _
  omega

theorem commit_append (n : Names) (ds es : List Definition) :
    n.commit (ds ++ es) = (n.commit ds).commit es :=
  List.foldl_append ..

theorem primitive?_commit (n : Names) (ds : List Definition) (ident : String) :
    (n.commit ds).primitive? ident = n.primitive? ident := by
  unfold commit
  induction ds generalizing n with
  | nil => rfl
  | cons d ds ih => exact ih (n.define d)

/-- What definitions of the next slots keep, a fragment keeps. -/
theorem commit_induction {P : Names → Prop} (n : Names) (ds : List Definition)
    (hds : InARow n.nextSlot ds)
    (hstep : ∀ (n : Names) name mutable, P n → P (n.define ⟨name, n.nextSlot, mutable⟩))
    (h : P n) : P (n.commit ds) := by
  induction ds generalizing n with
  | nil => exact h
  | cons d ds ih =>
    obtain ⟨name, slot, mutable⟩ := d
    obtain rfl : slot = n.nextSlot := hds.1
    exact ih _ ((n.nextSlot_define name mutable).symm ▸ hds.2) (hstep n name mutable h)

theorem nextSlot_commit (n : Names) (ds : List Definition) (hds : InARow n.nextSlot ds) :
    (n.commit ds).nextSlot = n.nextSlot + ds.length := by
  induction ds generalizing n with
  | nil => rfl
  | cons d ds ih =>
    obtain ⟨name, slot, mutable⟩ := d
    obtain rfl : slot = n.nextSlot := hds.1
    have hnext := n.nextSlot_define name mutable
    have hrest := ih (n.define ⟨name, n.nextSlot, mutable⟩) (hnext.symm ▸ hds.2)
    rw [hnext] at hrest
    rw [List.length_cons]
    exact hrest.trans (by omega)

/-- A global was defined by the fragment, or was there before. -/
theorem global?_commit {n : Names} {ds : List Definition} {name : String} {g : GlobalName}
    (h : (n.commit ds).global? name = some g) :
    (∃ d ∈ ds, d.place = g) ∨ n.global? name = some g := by
  induction ds generalizing n with
  | nil => exact .inr h
  | cons d ds ih =>
    rcases ih (n := n.define d) h with ⟨d', hd', hg⟩ | hg
    · exact .inl ⟨d', List.mem_cons_of_mem _ hd', hg⟩
    · rw [global?_define] at hg
      split_ifs at hg
      · exact .inl ⟨d, List.mem_cons_self, Option.some.inj hg⟩
      · exact .inr hg

/-! ## Names in order -/

/-- Globals have slots that were given out, and primitives are standard ones. -/
structure InOrder (n : Names) : Prop where
  globals : ∀ (name : String) (g : GlobalName), n.global? name = some g → g.slot < n.nextSlot
  primitives : ∀ (name : String) (i : Nat), n.primitive? name = some i → i < routines.length

/-- A definition of the next slot keeps names in order. -/
theorem InOrder.define {n : Names} (h : n.InOrder) (name : String) (mutable : Bool) :
    (n.define ⟨name, n.nextSlot, mutable⟩).InOrder where
  globals := by
    intro name' g hg
    rw [nextSlot_define]
    rw [global?_define] at hg
    split_ifs at hg
    · cases hg
      exact Nat.lt_succ_self _
    · exact Nat.lt_succ_of_lt (h.globals name' g hg)
  primitives := h.primitives

theorem InOrder.commit {n : Names} (h : n.InOrder) {ds : List Definition}
    (hds : InARow n.nextSlot ds) : (n.commit ds).InOrder :=
  commit_induction n ds hds (fun _ name mutable h => h.define name mutable) h

/-- No two globals share a slot. -/
def Apart (n : Names) : Prop :=
  ∀ (name name' : String) (g g' : GlobalName), n.global? name = some g → n.global? name' = some g' →
    g.slot = g'.slot → name = name'

theorem Apart.define {n : Names} (h : n.Apart) (horder : n.InOrder) (name : String)
    (mutable : Bool) : (n.define ⟨name, n.nextSlot, mutable⟩).Apart := by
  intro x y g g' hg hg' hslot
  rw [global?_define] at hg hg'
  split_ifs at hg hg' with hx hy hy
  · rw [hx, hy]
  · cases hg
    exact absurd hslot (Nat.ne_of_gt (horder.globals y g' hg'))
  · cases hg'
    exact absurd hslot (Nat.ne_of_lt (horder.globals x g hg))
  · exact h x y g g' hg hg' hslot

theorem Apart.commit {n : Names} (h : n.Apart) (horder : n.InOrder) {ds : List Definition}
    (hds : InARow n.nextSlot ds) : (n.commit ds).Apart :=
  (commit_induction (P := fun n => n.Apart ∧ n.InOrder) n ds hds
    (fun _ name mutable h => ⟨h.1.define h.2 name mutable, h.2.define name mutable⟩)
    ⟨h, horder⟩).1

end Names
end ScriptMachine.Compile
