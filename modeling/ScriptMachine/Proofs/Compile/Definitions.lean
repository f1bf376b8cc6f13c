import ScriptMachine.Proofs.Compile.Fragments
import ScriptMachine.Proofs.Compile.Reach
import Mathlib.Data.List.Dedup

/-!
# What a fragment defines

The definitions of a fragment are those of its statements at the top level, one after another. Once
they are known, each name leads to the last of its definitions; the earlier ones are hidden. The code of
the fragment writes to the slots of its definitions, and to slots that code may assign to.
-/

namespace ScriptMachine.Compile

open Source Bytecode Evaluation

/-! ## Names that are defined -/

theorem InARow.slots {n : Nat} {ds : List Definition} (h : InARow n ds) :
    ds.map Definition.slot = List.range' n ds.length := by
  induction ds generalizing n with
  | nil => rfl
  | cons d ds ih =>
    obtain ⟨hslot, hrest⟩ := h
    rw [List.map_cons, List.length_cons, List.range'_succ, hslot, ih hrest]

namespace Names

variable {n : Names} {ds es : List Definition} {d : Definition} {name : String}

/-- Whether the name of a definition leads to it. -/
def Shows (n : Names) (d : Definition) : Prop :=
  (n.global? d.name).map GlobalName.slot = some d.slot

instance (n : Names) (d : Definition) : Decidable (n.Shows d) :=
  inferInstanceAs (Decidable (_ = _))

end Names

/-! ## Definitions of a fragment -/

section

variable {names : Names} {b b' : Builder} {stmt : Stmt} {u : Unit}

end

/-! ## What compiled code writes to

The functions of a fragment write to globals that names say are mutable, old ones or the fragment's
own. The statements of the fragment also write to the slots of its definitions.
-/

/-- A slot of a global that may be assigned to. -/
def Names.Assignable (n : Names) (slot : Nat) : Prop :=
  ∃ name g, n.global? name = some g ∧ g.mutable = true ∧ g.slot = slot

/-- A reach in which only the slots matter. -/
def writingReach (assigned defined : Nat → Prop) : Reach where
  constants _ := True
  primitives _ := True
  assigned := assigned
  defined := defined

theorem serves_writingReach {C : Coding} {names : Names} {assigned defined : Nat → Prop}
    (hslots : C.slots ≤ 255) (h : ∀ slot, names.Assignable slot → assigned slot) :
    (writingReach assigned defined).Serves C names where
  slots := hslots
  constants _ _ _ := trivial
  primitives _ _ _ := trivial
  assigned ident g hg hmutable := h g.slot ⟨ident, g, hg, hmutable, rfl⟩

/-- A word that writes, in code that is full of instructions within reach, writes to a slot within
reach. -/
theorem slot_of_fills {C : Coding} {assigned defined : Nat → Prop}
    (h : C.Fills (writingReach assigned defined) 0 C.code.size) {ip : Nat} {w : Word}
    (hw : C.code[ip]? = some w) (hwrites : w.WritesGlobal) : assigned w.bx ∨ defined w.bx := by
  have hip := (Array.getElem?_eq_some_iff.1 hw).1
  obtain ⟨w', op, hw', hop, hallows⟩ := h.words ip (Nat.zero_le ip) hip
  obtain rfl : w = w' := Option.some.inj (hw.symm.trans hw')
  have hmeans := hallows.means
  rcases hwrites with hset | hdef
  · obtain rfl : op = .setGlobal := Option.some.inj (hop.symm.trans hset)
    exact .inl hmeans
  · obtain rfl : op = .defGlobal := Option.some.inj (hop.symm.trans hdef)
    exact .inr hmeans

/-- A global that may be assigned to after a fragment is one of its definitions, or was there
before. -/
theorem assignable_commit {n : Names} {ds : List Definition} {slot : Nat}
    (h : (n.commit ds).Assignable slot) :
    n.Assignable slot ∨ ∃ d ∈ ds, d.mutable = true ∧ d.slot = slot := by
  obtain ⟨name, g, hg, hmutable, rfl⟩ := h
  rcases Names.global?_commit hg with ⟨d, hd, rfl⟩ | hold
  · exact .inr ⟨d, hd, hmutable, rfl⟩
  · exact .inl ⟨name, g, hold, hmutable, rfl⟩

variable {names : Names} {f : Fragment} {c : Compiled}

/-- The functions of a fragment write to mutable globals. -/
theorem assignable_of_prototype (h : compileFragment names f = .ok c)
    (hstrings : c.program.strings.size ≤ 2 ^ 32) {p : Prototype}
    (hp : p ∈ c.program.prototypes.toList) {ip : Nat} {w : Word} (hw : p.code[ip]? = some w)
    (hwrites : w.WritesGlobal) :
    names.Assignable w.bx ∨ ∃ d ∈ c.definitions, d.mutable = true ∧ d.slot = w.bx := by
  obtain ⟨fs, hlaid⟩ := laid_of_compileFragment h
  obtain ⟨g, hg, hsound, hfunction⟩ := hlaid.exists_closure hp
  obtain ⟨ds, hds, hnames⟩ := hlaid.visible g hg
  have hserves : (writingReach g.names.Assignable fun _ => False).Serves
      (coding c.program.strings true p) g.names := serves_writingReach hsound.slots_le fun _ h => h
  have hslot := (slot_of_fills (fills_function (hfunction hstrings) hserves) hw hwrites).resolve_right id
  rw [hnames] at hslot
  exact (assignable_commit hslot).imp_right fun ⟨d, hd, hd'⟩ => ⟨d, hds.subset hd, hd'⟩

/-- The statements of a fragment write to mutable globals and to the slots of its definitions. -/
theorem assignable_of_main (h : compileFragment names f = .ok c)
    (hstrings : c.program.strings.size ≤ 2 ^ 32) (hprototypes : c.program.prototypes.size ≤ 2 ^ 32)
    {ip : Nat} {w : Word} (hw : c.program.main.code[ip]? = some w) (hwrites : w.WritesGlobal) :
    names.Assignable w.bx ∨
      names.nextSlot ≤ w.bx ∧ w.bx < (names.commit c.definitions).nextSlot := by
  obtain ⟨fs, hlaid⟩ := laid_of_compileFragment h
  let new (slot : Nat) : Prop :=
    names.nextSlot ≤ slot ∧ slot < (names.commit c.definitions).nextSlot
  have hserves : (writingReach (fun slot => names.Assignable slot ∨ new slot) new).Serves
      (coding c.program.strings false c.program.main) names :=
    serves_writingReach hlaid.main.slots_le fun _ h => .inl h
  have hfills := fills_main (hlaid.code hstrings hprototypes) hserves (fun _ _ _ => trivial)
    fun _ hle hlt => ⟨.inr ⟨hle, hlt⟩, hle, hlt⟩
  exact (slot_of_fills hfills hw hwrites).elim id .inr

end ScriptMachine.Compile
