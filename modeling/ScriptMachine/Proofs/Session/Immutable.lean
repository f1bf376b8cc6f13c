import ScriptMachine.Proofs.Compile.Definitions
import ScriptMachine.Proofs.Link.Confined
import ScriptMachine.Proofs.Session.InStep

/-!
# Immutable bindings

The machine lets code write to every slot; that a binding does not change is up to the compiler. No
function that code can get hold of writes to the slot of an immutable binding, whatever was defined
since, and whatever failed: the functions of a turn that failed are out of reach, so its slots can be
given out again.
-/

namespace ScriptMachine.Session

open Source Bytecode Compile Link Machine

/-! ## Fixed slots -/

/-- A session in which certain slots are fixed: they were given out, no name lets code assign to them,
and the functions that the globals lead to write to other slots that were given out. -/
structure Guarded (fixed : Nat → Prop) (s : Session) : Prop extends Standard s where
  given : ∀ slot, fixed slot → slot < s.names.nextSlot
  unassignable : ∀ slot, fixed slot → ¬ s.names.Assignable slot
  confined : ∃ known, s.image.Confined known fun slot => ¬ fixed slot ∧ slot < s.names.nextSlot

/-- Slots that are fixed already, and those of immutable definitions. -/
def fixedBy (fixed : Nat → Prop) (ds : List Definition) (slot : Nat) : Prop :=
  fixed slot ∨ ∃ d ∈ ds, d.mutable = false ∧ d.slot = slot

/-- What lasts from one session to another: the values in fixed slots, and all that the heap holds. -/
structure Lasts (fixed : Nat → Prop) (s t : Session) : Prop where
  values : ∀ slot v, fixed slot → s.image.globals.slots[slot]? = some v →
    t.image.globals.slots[slot]? = some v
  heap : s.image.heap.Grows t.image.heap

theorem Lasts.refl (fixed : Nat → Prop) (s : Session) : Lasts fixed s s :=
  ⟨fun _ _ _ hv => hv, .refl _⟩

theorem Lasts.trans {fixed : Nat → Prop} {s t w : Session} (h : Lasts fixed s t)
    (h' : Lasts fixed t w) : Lasts fixed s w :=
  ⟨fun slot v hslot hv => h'.values slot v hslot (h.values slot v hslot hv), h.heap.trans h'.heap⟩

variable {fixed fixed' : Nat → Prop} {s t : Session}

theorem Guarded.weaken (h : s.Guarded fixed') (hle : ∀ slot, fixed slot → fixed' slot) :
    s.Guarded fixed where
  toStandard := h.toStandard
  given slot hslot := h.given slot (hle slot hslot)
  unassignable slot hslot := h.unassignable slot (hle slot hslot)
  confined := by
    obtain ⟨known, hknown⟩ := h.confined
    exact ⟨known, hknown.mono fun slot hslot => ⟨fun hf => hslot.1 (hle slot hf), hslot.2⟩⟩

/-- A session in which nothing happened but that the heap has grown. -/
theorem Guarded.grows (h : s.Guarded fixed) (hcompiler : t.compiler = s.compiler)
    (hbackend : t.linker.backend = s.linker.backend) (hnames : t.names = s.names)
    (hglobals : t.image.globals = s.image.globals)
    (hprimitives : t.image.primitives = s.image.primitives)
    (hheap : s.image.heap.Grows t.image.heap) : t.Guarded fixed ∧ Lasts fixed s t := by
  refine ⟨⟨⟨hcompiler.trans h.compiler, hbackend.trans h.backend, hprimitives.trans h.primitives,
    hnames ▸ h.order⟩, hnames ▸ h.given, hnames ▸ h.unassignable, ?_⟩, fun _ _ _ hv => ?_, hheap⟩
  · obtain ⟨known, hknown⟩ := h.confined
    exact ⟨known, hnames ▸ hknown.grows hglobals hheap⟩
  · rwa [hglobals]

/-! ## Units -/

/-- Slots that the functions of a fragment may write to are not fixed, not even by the fragment. -/
theorem not_fixedBy_of_assigned (h : s.Guarded fixed) {ds : List Definition}
    (hrow : InARow s.names.nextSlot ds) {slot : Nat}
    (hslot : s.names.Assignable slot ∨ ∃ d ∈ ds, d.mutable = true ∧ d.slot = slot) :
    ¬ fixedBy fixed ds slot := by
  rintro (hfixed | ⟨e, he, himmutable, heq⟩)
  · rcases hslot with hold | ⟨d, hd, -, rfl⟩
    · exact h.unassignable slot hfixed hold
    · exact absurd (h.given _ hfixed) (Nat.not_lt.2 (hrow.between hd).1)
  · rcases hslot with ⟨name, g, hg, -, rfl⟩ | ⟨d, hd, hmutable, rfl⟩
    · have hbelow := h.order.globals name g hg
      rw [← heq] at hbelow
      exact absurd hbelow (Nat.not_lt.2 (hrow.between he).1)
    · obtain rfl := hrow.eq_of_slot he hd heq
      rw [hmutable] at himmutable
      cases himmutable

/-- A session that has taken over the definitions of a fragment. -/
theorem Guarded.commit (h : s.Guarded fixed) {ds : List Definition}
    (hrow : InARow s.names.nextSlot ds) (hcompiler : t.compiler = s.compiler)
    (hbackend : t.linker.backend = s.linker.backend) (hnames : t.names = s.names.commit ds)
    (hprimitives : t.image.primitives = s.image.primitives)
    (hconfined : ∃ known, t.image.Confined known fun slot =>
      ¬ fixedBy fixed ds slot ∧ slot < (s.names.commit ds).nextSlot) :
    t.Guarded (fixedBy fixed ds) where
  compiler := hcompiler.trans h.compiler
  backend := hbackend.trans h.backend
  primitives := hprimitives.trans h.primitives
  order := hnames ▸ h.order.commit hrow
  given := by
    rw [hnames, Names.nextSlot_commit s.names ds hrow]
    rintro slot (hslot | ⟨d, hd, -, rfl⟩)
    · exact Nat.lt_add_right _ (h.given slot hslot)
    · exact (hrow.between hd).2
  unassignable slot hslot hassigned := by
    rw [hnames] at hassigned
    exact not_fixedBy_of_assigned h hrow (assignable_commit hassigned) hslot
  confined := by
    rw [hnames]
    exact hconfined

section Unit

variable {f : Fragment} {c : Compiled} {unit : LinkedUnit} {image : Image}

end Unit

/-! ## Turns -/

/-- The sessions that a session leads to, after whole turns or within one: running code is all that
changes it, but for the libraries that have been opened. -/
inductive Leads (s : Session) : Session → Prop
  | refl : Leads s s
  | code {t : Session} (h : Leads s t) (text : List Char) : Leads s (t.runSource text).2
  | libraries {t : Session} (h : Leads s t) (l : LibraryLoader) : Leads s { t with libraries := l }

/-- Turns follow what a session leads to. -/
theorem kept_leads (s : Session) :
    Kept (fun t t' => t = t' ∧ s.Leads t') (fun _ => True) (fun _ => True) where
  files h := h.1 ▸ rfl
  sections h := h.1 ▸ rfl
  libraries h := h.1 ▸ rfl
  withLibraries l h := ⟨h.1 ▸ rfl, h.2.libraries l⟩
  source := by
    rintro t t' text ⟨rfl, ht⟩ -
    exact ⟨rfl, fun _ _ => trivial, rfl, ht.code text⟩
  fine_source _ _ := trivial
  fine_libraries _ _ := trivial
  good_quit := trivial
  good_directive _ := trivial
  good_refusal _ := trivial

theorem leads_runTurns (h : s.Leads t) (texts : List String) : s.Leads (t.runTurns texts).2 :=
  (kept_runTurns (kept_leads s) texts ⟨rfl, h⟩ trivial).2.2.2

theorem bounded_before_leads (h : s.Leads t) (hbounded : t.Bounded) : s.Bounded := by
  induction h with
  | refl => exact hbounded
  | code _ text ih => exact ih (bounded_before_runSource text hbounded)
  | libraries _ l ih => exact ih ⟨hbounded.functions, hbounded.requests, hbounded.additive⟩

theorem primitives_of_leads (h : s.Leads t) : t.image.primitives = s.image.primitives := by
  induction h with
  | refl => rfl
  | @code t _ text ih =>
    rcases t.runSource_image text with heq | ⟨u, heq⟩ <;> rw [heq]
    · exact ih
    · exact (runUnit_primitives t u).trans ih
  | libraries _ l ih => exact ih

theorem Leads.trans {w : Session} (h : s.Leads t) (h' : t.Leads w) : s.Leads w := by
  induction h' with
  | refl => exact h
  | code _ text ih => exact ih.code text
  | libraries _ l ih => exact ih.libraries l

/-- In a new session nothing is fixed. -/
theorem guarded_new (files : Files) (limits : Limits) :
    (Session.new standardCompiler files limits).Guarded fun _ => False where
  toStandard := standard_new files limits
  given _ h := h.elim
  unassignable _ h := h.elim
  confined := by
    refine ⟨fun _ => False, fun _ h => h.elim, fun v hv => ?_, fun _ _ h => h.elim⟩
    have hmem : v ∈ (#[] : Array Value) := hv
    simp at hmem

end ScriptMachine.Session
