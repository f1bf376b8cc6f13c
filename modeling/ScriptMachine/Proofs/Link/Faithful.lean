import ScriptMachine.Proofs.Link.AlikeUnits
import ScriptMachine.Proofs.Link.Phases
import ScriptMachine.Proofs.Session.Soundness
import Mathlib.Data.List.Nodup

/-!
# Linking is faithful and atomic

A linked program is in the heap as it is in the file: each body under a handle of its own, with all its
constants, and each constant that refers to a string or a body of the program holds that one's handle.
All that was in the heap before is as it was. A program that is not linked changes nothing at all, for
whatever reason it is not.
-/

namespace ScriptMachine.Link

open Bytecode

/-- What a value must be to stand for a constant, where a program's strings and functions have these
handles. An integer is read back as it was written. -/
def StandsFor (strings functions : Array UInt32) : Constant → Value → Prop
  | .int n, v => v = .int n.toInt ∧ v.asInt? = some n.toInt
  | .str i, v => ∃ handle, strings[i.toNat]? = some handle ∧ v = .string handle
  | .bool b, v => v = .bool b
  | .nil, v => v = .nil
  | .fn i, v => ∃ handle, functions[i.toNat]? = some handle ∧ v = .function handle

/-- A function is a body of a program. -/
structure IsBody (strings functions : Array UInt32) (p : Prototype) (f : Function) : Prop where
  name : f.name = p.name
  arity : f.arity = p.arity.toNat
  slots : f.slots = p.slots.toNat
  code : f.code = p.code
  constants : List.Forall₂ (StandsFor strings functions) p.constants.toList f.constants.toList

/-- Handles of which no two are the same, and under which there was nothing. -/
structure New {α : Type} (held : UInt32 → Option α) (handles : List UInt32) : Prop where
  distinct : handles.Nodup
  unused : ∀ handle ∈ handles, held handle = none

/-- The handles of all bodies, the main body last. -/
def LinkedUnit.handles (unit : LinkedUnit) : List UInt32 :=
  unit.functions.toList ++ [unit.main]

/-- A program was stored in an image as this unit, its strings under these handles, and nothing else
has changed. -/
structure Faithful (image : Image) (program : Program) (unit : LinkedUnit) (image' : Image)
    (strings : Array UInt32) : Prop where
  globals : image'.globals = image.globals
  primitives : image'.primitives = image.primitives
  kept : image.heap.Grows image'.heap
  strings_size : image'.heap.strings.size = image.heap.strings.size + strings.size
  functions_size : image'.heap.functions.size = image.heap.functions.size + unit.handles.length
  newStrings : New image.heap.string? strings.toList
  newFunctions : New image.heap.function? unit.handles
  contents : List.Forall₂ (fun handle s => image'.heap.string? handle = some s) strings.toList
    program.strings.toList
  bodies : List.Forall₂ (fun handle p => ∃ f, image'.heap.function? handle = some f ∧
    IsBody strings unit.functions p f) unit.handles program.bodies

/-! ## Handles -/

/-- Places behind all others are new handles, as long as handles last. -/
theorem new_handlesFrom {α : Type} (xs : Array α) {n : Nat} (hroom : xs.size + n ≤ handleCount) :
    New (fun handle => xs[handle.toNat]?) (handlesFrom xs.size n).toList where
  distinct := by
    refine List.Nodup.map_on (fun i hi j hj heq => ?_) List.nodup_range'
    have hi' := List.mem_range'_1.1 hi
    have hj' := List.mem_range'_1.1 hj
    rw [← toNat_ofNat_of_lt (n := i) (by omega), heq, toNat_ofNat_of_lt (by omega)]
  unused := by
    intro handle hhandle
    obtain ⟨i, hi, rfl⟩ := List.mem_map.1 hhandle
    have hi' := List.mem_range'_1.1 hi
    rw [toNat_ofNat_of_lt (by omega)]
    exact Array.getElem?_eq_none hi'.1

theorem forall₂_handlesFrom {β : Type} {R : UInt32 → β → Prop} (start : Nat) {n : Nat} {ys : List β}
    (hn : ys.length = n) (h : ∀ i y, ys[i]? = some y → R (UInt32.ofNat (start + i)) y) :
    List.Forall₂ R (handlesFrom start n).toList ys := by
  refine List.forall₂_iff_get.2 ⟨by simp [hn], fun i h₁ h₂ => ?_⟩
  have hhandle : (handlesFrom start n).toList.get ⟨i, h₁⟩ = UInt32.ofNat (start + i) := by
    simp [handlesFrom]
  rw [hhandle]
  exact h i _ (List.getElem?_eq_getElem h₂)

/-- The handles that linking hands out. -/
theorem handles_of_bind {image image' : Image} {program : Program} {sizeHint : Nat}
    {unit : LinkedUnit} (hbind : bind image program sizeHint = .ok (unit, image'))
    (hsize : image'.heap.functions.size ≤ handleCount) :
    unit.functions = handlesFrom image.heap.functions.size program.prototypes.size ∧
      unit.handles = (handlesFrom image.heap.functions.size program.bodies.length).toList := by
  have hplace := (bind_eq_ok_iff.1 hbind).2
  have hle : image.heap.functions.size + program.bodies.length ≤ handleCount := by
    rw [← place_functions_size image program sizeHint, hplace]
    exact hsize
  obtain ⟨bytes, heq⟩ := place_eq image program sizeHint hle
  rw [hplace] at heq
  cases heq
  refine ⟨rfl, ?_⟩
  rw [length_bodies]
  simp [LinkedUnit.handles, handlesFrom, List.range'_concat]

/-! ## Bodies -/

/-- A constant that was checked is linked to what it stands for. -/
theorem standsFor_resolveConstant {strings functions : Array UInt32} {k : Constant}
    (hk : constantOk strings.size functions.size k = true) :
    StandsFor strings functions k (resolveConstant strings functions k) := by
  cases k with
  | int n => exact ⟨rfl, Value.asInt?_int hk⟩
  | str i =>
    have hi : i.toNat < strings.size := by simpa [constantOk] using hk
    exact ⟨_, Array.getElem?_eq_getElem hi, by simp [resolveConstant, hi]⟩
  | bool b => rfl
  | nil => rfl
  | fn i =>
    have hi : i.toNat < functions.size := by simpa [constantOk] using hk
    exact ⟨_, Array.getElem?_eq_getElem hi, by simp [resolveConstant, hi]⟩

theorem isBody_linkedFunction {strings functions : Array UInt32} {primitives : Nat} {p : Prototype}
    (hp : p.InOrder strings.size functions.size primitives) :
    IsBody strings functions p (linkedFunction strings functions p) where
  name := rfl
  arity := rfl
  slots := rfl
  code := rfl
  constants := by
    rw [linkedFunction, Array.toList_map, List.forall₂_map_right_iff, List.forall₂_same]
    exact fun k hk => standsFor_resolveConstant (hp.constants k (Array.mem_toList_iff.1 hk))

/-! ## Linking -/

/-- A program that is linked is in the image as it was in the file. -/
theorem faithful_of_bind {image image' : Image} {program : Program} {sizeHint : Nat}
    {unit : LinkedUnit} (hbind : bind image program sizeHint = .ok (unit, image'))
    (hroom : image'.heap.Roomy) :
    Faithful image program unit image' (handlesFrom image.heap.strings.size program.strings.size) := by
  have hverify := verify_eq_ok_iff.1 (bind_eq_ok_iff.1 hbind).1
  have hheap := bind_heap hbind hroom.functions
  have hplaced := placed_of_bind hbind hroom.functions
  obtain ⟨hfunctions, hhandles⟩ := handles_of_bind hbind hroom.functions
  have hstringRoom := hroom.strings
  rw [hplaced.strings, Array.size_append] at hstringRoom
  have hfunctionRoom := hroom.functions
  rw [hplaced.functions_size] at hfunctionRoom
  exact
    { globals := hheap.2.1
      primitives := hheap.2.2.1
      kept := hplaced.grows
      strings_size := by rw [hplaced.strings, Array.size_append, size_handlesFrom]
      functions_size := by
        rw [hplaced.functions_size, hhandles]
        simp
      newStrings := new_handlesFrom image.heap.strings hstringRoom
      newFunctions := hhandles ▸ new_handlesFrom image.heap.functions hfunctionRoom
      contents := by
        refine forall₂_handlesFrom _ Array.length_toList fun i s hs => ?_
        rw [Array.getElem?_toList] at hs
        rw [hplaced.string? hroom.strings (Array.getElem?_eq_some_iff.1 hs).1, hs]
      bodies := by
        rw [hhandles, hfunctions]
        refine forall₂_handlesFrom _ rfl fun i p hp => ⟨_, hplaced.function? hroom.functions hp, ?_⟩
        exact isBody_linkedFunction (by simpa using hverify p (List.mem_of_getElem? hp)) }

/-- A session that cannot link a unit goes on with the image that it had. -/
theorem runUnit_of_link_error {s : Session} {u : Session.FragmentUnit} {e : LinkError}
    (h : (s.linker.link s.image u.bytes u.sizeHint).1 = .error e) :
    s.runUnit u = (.linkFailed e, { s with linker := (s.linker.link s.image u.bytes u.sizeHint).2 }) := by
  rw [Session.runUnit_eq]
  unfold Linker.link at h ⊢
  cases hread : s.linker.read s.image.primitives.count u.bytes u.sizeHint with
  | mk result linker =>
    rw [hread] at h
    cases result with
    | error e' => cases h; rfl
    | ok program => cases h

/-- Linking is faithful and atomic. A program that is linked is stored as it is, next to what was there
before, as long as there are handles for it. Linking in place comes to the same image, and where it
stops, whether there is no backend, the bytes are no program, or the program is refused, the image is as
it was; a session goes on with it. -/
theorem linking_faithful_atomic (image : Image) (sizeHint : Nat) :
    (∀ program unit image', bind image program sizeHint = .ok (unit, image') → image'.heap.Roomy →
      ∃ strings, Faithful image program unit image' strings) ∧
    (∀ program, bindInPlace program sizeHint image = settled image (bind image program sizeHint) ∧
      ∀ e after, bindInPlace program sizeHint image = .error e after → after = image) ∧
    (∀ (l : Linker) (bytes : Bytes),
      l.linkInPlace bytes sizeHint image = settled image (l.link image bytes sizeHint).1 ∧
      ∀ e after, l.linkInPlace bytes sizeHint image = .error e after → after = image) ∧
    ∀ (s : Session) (u : Session.FragmentUnit) e,
      (s.linker.link s.image u.bytes u.sizeHint).1 = .error e →
      (s.runUnit u).1 = .linkFailed e ∧ (s.runUnit u).2.image = s.image := by
  refine ⟨fun program unit image' hbind hroom => ⟨_, faithful_of_bind hbind hroom⟩,
    fun program => ⟨bindInPlace_eq program sizeHint image, fun e after h => ?_⟩,
    fun l bytes => ⟨l.linkInPlace_eq bytes sizeHint image, fun e after h => ?_⟩,
    fun s u e h => ?_⟩
  · rw [bindInPlace_eq] at h
    exact eq_of_settled h
  · rw [Linker.linkInPlace_eq] at h
    exact eq_of_settled h
  · rw [runUnit_of_link_error h]
    exact ⟨rfl, rfl⟩

/-- Functions that refer to themselves, to each other and forward, and constants of all sorts. -/
def referringProgram : Program :=
  ⟨#["even", "odd"],
    #[⟨"even", 1, 1, #[.fn 1, .fn 0, .str 1], #[.abx .loadConst 0 0, .abc .ret 0 0 0]⟩,
      ⟨"odd", 1, 1, #[.fn 0, .int (-7)], #[.abc .ret 0 0 0]⟩],
    ⟨"main", 0, 1, #[.fn 1, .str 0, .bool true, .nil], #[.abc .ret 0 0 0]⟩⟩

/-- The image with an earlier unit in it. -/
def usedImage : Image :=
  (place .standard measuringProgram 5).2

/-- The program without the string that one of its constants refers to. -/
def danglingProgram : Program :=
  { referringProgram with strings := #["even"] }

theorem referringProgram_faithful :
    (∃ strings, Faithful usedImage referringProgram (place usedImage referringProgram 4).1
      (place usedImage referringProgram 4).2 strings) ∧
    (place usedImage referringProgram 4).1.handles = [1, 2, 3] ∧
    ∃ e, bindInPlace danglingProgram 4 usedImage = .error (.refused e) usedImage := by
  have hbind : bind usedImage referringProgram 4 = .ok (place usedImage referringProgram 4) :=
    bind_eq_ok_iff.2 ⟨by decide, rfl⟩
  have hroom : (place usedImage referringProgram 4).2.heap.Roomy := by
    have hsizes := place_sizes usedImage referringProgram 4
    constructor
    · rw [hsizes.2]
      decide
    · rw [hsizes.1]
      decide
  refine ⟨(linking_faithful_atomic usedImage 4).1 _ _ _ hbind hroom, by decide, ?_⟩
  have hstops := ((linking_faithful_atomic usedImage 4).2.1 danglingProgram).1
  cases hrefused : bind usedImage danglingProgram 4 with
  | ok x =>
    have hverify : verify danglingProgram usedImage.primitives.count ≠ .ok () := by decide
    exact absurd (bind_eq_ok_iff.1 hrefused).1 hverify
  | error e =>
    rw [hrefused] at hstops
    exact ⟨e, hstops⟩

end ScriptMachine.Link
