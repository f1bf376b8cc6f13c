import ScriptMachine.Link.Linker
import ScriptMachine.Proofs.Link.Acceptance

/-!
# Linking in place

Linking as it goes about its work: it changes the one image that there is, object by object, and may
stop anywhere. Bodies are checked first. Then strings and bodies without constants are stored, and at
last the constants are filled in; a constant may refer to a body that was stored after its own. The
check is what makes all of this safe: once it is over nothing can fail any more, and until then
nothing is stored.
-/

namespace ScriptMachine.Link

open Bytecode

/-- Why linking in place stops: the program is refused, or a constant refers to nothing. -/
inductive Halt
  | refused (e : LinkError)
  | dangling
deriving DecidableEq

/-- A part of linking in place. -/
abbrev Linking (α : Type) := EStateM Halt Image α

/-- Checks bodies one after the other. -/
def checkBodies (strings prototypes : Nat) : List Prototype → Linking Unit
  | [] => pure ()
  | p :: rest => fun image =>
    match checkBody strings prototypes image.primitives.count p with
    | some o => .error (.refused (o.toLinkError p.name image.primitives.count)) image
    | none => checkBodies strings prototypes rest image

/-- Stores an object in the heap of the image. -/
def store (alloc : Heap → UInt32 × Heap) : Linking UInt32 := fun image =>
  .ok (alloc image.heap).1 { image with heap := (alloc image.heap).2 }

/-- The value that a constant stands for, if there is something at its index. -/
def resolve? (strings functions : Array UInt32) : Constant → Option Value
  | .int n => some (.int n.toInt)
  | .str i => strings[i.toNat]?.map .string
  | .bool b => some (.bool b)
  | .nil => some .nil
  | .fn i => functions[i.toNat]?.map .function

/-- Fills in the constants of a stored body. -/
def fillIn (strings functions : Array UInt32) (target : UInt32 × Prototype) : Linking Unit :=
  fun image =>
    match target.2.constants.toList.mapM (resolve? strings functions) with
    | none => .error .dangling image
    | some constants =>
      .ok () { image with heap := image.heap.setConstants target.1 constants.toArray }

/-- Links a program into the image. -/
def bindInPlace (program : Program) (sizeHint : Nat) : Linking LinkedUnit := do
  checkBodies program.strings.size program.prototypes.size program.bodies
  let strings ← program.strings.toList.mapM fun s => store (·.allocString s)
  let functions ← program.prototypes.toList.mapM fun p => store (·.allocFunction (bareFunction p))
  let main ← store (·.allocFunction (bareFunction program.main))
  forM ((functions ++ [main]).zip program.bodies) (fillIn strings.toArray functions.toArray)
  return ⟨main, functions.toArray, sizeHint⟩

/-- Hands bytes to the backend and links the program that it makes of them into the image. -/
def Linker.linkInPlace (l : Linker) (bytes : Bytes) (sizeHint : Nat) : Linking LinkedUnit :=
  match l.backend with
  | none => throw (.refused .notInitialized)
  | some b =>
    match b.read bytes sizeHint with
    | .error e => throw (.refused (.malformed (.unreadable e)))
    | .ok program => bindInPlace program sizeHint

theorem Linking.bind_of_ok {α β : Type} {x : Linking α} {next : α → Linking β} {image image' : Image}
    {a : α} (h : x image = .ok a image') : (x >>= next) image = next a image' := by
  show EStateM.bind x next image = _
  rw [EStateM.bind, h]

theorem Linking.bind_of_error {α β : Type} {x : Linking α} {next : α → Linking β}
    {image image' : Image} {e : Halt} (h : x image = .error e image') :
    (x >>= next) image = .error e image' := by
  show EStateM.bind x next image = _
  rw [EStateM.bind, h]

/-! ## The phases -/

/-- The check stops at the first flaw, and changes nothing. -/
theorem checkBodies_eq (strings prototypes : Nat) (ps : List Prototype) (image : Image) :
    checkBodies strings prototypes ps image =
      match ps.findSome? fun p => (checkBody strings prototypes image.primitives.count p).map
        (Objection.toLinkError p.name image.primitives.count) with
      | some e => .error (.refused e) image
      | none => .ok () image := by
  induction ps with
  | nil => rfl
  | cons p rest ih =>
    rw [checkBodies, List.findSome?_cons]
    dsimp only
    cases checkBody strings prototypes image.primitives.count p with
    | none => exact ih
    | some o => rfl

theorem checkBodies_program (program : Program) (image : Image) :
    checkBodies program.strings.size program.prototypes.size program.bodies image =
      match verify program image.primitives.count with
      | .error e => .error (.refused e) image
      | .ok () => .ok () image := by
  rw [checkBodies_eq, verify]
  generalize (program.bodies.findSome? fun p => _) = objection
  cases objection <;> rfl

/-- Storing object by object hands back the same handles and heap as storing all at once. -/
theorem mapM_store {α : Type} (alloc : Heap → α → UInt32 × Heap) (xs : List α) (image : Image)
    (done : Array UInt32) :
    ∃ handles heap,
      (xs.mapM fun x => store fun h => alloc h x) image = .ok handles { image with heap } ∧
      xs.foldl (fun (handles, heap) x =>
        let (handle, heap) := alloc heap x
        (handles.push handle, heap)) (done, image.heap) = (done ++ handles.toArray, heap) := by
  induction xs generalizing image done with
  | nil => exact ⟨[], image.heap, rfl, by simp⟩
  | cons x rest ih =>
    obtain ⟨handles, heap, hrest, hfold⟩ :=
      ih { image with heap := (alloc image.heap x).2 } (done.push (alloc image.heap x).1)
    refine ⟨(alloc image.heap x).1 :: handles, heap, ?_, hfold.trans (by simp)⟩
    have hfirst : store (fun h => alloc h x) image =
        .ok (alloc image.heap x).1 { image with heap := (alloc image.heap x).2 } := rfl
    rw [List.mapM_cons, Linking.bind_of_ok hfirst, Linking.bind_of_ok hrest]
    rfl

theorem mapM_storeString (image : Image) (ss : Array String) :
    ∃ strings heap, (ss.toList.mapM fun s => store (·.allocString s)) image =
        .ok strings { image with heap } ∧
      image.heap.allocStrings ss = (strings.toArray, heap) ∧ strings.toArray.size = ss.size := by
  obtain ⟨strings, heap, hrun, halloc⟩ := mapM_store Heap.allocString ss.toList image #[]
  rw [Array.empty_append] at halloc
  have heq : image.heap.allocStrings ss = (strings.toArray, heap) := by
    rw [Heap.allocStrings, ← Array.foldl_toList]
    exact halloc
  refine ⟨strings, heap, hrun, heq, ?_⟩
  obtain ⟨_, hfrom⟩ := allocStrings_eq image.heap ss
  rw [heq] at hfrom
  rw [(Prod.mk.inj hfrom).1, size_handlesFrom]

theorem mapM_storeBody (image : Image) (ps : List Prototype) :
    ∃ functions heap, (ps.mapM fun p => store (·.allocFunction (bareFunction p))) image =
        .ok functions { image with heap } ∧
      allocBodies image.heap ps = (functions.toArray, heap) ∧ functions.toArray.size = ps.length := by
  obtain ⟨functions, heap, hrun, halloc⟩ :=
    mapM_store (fun h p => h.allocFunction (bareFunction p)) ps image #[]
  rw [Array.empty_append] at halloc
  have heq : allocBodies image.heap ps = (functions.toArray, heap) := halloc
  refine ⟨functions, heap, hrun, heq, ?_⟩
  obtain ⟨_, hfrom⟩ := allocBodies_eq image.heap ps
  rw [heq] at hfrom
  rw [(Prod.mk.inj hfrom).1, size_handlesFrom]

/-- A constant that was checked refers to something. -/
theorem resolve?_eq {strings functions : Array UInt32} {k : Constant}
    (hk : constantOk strings.size functions.size k = true) :
    resolve? strings functions k = some (resolveConstant strings functions k) := by
  cases k with
  | int n => rfl
  | str i =>
    have hi : i.toNat < strings.size := by simpa [constantOk] using hk
    simp [resolve?, resolveConstant, hi]
  | bool b => rfl
  | nil => rfl
  | fn i =>
    have hi : i.toNat < functions.size := by simpa [constantOk] using hk
    simp [resolve?, resolveConstant, hi]

theorem mapM_resolve? {strings functions : Array UInt32} {ks : List Constant}
    (hks : ∀ k ∈ ks, constantOk strings.size functions.size k = true) :
    ks.mapM (resolve? strings functions) = some (ks.map (resolveConstant strings functions)) := by
  induction ks with
  | nil => rfl
  | cons k rest ih =>
    rw [List.mapM_cons, resolve?_eq (hks k List.mem_cons_self),
      ih fun k' hk' => hks k' (List.mem_cons_of_mem _ hk')]
    rfl

theorem fillIn_eq {strings functions : Array UInt32} {target : UInt32 × Prototype}
    (hks : ∀ k ∈ target.2.constants, constantOk strings.size functions.size k = true) (image : Image) :
    fillIn strings functions target image =
      .ok () { image with heap := (image.heap.setConstants target.1
        (target.2.constants.map (resolveConstant strings functions))) } := by
  rw [fillIn, mapM_resolve? fun k hk => hks k (Array.mem_toList_iff.1 hk), ← Array.toList_map]

/-- Constants that were checked can all be filled in. -/
theorem forM_fillIn {strings functions : Array UInt32} (targets : List (UInt32 × Prototype))
    (htargets : ∀ t ∈ targets, ∀ k ∈ t.2.constants, constantOk strings.size functions.size k = true)
    (image : Image) :
    forM targets (fillIn strings functions) image =
      .ok () { image with
        heap := (targets.foldl (fun heap (handle, p) => heap.setConstants handle
          (p.constants.map (resolveConstant strings functions))) image.heap) } := by
  induction targets generalizing image with
  | nil => rfl
  | cons t rest ih =>
    have hfirst := fillIn_eq (htargets t List.mem_cons_self) image
    rw [List.forM_cons, Linking.bind_of_ok hfirst,
      ih fun t' ht' => htargets t' (List.mem_cons_of_mem _ ht')]
    rfl

/-! ## Whole programs -/

/-- Nothing fails once the bodies are checked. -/
theorem bindInPlace_of_verify {program : Program} {image : Image}
    (hverify : verify program image.primitives.count = .ok ()) (sizeHint : Nat) :
    bindInPlace program sizeHint image =
      .ok (place image program sizeHint).1 (place image program sizeHint).2 := by
  have hcheck := checkBodies_program program image
  rw [hverify] at hcheck
  obtain ⟨strings, heap₁, hstrings, hallocStrings, hsize⟩ := mapM_storeString image program.strings
  obtain ⟨functions, heap₂, hfunctions, hallocBodies, hcount⟩ :=
    mapM_storeBody { image with heap := heap₁ } program.prototypes.toList
  have hmain : store (fun h => h.allocFunction (bareFunction program.main))
      { image with heap := heap₂ } =
        .ok (heap₂.allocFunction (bareFunction program.main)).1
          { image with heap := (heap₂.allocFunction (bareFunction program.main)).2 } := rfl
  -- The indices were checked against tables of these sizes.
  have hconstants : ∀ t ∈ (functions ++ [(heap₂.allocFunction (bareFunction program.main)).1]).zip
      program.bodies, ∀ k ∈ t.2.constants,
        constantOk strings.toArray.size functions.toArray.size k = true := by
    intro t ht k hk
    rw [hsize, hcount, Array.length_toList]
    exact (verify_eq_ok_iff.1 hverify t.2 (List.of_mem_zip ht).2).constants k hk
  unfold bindInPlace
  rw [Linking.bind_of_ok hcheck, Linking.bind_of_ok hstrings, Linking.bind_of_ok hfunctions,
    Linking.bind_of_ok hmain, Linking.bind_of_ok (forM_fillIn _ hconstants _)]
  obtain ⟨globals, primitives, heap⟩ := image
  simp only [place, hallocStrings, hallocBodies, List.push_toArray]
  rfl

/-- An image after linking: the one that holds the unit, or the one before. -/
def settled (image : Image) :
    Except LinkError (LinkedUnit × Image) → EStateM.Result Halt Image LinkedUnit
  | .ok (unit, image') => .ok unit image'
  | .error e => .error (.refused e) image

theorem eq_of_settled {image after : Image} {result : Except LinkError (LinkedUnit × Image)} {e : Halt}
    (h : settled image result = .error e after) : after = image := by
  cases result with
  | error e' => cases h; rfl
  | ok x => cases h

/-- Linking in place comes to what linking says: it stores the program, or changes nothing. -/
theorem bindInPlace_eq (program : Program) (sizeHint : Nat) (image : Image) :
    bindInPlace program sizeHint image = settled image (bind image program sizeHint) := by
  cases hverify : verify program image.primitives.count with
  | error e =>
    have hcheck := checkBodies_program program image
    rw [hverify] at hcheck
    rw [bind, hverify]
    exact Linking.bind_of_error hcheck
  | ok u =>
    rw [bind, hverify]
    exact bindInPlace_of_verify hverify sizeHint

/-- So does the linker: it links what its backend reads, or changes nothing. -/
theorem Linker.linkInPlace_eq (l : Linker) (bytes : Bytes) (sizeHint : Nat) (image : Image) :
    l.linkInPlace bytes sizeHint image = settled image (l.link image bytes sizeHint).1 := by
  unfold Linker.linkInPlace Linker.link Linker.read
  cases l.backend with
  | none => rfl
  | some b =>
    dsimp only
    cases b.read bytes sizeHint with
    | error e => rfl
    | ok program =>
      dsimp only
      rw [bindInPlace_eq, bind]
      cases verify program image.primitives.count <;> rfl

/-- The reasons for which a linker refuses: it has no backend, or its backend cannot read the bytes, or
the program fails verification. -/
theorem Linker.link_eq_error_iff {l : Linker} {image : Image} {bytes : Bytes} {sizeHint : Nat}
    {e : LinkError} :
    (l.link image bytes sizeHint).1 = .error e ↔
      (l.backend = none ∧ e = .notInitialized) ∨
      ∃ b, l.backend = some b ∧
        ((∃ e', b.read bytes sizeHint = .error e' ∧ e = .malformed (.unreadable e')) ∨
          ∃ program, b.read bytes sizeHint = .ok program ∧
            verify program image.primitives.count = .error e) := by
  unfold Linker.link Linker.read
  cases l.backend with
  | none => simp [eq_comm]
  | some b =>
    cases hread : b.read bytes sizeHint with
    | error e' => simp [hread, eq_comm]
    | ok program =>
      cases hverify : verify program image.primitives.count with
      | error e' => simp [hread, hverify]
      | ok u => simp [hread, hverify]

end ScriptMachine.Link
