import ScriptMachine.Link.Unit
import ScriptMachine.Proofs.Value.Growth

/-!
# What linking puts into the heap

Linking adds the strings of a program behind the strings of the heap, and its bodies behind the
functions, each with its constants resolved. Nothing else of the image changes. The handles are the
places where things were put, which takes that a heap has fewer than `2 ^ 32` functions.
-/

namespace ScriptMachine.Link

open Bytecode

/-- The handles of `n` objects, the first of which stands at `start`. -/
def handlesFrom (start n : Nat) : Array UInt32 :=
  ((List.range' start n).map UInt32.ofNat).toArray

/-- A body with its constants, in a heap where its program's strings and functions have these
handles. -/
def linkedFunction (strings functions : Array UInt32) (p : Prototype) : Function :=
  { bareFunction p with constants := p.constants.map (resolveConstant strings functions) }

@[simp] theorem size_handlesFrom (start n : Nat) : (handlesFrom start n).size = n := by
  simp [handlesFrom]

theorem getElem?_handlesFrom {start n i : Nat} (h : i < n) :
    (handlesFrom start n)[i]? = some (UInt32.ofNat (start + i)) := by
  simp [handlesFrom, h]

theorem getD_handlesFrom {start n i : Nat} (h : i < n) :
    (handlesFrom start n).getD i 0 = UInt32.ofNat (start + i) := by
  rw [Array.getD_eq_getD_getElem?, getElem?_handlesFrom h, Option.getD_some]

theorem handlesFrom_succ (start n : Nat) :
    handlesFrom start (n + 1) = #[UInt32.ofNat start] ++ handlesFrom (start + 1) n := by
  simp [handlesFrom, List.range'_succ]

theorem handlesFrom_zero (start : Nat) : handlesFrom start 0 = #[] := rfl

theorem toNat_ofNat_of_lt {n : Nat} (h : n < handleCount) : (UInt32.ofNat n).toNat = n := by
  rw [UInt32.toNat_ofNat']
  exact Nat.mod_eq_of_lt h

/-! ## Strings and bodies -/

theorem allocStrings_from (heap : Heap) (handles : Array UInt32) (ss : List String) :
    ∃ bytes, ss.foldl (fun (handles, h) s =>
        let (handle, h) := Heap.allocString h s
        (handles.push handle, h)) (handles, heap) =
      (handles ++ handlesFrom heap.strings.size ss.length,
        ⟨heap.strings ++ ss.toArray, heap.functions, bytes⟩) := by
  induction ss generalizing heap handles with
  | nil => exact ⟨heap.bytesAsked, by simp [handlesFrom_zero]⟩
  | cons s rest ih =>
    obtain ⟨bytes, h⟩ := ih (heap.allocString s).2 (handles.push (heap.allocString s).1)
    refine ⟨bytes, h.trans ?_⟩
    simp [handlesFrom_succ]

/-- The strings of a program stand behind those of the heap. -/
theorem allocStrings_eq (heap : Heap) (ss : Array String) :
    ∃ bytes, heap.allocStrings ss =
      (handlesFrom heap.strings.size ss.size, ⟨heap.strings ++ ss, heap.functions, bytes⟩) := by
  obtain ⟨bytes, h⟩ := allocStrings_from heap #[] ss.toList
  refine ⟨bytes, ?_⟩
  rw [Heap.allocStrings, ← Array.foldl_toList]
  refine h.trans ?_
  simp

theorem allocBodies_from (heap : Heap) (handles : Array UInt32) (ps : List Prototype) :
    ∃ bytes, ps.foldl (fun (handles, heap) p =>
        let (handle, heap) := Heap.allocFunction heap (bareFunction p)
        (handles.push handle, heap)) (handles, heap) =
      (handles ++ handlesFrom heap.functions.size ps.length,
        ⟨heap.strings, heap.functions ++ (ps.map bareFunction).toArray, bytes⟩) := by
  induction ps generalizing heap handles with
  | nil => exact ⟨heap.bytesAsked, by simp [handlesFrom_zero]⟩
  | cons p rest ih =>
    obtain ⟨bytes, h⟩ := ih (heap.allocFunction (bareFunction p)).2
      (handles.push (heap.allocFunction (bareFunction p)).1)
    refine ⟨bytes, h.trans ?_⟩
    simp [handlesFrom_succ, Heap.allocFunction]

/-- The functions of a program stand behind those of the heap. -/
theorem allocBodies_eq (heap : Heap) (ps : List Prototype) :
    ∃ bytes, allocBodies heap ps =
      (handlesFrom heap.functions.size ps.length,
        ⟨heap.strings, heap.functions ++ (ps.map bareFunction).toArray, bytes⟩) := by
  obtain ⟨bytes, h⟩ := allocBodies_from heap #[] ps
  refine ⟨bytes, h.trans ?_⟩
  simp

/-! ## Constants -/

theorem modify_append_cons {α : Type} (xs ys : List α) (x : α) (g : α → α) :
    (xs ++ x :: ys).modify xs.length g = xs ++ g x :: ys := by
  induction xs with
  | nil => simp
  | cons y xs ih => simpa using ih

/-- Filling in the constants of the body at the end of `done` leaves all else as it is. -/
theorem setConstants_append (ss : Array String) (done rest : List Function) (f : Function)
    (bytes : Nat) (constants : Array Value) (hlt : done.length < handleCount) :
    Heap.setConstants ⟨ss, (done ++ f :: rest).toArray, bytes⟩ (UInt32.ofNat done.length)
        constants =
      ⟨ss, (done ++ { f with constants } :: rest).toArray, bytes⟩ := by
  simp only [Heap.setConstants, toNat_ofNat_of_lt hlt, Heap.mk.injEq, true_and, and_true]
  simp [modify_append_cons]

/-- Filling in constants body by body turns bare functions into linked ones. -/
theorem setConstants_foldl (strings functions : Array UInt32) (ss : Array String)
    (done : List Function) (ps : List Prototype) (bytes : Nat)
    (hle : done.length + ps.length ≤ handleCount) :
    ((handlesFrom done.length ps.length).toList.zip ps).foldl (fun heap (handle, p) =>
        Heap.setConstants heap handle (p.constants.map (resolveConstant strings functions)))
      ⟨ss, (done ++ ps.map bareFunction).toArray, bytes⟩ =
    ⟨ss, (done ++ ps.map (linkedFunction strings functions)).toArray, bytes⟩ := by
  induction ps generalizing done with
  | nil => simp
  | cons p rest ih =>
    have hlt : done.length < handleCount := by
      simp only [List.length_cons] at hle
      omega
    have hrest := ih (done ++ [linkedFunction strings functions p]) (by
      simp only [List.length_append, List.length_cons, List.length_nil] at hle ⊢
      omega)
    rw [List.length_cons, handlesFrom_succ]
    simp only [Array.toList_append, List.cons_append, List.nil_append, List.zip_cons_cons,
      List.foldl_cons, List.map_cons]
    rw [setConstants_append _ _ _ _ _ _ hlt]
    simpa [linkedFunction] using hrest

/-- Filling in constants leaves the strings and the number of functions. -/
theorem setConstants_foldl_sizes (g : Prototype → Array Value) (xs : List (UInt32 × Prototype))
    (heap : Heap) :
    (xs.foldl (fun heap (handle, p) => heap.setConstants handle (g p)) heap).functions.size =
        heap.functions.size ∧
      (xs.foldl (fun heap (handle, p) => heap.setConstants handle (g p)) heap).strings =
        heap.strings := by
  induction xs generalizing heap with
  | nil => exact ⟨rfl, rfl⟩
  | cons x rest ih =>
    rw [List.foldl_cons]
    obtain ⟨hfunctions, hstrings⟩ := ih (heap.setConstants x.1 (g x.2))
    exact ⟨hfunctions.trans (by simp [Heap.setConstants]), hstrings⟩

/-! ## Programs -/

/-- How many strings and functions there are after linking, whether or not handles wrap. -/
theorem place_sizes (image : Image) (program : Program) (sizeHint : Nat) :
    (place image program sizeHint).2.heap.functions.size =
        image.heap.functions.size + program.bodies.length ∧
      (place image program sizeHint).2.heap.strings.size =
        image.heap.strings.size + program.strings.size := by
  obtain ⟨globals, primitives, heap⟩ := image
  obtain ⟨b₁, h₁⟩ := allocStrings_eq heap program.strings
  obtain ⟨b₂, h₂⟩ := allocBodies_eq ⟨heap.strings ++ program.strings, heap.functions, b₁⟩
    program.prototypes.toList
  simp only [place, h₁, h₂]
  constructor
  · refine (setConstants_foldl_sizes (fun p => p.constants.map _) _ _).1.trans ?_
    simp [Heap.allocFunction, Program.bodies, Nat.add_assoc]
  · refine (congrArg Array.size (setConstants_foldl_sizes (fun p => p.constants.map _) _ _).2).trans
      ?_
    simp [Heap.allocFunction]

theorem place_functions_size (image : Image) (program : Program) (sizeHint : Nat) :
    (place image program sizeHint).2.heap.functions.size =
      image.heap.functions.size + program.bodies.length :=
  (place_sizes image program sizeHint).1

/-- Linking adds the strings and the linked bodies of a program to the heap, the main body last, and
does nothing else. -/
theorem place_eq (image : Image) (program : Program) (sizeHint : Nat)
    (hle : image.heap.functions.size + program.bodies.length ≤ handleCount) :
    ∃ bytes, place image program sizeHint =
      (⟨UInt32.ofNat (image.heap.functions.size + program.prototypes.size),
          handlesFrom image.heap.functions.size program.prototypes.size, sizeHint⟩,
        ⟨image.globals, image.primitives,
          ⟨image.heap.strings ++ program.strings,
            image.heap.functions ++ (program.bodies.map (linkedFunction
              (handlesFrom image.heap.strings.size program.strings.size)
              (handlesFrom image.heap.functions.size program.prototypes.size))).toArray,
            bytes⟩⟩) := by
  obtain ⟨globals, primitives, heap⟩ := image
  obtain ⟨b₁, h₁⟩ := allocStrings_eq heap program.strings
  obtain ⟨b₂, h₂⟩ := allocBodies_eq ⟨heap.strings ++ program.strings, heap.functions, b₁⟩
    program.prototypes.toList
  have hbodies : program.bodies.length = program.prototypes.toList.length + 1 := by
    simp [Program.bodies]
  have hhandles : (handlesFrom heap.functions.size program.prototypes.toList.length).push
      (UInt32.ofNat (heap.functions.size + program.prototypes.toList.length)) =
        handlesFrom heap.functions.toList.length program.bodies.length := by
    rw [hbodies, Array.length_toList]
    simp [handlesFrom, List.range'_concat]
  have hfunctions : (heap.functions ++ (program.prototypes.toList.map bareFunction).toArray).push
      (bareFunction program.main) =
        (heap.functions.toList ++ program.bodies.map bareFunction).toArray := by
    simp [Program.bodies]
  simp only [place, h₁, h₂, Heap.allocFunction, hfunctions, Array.size_append, List.size_toArray,
    List.length_map, hhandles]
  rw [setConstants_foldl _ _ _ _ _ _ (by simpa using hle)]
  refine ⟨b₂ + 4 * (bareFunction program.main).code.size +
    8 * (bareFunction program.main).constants.size, ?_⟩
  simp

end ScriptMachine.Link
