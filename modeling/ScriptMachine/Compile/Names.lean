/-!
# Names

What a session knows of names: the slot of each global and the index of each primitive. A name that
is defined again moves to a new slot, and no slot is given out twice.
-/

namespace ScriptMachine.Compile

/-- Where a global lives, and whether it may be assigned to. -/
structure GlobalName where
  slot : Nat
  mutable : Bool
deriving DecidableEq, Repr

/-- A global that a fragment introduces. -/
structure Definition where
  name : String
  slot : Nat
  mutable : Bool
deriving DecidableEq, Repr

/-- The place that a definition gives its name. -/
def Definition.place (d : Definition) : GlobalName :=
  ⟨d.slot, d.mutable⟩

/-- The names in scope of a fragment, each with its meaning. -/
structure Names where
  globals : List (String × GlobalName)
  nextSlot : Nat
  primitives : List (String × Nat)
deriving DecidableEq, Repr

/-- The table with `key` mapped to `value` and all else unchanged. -/
def assign {α : Type} (key : String) (value : α) : List (String × α) → List (String × α)
  | [] => [(key, value)]
  | (k, v) :: rest => if k = key then (key, value) :: rest else (k, v) :: assign key value rest

namespace Names

/-- No names. -/
def empty : Names :=
  ⟨[], 0, []⟩

/-- The place of a global. -/
def global? (n : Names) (name : String) : Option GlobalName :=
  n.globals.lookup name

/-- The index of a primitive. -/
def primitive? (n : Names) (name : String) : Option Nat :=
  n.primitives.lookup name

/-- Gives the primitive `name` the index `index`. -/
def namePrimitive (n : Names) (name : String) (index : Nat) : Names :=
  { n with primitives := assign name index n.primitives }

/-- Takes up the primitives of a registry, in the order of their indices; a later one of the same
name wins. -/
def namePrimitives (n : Names) (names : List String) : Names :=
  names.zipIdx.foldl (fun n (name, index) => n.namePrimitive name index) n

/-- Makes one definition visible. -/
def define (n : Names) (d : Definition) : Names :=
  { n with
    globals := assign d.name d.place n.globals
    nextSlot := max n.nextSlot (d.slot + 1) }

/-- Makes definitions visible, in order. -/
def commit (n : Names) (ds : List Definition) : Names :=
  ds.foldl define n

/-- The globals in the order of their slots. -/
def bindings (n : Names) : List Definition :=
  (n.globals.map fun (name, g) => ⟨name, g.slot, g.mutable⟩).mergeSort fun d e => d.slot ≤ e.slot

end Names

/-- A name has the value that it was given last. -/
@[simp] theorem lookup_assign_self {α : Type} (key : String) (value : α) (t : List (String × α)) :
    (assign key value t).lookup key = some value := by
  induction t with
  | nil => simp [assign]
  | cons entry rest ih =>
    obtain ⟨k, v⟩ := entry
    unfold assign
    split
    · exact List.lookup_cons_self
    · next h =>
      have hne : (key == k) = false := by simpa using fun h' => h h'.symm
      rw [List.lookup_cons, hne]
      exact ih

/-- Giving a name a value leaves the others as they are. -/
theorem lookup_assign_ne {α : Type} {key name : String} (h : name ≠ key) (value : α)
    (t : List (String × α)) : (assign key value t).lookup name = t.lookup name := by
  have hne : (name == key) = false := by simpa using h
  induction t with
  | nil => simp [assign, List.lookup_cons, hne]
  | cons entry rest ih =>
    obtain ⟨k, v⟩ := entry
    unfold assign
    split
    · next hk => rw [List.lookup_cons, List.lookup_cons, hk, hne]
    · rw [List.lookup_cons, List.lookup_cons, ih]

end ScriptMachine.Compile
