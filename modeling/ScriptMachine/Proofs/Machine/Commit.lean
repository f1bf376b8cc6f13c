import ScriptMachine.Machine.Globals
import ScriptMachine.Proofs.Value.Growth

/-!
# Storing the writes of a run

The writes of a run are always stored: the table grows to hold them all. Afterwards each slot that
was written holds what the run wrote last, and each other slot what it held before; slots that were
added and not written are empty.

A table is also grown and stored in from outside. Whatever was done to it, a slot holds what was stored
there last. The table is just as long as it was asked to be, and what fails leaves it as it was.
-/

namespace ScriptMachine.GlobalTable

theorem foldl_max_le_iff (writes : List (Nat × Value)) (n l : Nat) :
    writes.foldl (fun n w => max n (w.1 + 1)) n ≤ l ↔ n ≤ l ∧ ∀ w ∈ writes, w.1 < l := by
  induction writes generalizing n with
  | nil => simp
  | cons w rest ih =>
    rw [List.foldl_cons, ih]
    simp only [List.mem_cons, forall_eq_or_imp]
    rw [Nat.max_le, and_assoc, Nat.succ_le_iff]

/-- The shortest table that holds all writes has just the slots that are needed. -/
theorem lengthFor_le_iff {writes : List (Nat × Value)} {l : Nat} :
    lengthFor writes ≤ l ↔ ∀ w ∈ writes, w.1 < l := by
  rw [lengthFor, foldl_max_le_iff]
  simp

theorem size_ensureLength (t : GlobalTable) (n : Nat) :
    (t.ensureLength n).slots.size = max t.slots.size n := by
  simp only [ensureLength, length, Array.size_append, Array.size_replicate]
  omega

theorem getElem?_ensureLength (t : GlobalTable) (n i : Nat) :
    (t.ensureLength n).slots[i]? =
      if i < t.slots.size then t.slots[i]? else if i < n then some .empty else none := by
  simp only [ensureLength, length, Array.getElem?_append, Array.getElem?_replicate]
  by_cases hi : i < t.slots.size
  · rw [if_pos hi, if_pos hi]
  · rw [if_neg hi, if_neg hi]
    by_cases hn : i < n
    · rw [if_pos hn, if_pos (by omega)]
    · rw [if_neg hn, if_neg (by omega)]

/-- Writes to slots that exist are stored, and the last one to a slot stays. -/
theorem setAll_eq (writes : List (Nat × Value)) (t : GlobalTable)
    (hslots : ∀ w ∈ writes, w.1 < t.slots.size) :
    ∃ t', t.setAll writes = .ok () t' ∧ t'.slots.size = t.slots.size ∧
      ∀ i : Nat, t'.slots[i]? = (writes.reverse.lookup i).or t.slots[i]? := by
  induction writes generalizing t with
  | nil => exact ⟨t, rfl, rfl, fun i => rfl⟩
  | cons w rest ih =>
    obtain ⟨slot, v⟩ := w
    have hslot : slot < t.slots.size := hslots (slot, v) List.mem_cons_self
    obtain ⟨t', heq, hsize, hheld⟩ := ih ⟨t.slots.set slot v hslot⟩ fun w hw => by
      simpa using hslots w (List.mem_cons_of_mem _ hw)
    refine ⟨t', ?_, by simpa using hsize, fun i => ?_⟩
    · rw [setAll, dif_pos hslot]
      exact heq
    · rw [hheld, List.reverse_cons, List.lookup_append, Option.or_assoc, Array.getElem?_set]
      by_cases hi : slot = i
      · subst hi
        simp
      · have hbeq : (i == slot) = false := by simpa using Ne.symm hi
        simp [List.lookup_cons, hi, hbeq]

/-- Storing writes succeeds, whatever they are, and this is what the table holds then. -/
theorem commit_writes (t : GlobalTable) (writes : List (Nat × Value)) :
    ∃ t', t.commit writes = .ok () t' ∧ t'.slots.size = max t.slots.size (lengthFor writes) ∧
      ∀ i : Nat, t'.slots[i]? =
        (writes.reverse.lookup i).or (t.ensureLength (lengthFor writes)).slots[i]? := by
  obtain ⟨t', heq, hsize, hheld⟩ := setAll_eq writes (t.ensureLength (lengthFor writes))
    fun w hw => by
      rw [size_ensureLength]
      exact lt_of_lt_of_le (lengthFor_le_iff.1 (le_refl _) w hw) (le_max_right _ _)
  exact ⟨t', heq, by rw [hsize, size_ensureLength], hheld⟩

/-- The slot of each write is below the length that is needed. -/
theorem lt_lengthFor {pending : Writes} {i : Nat} {v : Value} (h : pending[i]? = some v) :
    i < lengthFor pending.toList :=
  lengthFor_le_iff.1 (le_refl _) (i, v) (Std.TreeMap.mem_toList_iff_getElem?_eq_some.2 h)

/-- A run's writes are to different slots. -/
theorem distinct_slots (pending : Writes) :
    pending.toList.Pairwise fun w w' => w.1 ≠ w'.1 :=
  Std.TreeMap.distinct_keys_toList.imp fun h he => h (by rw [he]; exact Std.ReflCmp.compare_self)

/-- Where no slot is written twice, a lookup finds the write. -/
theorem lookup_eq_some_iff {writes : List (Nat × Value)}
    (h : writes.Pairwise fun w w' => w.1 ≠ w'.1) {slot : Nat} {v : Value} :
    writes.lookup slot = some v ↔ (slot, v) ∈ writes := by
  induction writes with
  | nil => simp
  | cons w rest ih =>
    obtain ⟨hne, hrest⟩ := List.pairwise_cons.1 h
    obtain ⟨slot', v'⟩ := w
    rw [List.lookup_cons, List.mem_cons]
    by_cases hslot : slot = slot'
    · subst hslot
      simp only [beq_self_eq_true, Option.some.injEq, Prod.mk.injEq, true_and]
      refine ⟨fun h => .inl h.symm, ?_⟩
      rintro (rfl | hv)
      · rfl
      · exact absurd rfl (hne (slot, v) hv)
    · have hbeq : (slot == slot') = false := by simpa using hslot
      simp only [hbeq, ih hrest, Prod.mk.injEq, hslot, false_and, false_or]

/-- The writes of a run list what was written to each slot. -/
theorem lookup_toList (pending : Writes) (slot : Nat) :
    pending.toList.lookup slot = pending[slot]? := by
  refine Option.ext fun v => ?_
  rw [lookup_eq_some_iff (distinct_slots pending), Std.TreeMap.mem_toList_iff_getElem?_eq_some]

theorem lookup_reverse_toList (pending : Writes) (slot : Nat) :
    pending.toList.reverse.lookup slot = pending[slot]? := by
  have hdistinct : pending.toList.reverse.Pairwise fun w w' => w.1 ≠ w'.1 :=
    List.pairwise_reverse.2 ((distinct_slots pending).imp Ne.symm)
  refine Option.ext fun v => ?_
  rw [lookup_eq_some_iff hdistinct, List.mem_reverse, Std.TreeMap.mem_toList_iff_getElem?_eq_some]

/-- Storing the writes of a run succeeds, and this is what the table holds then. -/
theorem commit_eq (t : GlobalTable) (pending : Writes) :
    ∃ t', t.commit pending.toList = .ok () t' ∧
      t'.slots.size = max t.slots.size (lengthFor pending.toList) ∧
      ∀ i : Nat, t'.slots[i]? =
        (pending[i]?).or (t.ensureLength (lengthFor pending.toList)).slots[i]? := by
  obtain ⟨t', heq, hsize, hheld⟩ := t.commit_writes pending.toList
  exact ⟨t', heq, hsize, fun i => by rw [hheld, lookup_reverse_toList]⟩

/-! ## One more write -/

/-- The table when the writes of a run have been stored. -/
def after (t : GlobalTable) (pending : Writes) : GlobalTable :=
  match t.commit pending.toList with
  | .ok _ t' => t'
  | .error _ t' => t'

theorem commit_after (t : GlobalTable) (pending : Writes) :
    t.commit pending.toList = .ok () (t.after pending) := by
  obtain ⟨t', heq, -, -⟩ := t.commit_eq pending
  rw [after, heq]

theorem size_after (t : GlobalTable) (pending : Writes) :
    (t.after pending).slots.size = max t.slots.size (lengthFor pending.toList) := by
  obtain ⟨t', heq, hsize, -⟩ := t.commit_eq pending
  rwa [after, heq]

theorem getElem?_after (t : GlobalTable) (pending : Writes) (i : Nat) :
    (t.after pending).slots[i]? =
      (pending[i]?).or (t.ensureLength (lengthFor pending.toList)).slots[i]? := by
  obtain ⟨t', heq, -, hslots⟩ := t.commit_eq pending
  rw [after, heq]
  exact hslots i

theorem eq_of_slots {t t' : GlobalTable} (h : t.slots = t'.slots) : t = t' := by
  cases t
  exact congrArg GlobalTable.mk h

theorem after_empty (t : GlobalTable) : t.after ∅ = t := by
  have hlength : lengthFor (∅ : Writes).toList = 0 := rfl
  refine eq_of_slots (Array.ext_getElem? fun i => ?_)
  rw [getElem?_after, Std.TreeMap.getElem?_emptyc, Option.none_or, hlength, getElem?_ensureLength]
  split_ifs with hi
  · rfl
  · exact absurd ‹i < 0› (Nat.not_lt_zero i)
  · exact (Array.getElem?_eq_none (Nat.le_of_not_lt hi)).symm

theorem lengthFor_insert (pending : Writes) (slot : Nat) (v : Value) :
    lengthFor (pending.insert slot v).toList = max (lengthFor pending.toList) (slot + 1) := by
  have hle : ∀ l, lengthFor (pending.insert slot v).toList ≤ l ↔
      max (lengthFor pending.toList) (slot + 1) ≤ l := by
    intro l
    rw [Nat.max_le, lengthFor_le_iff, lengthFor_le_iff, Nat.succ_le_iff]
    constructor
    · intro h
      refine ⟨fun w hw => ?_, h (slot, v) ?_⟩
      · by_cases hslot : w.1 = slot
        · rw [hslot]
          exact h (slot, v) (by simp [Std.TreeMap.mem_toList_iff_getElem?_eq_some])
        · refine h w ?_
          obtain ⟨i, u⟩ := w
          have hne : compare slot i ≠ .eq := fun he => hslot (Std.LawfulEqCmp.eq_of_compare he).symm
          rw [Std.TreeMap.mem_toList_iff_getElem?_eq_some] at hw ⊢
          rwa [Std.TreeMap.getElem?_insert, if_neg hne]
      · simp [Std.TreeMap.mem_toList_iff_getElem?_eq_some]
    · rintro ⟨hall, hslot⟩ ⟨i, u⟩ hw
      rw [Std.TreeMap.mem_toList_iff_getElem?_eq_some, Std.TreeMap.getElem?_insert] at hw
      split_ifs at hw with he
      · exact Std.LawfulEqCmp.eq_of_compare he ▸ hslot
      · exact hall (i, u) (Std.TreeMap.mem_toList_iff_getElem?_eq_some.2 hw)
  exact Nat.le_antisymm ((hle _).2 (le_refl _)) ((hle _).1 (le_refl _))

/-- A write that is stored at once, after the others were stored, gives the same table. -/
theorem set_after (t : GlobalTable) (pending : Writes) (slot : Nat) (v : Value) :
    ((t.after pending).ensureLength (slot + 1)).set slot v =
      .ok (t.after (pending.insert slot v)) := by
  have hslot : slot < ((t.after pending).ensureLength (slot + 1)).slots.size := by
    rw [size_ensureLength]
    omega
  rw [set, dif_pos hslot]
  refine congrArg Except.ok (eq_of_slots (Array.ext_getElem? fun i => ?_))
  rw [Array.getElem?_set, getElem?_after, getElem?_ensureLength, getElem?_ensureLength,
    lengthFor_insert, Std.TreeMap.getElem?_insert, size_after, getElem?_after,
    getElem?_ensureLength]
  by_cases hi : slot = i
  · subst hi
    rw [if_pos rfl, if_pos Std.ReflCmp.compare_self, Option.some_or]
  · have hne : compare slot i ≠ .eq := fun he => hi (Std.LawfulEqCmp.eq_of_compare he)
    rw [if_neg hi, if_neg hne]
    cases hp : pending[i]? with
    | some u =>
      have hlt := lt_lengthFor hp
      rw [if_pos (by omega), Option.some_or, Option.some_or]
    | none =>
      rw [Option.none_or, Option.none_or]
      split_ifs <;> first | rfl | omega

/-- A table that has the slot does not grow. -/
theorem ensureLength_of_le {t : GlobalTable} {n : Nat} (h : n ≤ t.slots.size) :
    t.ensureLength n = t := by
  have hmissing : n - t.length = 0 := by
    rw [length]
    omega
  rw [ensureLength, hmissing]
  cases t
  simp

/-! ## What is done to a table -/

/-- What can be done to a table of globals. -/
inductive TableAction
  | grow (n : Nat)
  | store (slot : Nat) (v : Value)
  | commit (writes : List (Nat × Value))

namespace TableAction

/-- Does something to a table. A single store that fails hands back no table, so the old one stays. -/
def perform : TableAction → GlobalTable → EStateM.Result LinkError GlobalTable Unit
  | .grow n, t => .ok () (t.ensureLength n)
  | .store slot v, t =>
    match t.set slot v with
    | .ok t' => .ok () t'
    | .error e => .error e t
  | .commit writes, t => t.commit writes

/-- The table afterwards, whether that succeeded or not. -/
def result (a : TableAction) (t : GlobalTable) : GlobalTable :=
  match a.perform t with
  | .ok _ t' => t'
  | .error _ t' => t'

/-- The length that is asked for: one that is given, or one past the highest slot that is committed. -/
def requested : TableAction → Nat
  | .grow n => n
  | .store _ _ => 0
  | .commit writes => (writes.map fun w => w.1 + 1).max?.getD 0

/-- What is stored in a table of a length, in order. -/
def stored (length : Nat) : TableAction → List (Nat × Value)
  | .grow _ => []
  | .store slot v => if slot < length then [(slot, v)] else []
  | .commit writes => writes

end TableAction

/-- The table after a history, which lists the oldest action first. -/
def afterAll (t : GlobalTable) (history : List TableAction) : GlobalTable :=
  history.foldl (fun t a => a.result t) t

/-- All that a history stores, the oldest first, where the table was this long before. -/
def storedByAll : (length : Nat) → List TableAction → List (Nat × Value)
  | _, [] => []
  | length, a :: rest => a.stored length ++ storedByAll (max length a.requested) rest

/-! ## One action -/

theorem requested_commit (writes : List (Nat × Value)) :
    (TableAction.commit writes).requested = lengthFor writes := by
  refine Nat.le_antisymm ?_ (lengthFor_le_iff.2 fun w hw => ?_)
  · show (writes.map fun w => w.1 + 1).max?.getD 0 ≤ _
    cases hmax : (writes.map fun w => w.1 + 1).max? with
    | none => exact Nat.zero_le _
    | some m =>
      obtain ⟨w, hw, rfl⟩ := List.mem_map.1 (List.max?_mem hmax)
      exact lengthFor_le_iff.1 (Nat.le_refl _) w hw
  · show w.1 + 1 ≤ (writes.map fun w => w.1 + 1).max?.getD 0
    exact List.le_max?_getD_of_mem (List.mem_map_of_mem hw)

/-- What a table holds in each slot is what was stored there last, and nothing was stored beyond its
end. -/
structure Holds (t : GlobalTable) (length : Nat) (stores : List (Nat × Value)) : Prop where
  length_eq : t.length = length
  inside : ∀ w ∈ stores, w.1 < length
  held : ∀ i : Nat, t.slots[i]? =
    if i < length then some ((stores.reverse.lookup i).getD .empty) else none

/-- No slot beyond the end was stored in. -/
theorem lookup_eq_none {length i : Nat} {writes : List (Nat × Value)}
    (hinside : ∀ w ∈ writes, w.1 < length) (hi : length ≤ i) : writes.reverse.lookup i = none := by
  refine List.lookup_eq_none_iff.2 fun w hw => ?_
  have hlt := hinside w (List.mem_reverse.1 hw)
  rw [bne_iff_ne]
  omega

namespace Holds

variable {t : GlobalTable} {length : Nat} {stores : List (Nat × Value)}

/-- Growth adds slots that nothing was stored in. -/
theorem grow (h : t.Holds length stores) (n : Nat) :
    (t.ensureLength n).Holds (max length n) stores where
  length_eq := by
    rw [GlobalTable.length, size_ensureLength]
    exact congrArg (max · n) h.length_eq
  inside w hw := Nat.lt_of_lt_of_le (h.inside w hw) (Nat.le_max_left _ _)
  held i := by
    have hsize : t.slots.size = length := h.length_eq
    rw [getElem?_ensureLength, h.held, hsize]
    by_cases hi : i < length
    · rw [if_pos hi, if_pos hi, if_pos (Nat.lt_of_lt_of_le hi (Nat.le_max_left _ _))]
    · rw [if_neg hi, lookup_eq_none h.inside (Nat.le_of_not_lt hi)]
      by_cases hn : i < n
      · rw [if_pos hn, if_pos (Nat.lt_of_lt_of_le hn (Nat.le_max_right _ _))]
        rfl
      · rw [if_neg hn, if_neg (by omega)]

/-- Writes to slots that exist are stored after all that was stored before. -/
theorem write (h : t.Holds length stores) {writes : List (Nat × Value)} {t' : GlobalTable}
    (hinside : ∀ w ∈ writes, w.1 < length) (hsize : t'.slots.size = t.slots.size)
    (hheld : ∀ i : Nat, t'.slots[i]? = (writes.reverse.lookup i).or t.slots[i]?) :
    t'.Holds length (stores ++ writes) where
  length_eq := hsize.trans h.length_eq
  inside w hw := (List.mem_append.1 hw).elim (h.inside w) (hinside w)
  held i := by
    rw [hheld, h.held, List.reverse_append, List.lookup_append]
    by_cases hi : i < length
    · rw [if_pos hi, if_pos hi]
      cases writes.reverse.lookup i <;> rfl
    · rw [if_neg hi, if_neg hi, lookup_eq_none hinside (Nat.le_of_not_lt hi)]
      rfl

/-- One action leads to a table that is as long as it asks for and holds what it stores. -/
theorem step (h : t.Holds length stores) (a : TableAction) :
    (a.result t).Holds (max length a.requested) (stores ++ a.stored length) := by
  cases a with
  | grow n =>
    have hgrown := h.grow n
    rwa [← List.append_nil stores] at hgrown
  | store slot v =>
    have hlength : t.slots.size = length := h.length_eq
    have hmax : max length (TableAction.store slot v).requested = length := Nat.max_zero _
    rw [hmax, TableAction.stored]
    by_cases hslot : slot < length
    · rw [if_pos hslot]
      have hresult : (TableAction.store slot v).result t =
          ⟨t.slots.set slot v (hlength ▸ hslot)⟩ := by
        rw [TableAction.result, TableAction.perform, set, dif_pos (hlength ▸ hslot)]
      rw [hresult]
      refine h.write (by simpa using hslot) (by simp) fun i => ?_
      rw [Array.getElem?_set]
      by_cases hi : slot = i
      · subst hi
        simp
      · have hbeq : (i == slot) = false := by simpa using Ne.symm hi
        simp [List.lookup_cons, hi, hbeq]
    · rw [if_neg hslot, List.append_nil]
      have hresult : (TableAction.store slot v).result t = t := by
        rw [TableAction.result, TableAction.perform, set, dif_neg (hlength ▸ hslot)]
      rwa [hresult]
  | commit writes =>
    obtain ⟨t', heq, hsize, hheld⟩ := t.commit_writes writes
    have hresult : (TableAction.commit writes).result t = t' := by
      rw [TableAction.result, TableAction.perform, heq]
    rw [hresult, requested_commit]
    refine (h.grow (lengthFor writes)).write (fun w hw => ?_) (by rw [hsize, size_ensureLength]) hheld
    exact Nat.lt_of_lt_of_le (lengthFor_le_iff.1 (Nat.le_refl _) w hw) (Nat.le_max_right _ _)

/-- A whole history does what its actions do one after another. -/
theorem run (h : t.Holds length stores) (history : List TableAction) :
    (t.afterAll history).Holds ((history.map TableAction.requested).foldl max length)
      (stores ++ storedByAll length history) := by
  induction history generalizing t length stores with
  | nil => simpa [afterAll, storedByAll] using h
  | cons a rest ih =>
    have hrest := ih (h.step a)
    rwa [List.append_assoc] at hrest

end Holds

end ScriptMachine.GlobalTable
