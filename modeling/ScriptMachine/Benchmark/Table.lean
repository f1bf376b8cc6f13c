/-!
# Tables

A table gives values to names and keeps them in the order of the names. Names are ordered by code
points, which is also the order of their UTF-8 bytes.
-/

namespace ScriptMachine.Benchmark

/-- Entries with strictly rising names. -/
structure Table (α : Type) where
  entries : List (String × α)
  rising : (entries.map Prod.fst).Pairwise (· < ·)

namespace Table

variable {α β : Type}

/-- No entries. -/
def empty : Table α :=
  ⟨[], .nil⟩

/-- The names, in order. -/
def names (t : Table α) : List String :=
  t.entries.map Prod.fst

/-- The value of a name. -/
def get? (t : Table α) (name : String) : Option α :=
  t.entries.lookup name

/-- Entries with one more, in its place; an entry of the same name gives way. -/
def insertEntry (name : String) (a : α) : List (String × α) → List (String × α)
  | [] => [(name, a)]
  | (first, b) :: rest =>
    if name < first then (name, a) :: (first, b) :: rest
    else if name = first then (name, a) :: rest
    else (first, b) :: insertEntry name a rest

/-- An insertion adds no name but its own. -/
theorem mem_names_insertEntry {name other : String} {a : α} {entries : List (String × α)}
    (h : other ∈ (insertEntry name a entries).map Prod.fst) :
    other = name ∨ other ∈ entries.map Prod.fst := by
  induction entries with
  | nil => simpa [insertEntry] using h
  | cons entry rest ih =>
    obtain ⟨first, b⟩ := entry
    unfold insertEntry at h
    split at h
    · simpa using h
    · split at h
      · rename_i heq
        subst heq
        simp only [List.map_cons, List.mem_cons] at h ⊢
        rcases h with h | h
        · exact .inl h
        · exact .inr (.inr h)
      · simp only [List.map_cons, List.mem_cons] at h ⊢
        rcases h with h | h
        · exact .inr (.inl h)
        · rcases ih h with h | h
          · exact .inl h
          · exact .inr (.inr h)

/-- Of two names one comes first, unless they are equal. -/
theorem lt_of_not_lt {name first : String} (h : ¬ name < first) (hne : ¬ name = first) :
    first < name := by
  rcases (inferInstance : Std.Trichotomous (α := String) (· < ·)) with ⟨trichotomous⟩
  exact Classical.byContradiction fun h' => hne (trichotomous name first h h')

/-- An insertion keeps the names rising. -/
theorem rising_insertEntry {name : String} {a : α} {entries : List (String × α)}
    (h : (entries.map Prod.fst).Pairwise (· < ·)) :
    ((insertEntry name a entries).map Prod.fst).Pairwise (· < ·) := by
  induction entries with
  | nil => simp [insertEntry]
  | cons entry rest ih =>
    obtain ⟨first, b⟩ := entry
    simp only [List.map_cons, List.pairwise_cons] at h
    obtain ⟨hfirst, hrest⟩ := h
    unfold insertEntry
    split
    · rename_i hlt
      simp only [List.map_cons, List.pairwise_cons, List.mem_cons]
      refine ⟨fun other ho => ?_, hfirst, hrest⟩
      rcases ho with rfl | ho
      · exact hlt
      · exact String.lt_trans hlt (hfirst other ho)
    · split
      · rename_i heq
        subst heq
        simp only [List.map_cons, List.pairwise_cons]
        exact ⟨hfirst, hrest⟩
      · rename_i hlt hne
        simp only [List.map_cons, List.pairwise_cons]
        refine ⟨fun other ho => ?_, ih hrest⟩
        rcases mem_names_insertEntry ho with rfl | ho
        · exact lt_of_not_lt hlt hne
        · exact hfirst other ho

/-- The table with one more entry; an entry of the same name gives way. -/
def insert (t : Table α) (name : String) (a : α) : Table α :=
  ⟨insertEntry name a t.entries, rising_insertEntry t.rising⟩

/-- The table with these entries; of two with one name the later counts. -/
def ofList (entries : List (String × α)) : Table α :=
  entries.foldl (fun t (name, a) => t.insert name a) empty

end Table
end ScriptMachine.Benchmark
