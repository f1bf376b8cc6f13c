import ScriptMachine.Proofs.Machine.Conduct
import ScriptMachine.Proofs.Machine.Continuation
import ScriptMachine.Proofs.Value.Renaming
import ScriptMachine.Proofs.Value.Alike

/-!
# Primitives do not look at handles

A primitive that is given renamed arguments in two heaps does the same in both: it writes the same
text, and ends with renamed values or with one fault. How the heaps belong together is left open, as
long as a string that both store keeps them together. The second heap must have handles left.
-/

namespace ScriptMachine

/-- Which functions of two heaps belong together, which heaps do, and when the second one is out of
handles. -/
structure Likeness where
  function : Nat → Nat → Prop
  heap : Heap → Heap → Prop
  full : Heap → Prop

/-- Functions that belong together look the same, and heaps that belong together still do when both
have stored a string, which has a handle of its own in each. -/
structure Likeness.Lawful (L : Likeness) : Prop where
  shown : ∀ {h k : Heap}, L.heap h k → ShownAlike L.function h k
  allocString : ∀ {h k : Heap} (s : String), L.heap h k → ¬ L.full (k.allocString s).2 →
    L.heap (h.allocString s).2 (k.allocString s).2 ∧ h.strings.size < handleCount ∧
      k.strings.size < handleCount

/-- Two sinks without a limit that hold one text more than `a` and `b`. -/
def Sink.Alike (a b : String) (s t : Sink) : Prop :=
  ∃ more, s = ⟨a ++ more, none⟩ ∧ t = ⟨b ++ more, none⟩

/-- Two hosts that differ in the handles of their heaps and in what was written before. -/
structure Host.Like (L : Likeness) (a b : String) (h k : Host) : Prop where
  heap : L.heap h.heap k.heap
  sink : h.sink.Alike a b k.sink
  depth : h.depth = k.depth
  primitiveCount : h.primitiveCount = k.primitiveCount
  primitiveName? : h.primitiveName? = k.primitiveName?

/-- Such hosts, and arguments that are renamed in their heaps. -/
def LikeArgs (L : Likeness) (a b : String) (args args' : List Value) (h k : Host) : Prop :=
  h.Like L a b k ∧ List.Forall₂ (Value.Renamed L.function h.heap k.heap) args args'

/-- Such hosts, and two values that are renamed in their heaps. -/
def LikeValue (L : Likeness) (a b : String) (v w : Value) (h k : Host) : Prop :=
  h.Like L a b k ∧ v.Renamed L.function h.heap k.heap w

/-- A primitive that does not look at handles. -/
def Primitive.Oblivious (p : Primitive) : Prop :=
  ∀ L : Likeness, L.Lawful → ∀ (a b : String) (args args' : List Value),
    Alongside (fun k => L.full k.heap) (LikeArgs L a b args args') (p.run args) (p.run args')
      (LikeValue L a b) (Host.Like L a b)

namespace Standard

variable {L : Likeness} {a b : String} {args args' : List Value} {v w : Value}

theorem along_writeText (text : String) :
    Alongside never (Host.Like L a b) (writeText text) (writeText text)
      (fun _ _ => Host.Like L a b) (Host.Like L a b) := by
  rintro ⟨heap, sink, depth, count, name?⟩ ⟨heap', sink', depth', count', name?'⟩ hk
  obtain ⟨more, hs, ht⟩ := hk.sink
  simp only at hs ht
  subst hs ht
  have hmore : Sink.Alike a b ⟨a ++ more ++ text, none⟩ ⟨b ++ more ++ text, none⟩ :=
    ⟨more ++ text, by rw [String.append_assoc], by rw [String.append_assoc]⟩
  exact .ok ⟨hk.heap, hmore, hk.depth, hk.primitiveCount, hk.primitiveName?⟩

theorem along_allocString (hL : L.Lawful) (s : String) :
    Alongside (fun k => L.full k.heap) (Host.Like L a b) (allocString s) (allocString s)
      (LikeValue L a b) (Host.Like L a b) := by
  rintro ⟨heap, sink, depth, count, name?⟩ ⟨heap', sink', depth', count', name?'⟩ hk
  by_cases hfull : L.full (heap'.allocString s).2
  · exact .full hfull
  · obtain ⟨hheap, hsize, hsize'⟩ := hL.allocString s hk.heap hfull
    have hv : (Value.string (heap.allocString s).1).Renamed L.function (heap.allocString s).2
        (heap'.allocString s).2 (.string (heap'.allocString s).1) :=
      .string (Heap.string?_allocString s hsize) (Heap.string?_allocString s hsize')
    exact .ok ⟨⟨hheap, hk.sink, hk.depth, hk.primitiveCount, hk.primitiveName?⟩, hv⟩

theorem along_oneArgument (name : String) :
    Alongside never (LikeArgs L a b args args') (oneArgument name args) (oneArgument name args')
      (LikeValue L a b) (Host.Like L a b) := by
  rintro h k ⟨hk, hargs⟩
  cases hargs with
  | nil => exact .error hk
  | cons hv hrest =>
    cases hrest with
    | nil => exact .ok ⟨hk, hv⟩
    | cons hw hrest => exact .error hk

theorem along_twoInts (name : String) :
    Alongside never (LikeArgs L a b args args') (twoInts name args) (twoInts name args')
      (fun x y h k => x = y ∧ h.Like L a b k) (Host.Like L a b) := by
  rintro h k ⟨hk, hargs⟩
  cases hargs with
  | nil => exact .error hk
  | cons hv hrest =>
    cases hrest with
    | nil => exact .error hk
    | cons hw hrest =>
      cases hrest with
      | cons _ _ => exact .error hk
      | nil =>
        rename_i v' _ w'
        simp only [twoInts, hv.asInt?_eq, hw.asInt?_eq, hv.kind_eq, hw.kind_eq]
        cases v'.asInt? with
        | none => exact .error hk
        | some x =>
          cases w'.asInt? with
          | none => exact .error hk
          | some y => exact .ok ⟨rfl, hk⟩

theorem display_eq {h k : Host} (hL : L.Lawful) (hk : h.Like L a b k)
    (hv : v.Renamed L.function h.heap k.heap w) :
    h.legend.display v = k.legend.display w := by
  have := hv.display_eq (hL.shown hk.heap) h.primitiveName?
  rw [Host.legend, this, hk.primitiveName?]
  rfl

theorem display_map {h k : Host} (hL : L.Lawful) (hk : h.Like L a b k)
    (hargs : List.Forall₂ (Value.Renamed L.function h.heap k.heap) args args') :
    args.map h.legend.display = args'.map k.legend.display := by
  induction hargs with
  | nil => rfl
  | cons hv _ ih => rw [List.map_cons, List.map_cons, display_eq hL hk hv, ih]

theorem oblivious_print : Primitive.Oblivious ⟨"print", -1, print⟩ := by
  intro L hL a b args args'
  refine Alongside.bindGet fun h k hstart => ?_
  have hwrite : ∀ line, Alongside never (Host.Like L a b) (writeLine line) (writeLine line)
      (fun _ _ => Host.Like L a b) (Host.Like L a b) :=
    fun line => (along_writeText line).bind fun _ _ => along_writeText "\n"
  dsimp only
  rw [display_map hL hstart.1 hstart.2]
  have hprint : Alongside (fun k => L.full k.heap) (Host.Like L a b)
      (do writeLine (" ".intercalate (args'.map k.legend.display)); return Value.nil)
      (do writeLine (" ".intercalate (args'.map k.legend.display)); return Value.nil)
      (LikeValue L a b) (Host.Like L a b) :=
    (hwrite _).bind fun _ _ => .pure fun _ _ hst => ⟨hst, .nil⟩
  refine hprint.weaken ?_ fun _ _ _ _ hst => hst
  rintro s t ⟨rfl, rfl⟩
  exact hstart.1

theorem oblivious_len : Primitive.Oblivious ⟨"len", 1, len⟩ := by
  intro L hL a b args args'
  refine (along_oneArgument "len").bind fun v w => ?_
  rintro h k ⟨hk, hv⟩
  rw [hv.kind_eq]
  split_ifs with hs
  · exact .error hk
  · refine Alongside.bindGet (P := LikeValue L a b v w) (fun h k hst => ?_) h k ⟨hk, hv⟩
    obtain ⟨s, hi, hj⟩ := hst.2.string?_eq (hst.2.kind_eq ▸ not_not.1 hs)
    rw [hi, hj]
    refine .pure ?_
    rintro s t ⟨rfl, rfl⟩
    exact ⟨hst.1, .int _⟩

theorem oblivious_typeOf : Primitive.Oblivious ⟨"typeof", 1, typeOf⟩ := by
  intro L hL a b args args'
  refine (along_oneArgument "typeof").bind fun v w => ?_
  rintro h k ⟨hk, hv⟩
  rw [hv.typeName_eq]
  exact along_allocString hL _ h k hk

theorem oblivious_assert : Primitive.Oblivious ⟨"assert", 1, assert⟩ := by
  intro L hL a b args args'
  refine (along_oneArgument "assert").bind fun v w => ?_
  rintro h k ⟨hk, hv⟩
  rw [hv.asBool?_eq]
  split_ifs
  · exact .ok ⟨hk, .nil⟩
  · exact .error hk

theorem oblivious_toText : Primitive.Oblivious ⟨"to_string", 1, toText⟩ := by
  intro L hL a b args args'
  refine (along_oneArgument "to_string").bind fun v w => ?_
  rintro h k ⟨hk, hv⟩
  rw [hv.kind_eq]
  split_ifs with hs
  · exact .ok ⟨hk, hv⟩
  · refine Alongside.bindGet (P := LikeValue L a b v w) (fun h k hst => ?_) h k ⟨hk, hv⟩
    rw [display_eq hL hst.1 hst.2]
    refine (along_allocString hL _).weaken ?_ fun _ _ _ _ hst => hst
    rintro s t ⟨rfl, rfl⟩
    exact hst.1

theorem oblivious_abs : Primitive.Oblivious ⟨"abs", 1, abs⟩ := by
  intro L hL a b args args'
  refine (along_oneArgument "abs").bind fun v w => ?_
  rintro h k ⟨hk, hv⟩
  rw [hv.asInt?_eq, hv.kind_eq]
  cases w.asInt? with
  | none => exact .error hk
  | some n =>
    simp only
    cases hn : Value.int? n.natAbs with
    | none => exact .error hk
    | some r =>
      refine .ok ⟨hk, ?_⟩
      unfold Value.int? at hn
      split at hn
      · cases hn
        exact .int _
      · cases hn

theorem oblivious_lesser : Primitive.Oblivious ⟨"min", 2, lesser⟩ := by
  intro L hL a b args args'
  refine (along_twoInts "min").bind fun x y => .assume fun hxy => ?_
  subst hxy
  exact .pure fun _ _ hst => ⟨hst, .int _⟩

theorem oblivious_greater : Primitive.Oblivious ⟨"max", 2, greater⟩ := by
  intro L hL a b args args'
  refine (along_twoInts "max").bind fun x y => .assume fun hxy => ?_
  subst hxy
  exact .pure fun _ _ hst => ⟨hst, .int _⟩

/-- The standard primitives do not look at handles. -/
theorem oblivious_primitives : ∀ p ∈ primitives, p.Oblivious := by
  simp only [primitives, List.mem_cons, List.not_mem_nil, or_false, forall_eq_or_imp, forall_eq]
  exact ⟨oblivious_print, oblivious_len, oblivious_typeOf, oblivious_assert,
    oblivious_toText, oblivious_abs, oblivious_lesser, oblivious_greater⟩

end Standard

/-! ## Primitives in alike hosts

A primitive that is given alike arguments in two alike heaps does the same in both: it writes the
same text, and ends with alike values or with one fault. The heap must have handles left.
-/

/-- More strings than handles can tell apart. -/
def Heap.Full (h : Heap) : Prop :=
  handleCount < h.strings.size

/-- Two hosts that a primitive cannot tell apart. -/
structure Host.Alike (ρ : Shift) (a b : String) (h k : Host) : Prop where
  heap : h.heap.Alike ρ k.heap
  sink : h.sink.Alike a b k.sink
  depth : h.depth = k.depth
  primitiveCount : h.primitiveCount = k.primitiveCount
  primitiveName? : h.primitiveName? = k.primitiveName?

/-- Alike hosts whose heaps hold alike arguments. -/
def WithArgs (ρ : Shift) (a b : String) (args args' : List Value) (h k : Host) : Prop :=
  h.Alike ρ a b k ∧ List.Forall₂ (Value.Alike ρ h.heap k.heap) args args'

/-- Alike hosts whose heaps hold these two values alike. -/
def WithValue (ρ : Shift) (a b : String) (v w : Value) (h k : Host) : Prop :=
  h.Alike ρ a b k ∧ v.Alike ρ h.heap k.heap w

/-- A primitive for which alike heaps are the same. -/
def Primitive.Insensitive (p : Primitive) : Prop :=
  ∀ (ρ : Shift) (a b : String) (args args' : List Value),
    Alongside (fun k => k.heap.Full) (WithArgs ρ a b args args') (p.run args) (p.run args')
      (WithValue ρ a b) (Host.Alike ρ a b)

/-- All primitives of a registry are insensitive. -/
def Registry.Insensitive (r : Registry) : Prop :=
  ∀ p ∈ r.entries, p.Insensitive

/-- A string that both heaps store is alike, as long as the handles have not run out. -/
theorem Heap.Alike.allocString {ρ : Shift} {h k : Heap} (hk : h.Alike ρ k) (s : String)
    (hfull : ¬ (k.allocString s).2.Full) :
    (h.allocString s).2.Alike ρ (k.allocString s).2 ∧
      (Value.string (h.allocString s).1).Alike ρ (h.allocString s).2 (k.allocString s).2
        (.string (k.allocString s).1) := by
  have hroom : k.strings.size < 2 ^ 32 := by
    simp only [Heap.Full, handleCount, allocString_strings, Array.size_push] at hfull
    omega
  refine ⟨hk.addStrings (addsStrings_allocString h s) (addsStrings_allocString k s) ?_, ?_⟩
  · simpa using hk.strings_le
  · exact .string (string?_allocString s (lt_of_le_of_lt hk.strings_le hroom))
      (string?_allocString s hroom)

/-- Alike heaps that hold `n` functions and more. -/
def Shift.likeness (ρ : Shift) (n : Nat) : Likeness where
  function := ρ.Joins n
  heap h k := h.Alike ρ k ∧ h.functions.size = n
  full := Heap.Full

theorem Shift.lawful_likeness (ρ : Shift) (n : Nat) : (ρ.likeness n).Lawful where
  shown h := h.2 ▸ h.1.shownAlike
  allocString := by
    rintro h k s ⟨hk, hn⟩ hfull
    have hroom : k.strings.size < handleCount := by
      simp only [likeness, Heap.Full, Heap.allocString_strings, Array.size_push] at hfull
      omega
    exact ⟨⟨(hk.allocString s hfull).1, hn⟩, Nat.lt_of_le_of_lt hk.strings_le hroom, hroom⟩

/-- What does not look at handles cannot tell alike heaps apart. -/
theorem Primitive.Oblivious.insensitive {p : Primitive} (hp : p.Oblivious) : p.Insensitive := by
  rintro ρ a b args args' h k ⟨hk, hargs⟩
  have hstart : LikeArgs (ρ.likeness h.heap.functions.size) a b args args' h k :=
    ⟨⟨⟨hk.heap, rfl⟩, hk.sink, hk.depth, hk.primitiveCount, hk.primitiveName?⟩,
      hargs.imp fun _ _ hv => hv.renamed⟩
  have halike : ∀ s t : Host, s.Like (ρ.likeness h.heap.functions.size) a b t → s.Alike ρ a b t :=
    fun s t hst => ⟨hst.heap.1, hst.sink, hst.depth, hst.primitiveCount, hst.primitiveName?⟩
  have hend := hp _ (ρ.lawful_likeness _) a b args args' h k hstart
  generalize p.run args h = x at hend ⊢
  generalize p.run args' k = y at hend ⊢
  cases hend with
  | ok hst => exact .ok ⟨halike _ _ hst.1, .of_renamed (hst.1.heap.2 ▸ hst.2)⟩
  | error hst => exact .error (halike _ _ hst)
  | full hfull => exact .full hfull

/-- The standard primitives cannot tell alike heaps apart. -/
theorem Standard.insensitive_primitives : ∀ p ∈ Standard.primitives, p.Insensitive :=
  fun p hp => (Standard.oblivious_primitives p hp).insensitive

end ScriptMachine
