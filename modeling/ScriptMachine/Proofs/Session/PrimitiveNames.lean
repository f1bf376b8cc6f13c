import Mathlib.Data.List.Induction
import ScriptMachine.Session.Turn

/-!
# Names of primitives

A host offers primitives to a session one after the other. What a name means can be asked in three
places: the names of the session, which each offer updates, the registry, which is searched from its
end, and names that are taken up from a whole registry. Main statement: all three give the index of the
primitive that was offered last under the name, and no index ever changes its meaning.
-/

namespace ScriptMachine

open Compile

/-! ## The latest of equal names -/

/-- Whether the latest of the names that are `name` has the number `i`. -/
def IsLatest (names : List String) (name : String) (i : Nat) : Prop :=
  names[i]? = some name ∧ ∀ j, i < j → names[j]? ≠ some name

theorem isLatest_concat {names : List String} {last name : String} {i : Nat} :
    IsLatest (names ++ [last]) name i ↔
      if last = name then i = names.length else IsLatest names name i := by
  have hlast : (names ++ [last])[names.length]? = some last := List.getElem?_concat_length
  have hbefore : ∀ j, j < names.length → (names ++ [last])[j]? = names[j]? :=
    fun j hj => List.getElem?_append_left hj
  have hafter : ∀ j, names.length < j → (names ++ [last])[j]? = none := by
    intro j hj
    rw [List.getElem?_eq_none_iff, List.length_append, List.length_singleton]
    exact hj
  split
  · next h =>
    subst h
    constructor
    · rintro ⟨hi, hlater⟩
      rcases Nat.lt_trichotomy i names.length with hlt | heq | hgt
      · exact absurd hlast (hlater _ hlt)
      · exact heq
      · rw [hafter i hgt] at hi
        cases hi
    · rintro rfl
      exact ⟨hlast, fun j hj => by rw [hafter j hj]; simp⟩
  · next h =>
    have hother : ∀ j : Nat, (names ++ [last])[j]? = some name ↔ names[j]? = some name := by
      intro j
      rcases Nat.lt_trichotomy j names.length with hlt | rfl | hgt
      · rw [hbefore j hlt]
      · simp [h]
      · rw [hafter j hgt, List.getElem?_eq_none (Nat.le_of_lt hgt)]
    simp only [IsLatest, ne_eq, hother]

/-- A way to find names finds the latest, if a name that is added is found at its place, and does not
change where the others are found. -/
theorem finds_latest (find : List String → String → Option Nat) (hnil : ∀ name, find [] name = none)
    (hconcat : ∀ names last name, find (names ++ [last]) name =
      if last = name then some names.length else find names name)
    (names : List String) (name : String) :
    (∀ i, find names name = some i ↔ IsLatest names name i) ∧
      (find names name = none ↔ name ∉ names) := by
  induction names using List.reverseRecOn with
  | nil => simp [hnil, IsLatest]
  | append_singleton names last ih =>
    obtain ⟨hsome, hnone⟩ := ih
    simp only [hconcat, isLatest_concat]
    by_cases h : last = name
    · simp [h, eq_comm]
    · simp [h, hsome, hnone, Ne.symm h]

/-! ## Three ways to find a primitive -/

namespace Registry

variable {r : Registry} {p q : Primitive} {name : String} {i : Nat}

theorem names_register (r : Registry) (p : Primitive) :
    (r.register p).names = r.names ++ [p.name] := by
  simp [names, register]

theorem length_names (r : Registry) : r.names.length = r.count := by
  simp [names, count]

theorem lookup_eq_ok_iff : r.lookup i = .ok p ↔ r.entries[i]? = some p := by
  unfold lookup
  split <;> simp_all

/-- A primitive is found at the index that was next. -/
theorem lookup_register_self (r : Registry) (p : Primitive) :
    (r.register p).lookup r.count = .ok p := by
  rw [lookup_eq_ok_iff, register, count, Array.getElem?_push_size]

/-- The primitives before it stay where they are. -/
theorem lookup_register (h : r.lookup i = .ok q) : (r.register p).lookup i = .ok q := by
  rw [lookup_eq_ok_iff] at h ⊢
  have hi : i < r.entries.size := (Array.getElem?_eq_some_iff.1 h).1
  rw [register, Array.getElem?_push_lt hi, ← h, Array.getElem?_eq_getElem hi]

/-- A search from the end finds the latest. -/
theorem indexOf?_finds_latest (r : Registry) (name : String) :
    (∀ i, r.indexOf? name = some i ↔ IsLatest r.names name i) ∧
      (r.indexOf? name = none ↔ name ∉ r.names) := by
  refine finds_latest (fun names name =>
    (names.zipIdx.reverse.find? fun p => p.1 = name).map Prod.snd) (fun _ => rfl)
    (fun names last name => ?_) r.names name
  rw [List.zipIdx_append, List.reverse_append]
  by_cases h : last = name
  · simp [h]
  · simp [h]

end Registry

namespace Compile.Names

theorem namePrimitives_concat (n : Names) (names : List String) (last : String) :
    n.namePrimitives (names ++ [last]) = (n.namePrimitives names).namePrimitive last names.length := by
  rw [namePrimitives, namePrimitives, List.zipIdx_append, List.foldl_append]
  simp

theorem primitive?_namePrimitive (n : Names) (last name : String) (index : Nat) :
    (n.namePrimitive last index).primitive? name =
      if last = name then some index else n.primitive? name := by
  rw [primitive?, primitive?, namePrimitive]
  split
  · next h =>
    subst h
    exact lookup_assign_self last index n.primitives
  · next h => exact lookup_assign_ne (Ne.symm h) index n.primitives

/-- Names that are taken up in order mean the latest. -/
theorem namePrimitives_finds_latest (names : List String) (name : String) :
    (∀ i, (empty.namePrimitives names).primitive? name = some i ↔ IsLatest names name i) ∧
      ((empty.namePrimitives names).primitive? name = none ↔ name ∉ names) := by
  refine finds_latest (fun names name => (empty.namePrimitives names).primitive? name)
    (fun _ => rfl) (fun names last name => ?_) names name
  rw [namePrimitives_concat, primitive?_namePrimitive]

end Compile.Names

/-! ## Offers -/

namespace Session

variable {s : Session} {p : Primitive}

/-- An offer of a host. It is answered with the index of the primitive, a number of 32 bits. -/
def offer (s : Session) (p : Primitive) : UInt32 × Session :=
  (.ofNat s.image.primitives.count, s.addPrimitive p)

/-- Offers one after the other, with all answers. -/
def offerAll (s : Session) : List Primitive → List UInt32 × Session
  | [] => ([], s)
  | p :: ps =>
    let (index, s) := s.offer p
    let (indices, s) := s.offerAll ps
    (index :: indices, s)

/-- Whether a session knows exactly the primitives of its registry. -/
def KnowsPrimitives (s : Session) : Prop :=
  s.names = Names.empty.namePrimitives s.image.primitives.names

theorem KnowsPrimitives.addPrimitive (h : s.KnowsPrimitives) (p : Primitive) :
    (s.addPrimitive p).KnowsPrimitives := by
  rw [KnowsPrimitives, Session.addPrimitive, Registry.names_register, Names.namePrimitives_concat,
    ← h, Registry.length_names]

theorem KnowsPrimitives.offerAll (h : s.KnowsPrimitives) (ps : List Primitive) :
    (s.offerAll ps).2.KnowsPrimitives := by
  induction ps generalizing s with
  | nil => exact h
  | cons p ps ih => exact ih (h.addPrimitive p)

/-- In such a session the three ways to find a primitive agree. -/
theorem KnowsPrimitives.agree (h : s.KnowsPrimitives) (name : String) :
    s.names.primitive? name = s.image.primitives.indexOf? name ∧
      (Names.empty.namePrimitives s.image.primitives.names).primitive? name =
        s.image.primitives.indexOf? name := by
  have hnamed := (Names.namePrimitives_finds_latest s.image.primitives.names name).1
  have hsearched := (s.image.primitives.indexOf?_finds_latest name).1
  have hagree : (Names.empty.namePrimitives s.image.primitives.names).primitive? name =
      s.image.primitives.indexOf? name :=
    Option.ext fun i => (hnamed i).trans (hsearched i).symm
  exact ⟨by rw [h, hagree], hagree⟩

theorem offerAll_append (s : Session) (ps qs : List Primitive) :
    s.offerAll (ps ++ qs) =
      ((s.offerAll ps).1 ++ ((s.offerAll ps).2.offerAll qs).1, ((s.offerAll ps).2.offerAll qs).2) := by
  induction ps generalizing s with
  | nil => rfl
  | cons p ps ih => simp only [List.cons_append, offerAll, ih]

/-- Offers lengthen the registry by what they offer. -/
theorem names_offerAll (s : Session) (ps : List Primitive) :
    (s.offerAll ps).2.image.primitives.names =
      s.image.primitives.names ++ ps.map Primitive.name := by
  induction ps generalizing s with
  | nil => simp [offerAll]
  | cons p ps ih =>
    have hstep : (s.offer p).2.image.primitives.names = s.image.primitives.names ++ [p.name] :=
      Registry.names_register _ p
    rw [offerAll, ih, hstep, List.append_assoc]
    rfl

theorem count_offerAll (s : Session) (ps : List Primitive) :
    (s.offerAll ps).2.image.primitives.count = s.image.primitives.count + ps.length := by
  rw [← Registry.length_names, names_offerAll, List.length_append, List.length_map,
    Registry.length_names]

/-- No offer changes what an index means. -/
theorem lookup_offerAll {i : Nat} {q : Primitive} (h : s.image.primitives.lookup i = .ok q)
    (ps : List Primitive) : (s.offerAll ps).2.image.primitives.lookup i = .ok q := by
  induction ps generalizing s with
  | nil => exact h
  | cons p ps ih => exact ih (Registry.lookup_register h)

/-- An offer is answered with the number of primitives before it, and the primitive is found there. -/
theorem offer_answer (h : s.image.primitives.count < UInt32.size) (p : Primitive) :
    (s.offer p).1.toNat = s.image.primitives.count ∧
      (s.offer p).2.image.primitives.lookup (s.offer p).1.toNat = .ok p := by
  have hindex : (s.offer p).1.toNat = s.image.primitives.count :=
    UInt32.toNat_ofNat_of_lt' h
  exact ⟨hindex, by rw [hindex]; exact Registry.lookup_register_self _ p⟩

theorem length_answers (s : Session) (ps : List Primitive) : (s.offerAll ps).1.length = ps.length := by
  induction ps generalizing s with
  | nil => rfl
  | cons p ps ih => simp [offerAll, ih]

/-- One offer among others is answered in its turn, and no later one takes anything back. -/
theorem offer_among (s : Session) {before : List Primitive} (p : Primitive) (after : List Primitive)
    (h : (s.offerAll before).2.image.primitives.count < UInt32.size) :
    ∃ index : UInt32, (s.offerAll (before ++ p :: after)).1[before.length]? = some index ∧
      index.toNat = (s.offerAll before).2.image.primitives.count ∧
      (s.offerAll (before ++ p :: after)).2.image.primitives.lookup index.toNat = .ok p ∧
      ∀ i q, (s.offerAll before).2.image.primitives.lookup i = .ok q →
        (s.offerAll (before ++ p :: after)).2.image.primitives.lookup i = .ok q := by
  obtain ⟨hindex, hself⟩ := offer_answer h p
  rw [offerAll_append]
  refine ⟨((s.offerAll before).2.offer p).1, ?_, hindex, lookup_offerAll hself after,
    fun i q hq => lookup_offerAll hq (p :: after)⟩
  rw [List.getElem?_append_right (Nat.le_of_eq (length_answers s before)), length_answers,
    Nat.sub_self]
  rfl

/-- A host offers primitives to a new session, under any names and fewer than an index can number. Each
offer is answered with the number of primitives before it; it is found there ever after, and so are all
that were there. The names of the session, the search of the registry, and names that are taken up from
the registry agree on each name: it means the latest primitive that has it, and nothing if none has. -/
theorem primitive_names_agree (compiler : FragmentCompiler) (files : Files) (limits : Limits)
    (ps : List Primitive) (hps : Standard.primitives.length + ps.length < UInt32.size) :
    let offered := fun qs => (new compiler files limits).offerAll qs
    (∀ before p after, ps = before ++ p :: after → ∃ index : UInt32,
      (offered ps).1[before.length]? = some index ∧
      index.toNat = (offered before).2.image.primitives.count ∧
      (offered ps).2.image.primitives.lookup index.toNat = .ok p ∧
      ∀ i q, (offered before).2.image.primitives.lookup i = .ok q →
        (offered ps).2.image.primitives.lookup i = .ok q) ∧
    ∀ name,
      let known := (Standard.primitives ++ ps).map Primitive.name
      let registry := (offered ps).2.image.primitives
      (offered ps).2.names.primitive? name = registry.indexOf? name ∧
      (Names.empty.namePrimitives registry.names).primitive? name = registry.indexOf? name ∧
      (∀ i, registry.indexOf? name = some i ↔ IsLatest known name i) ∧
      (registry.indexOf? name = none ↔ name ∉ known) := by
  intro offered
  have hnew : (new compiler files limits).KnowsPrimitives := rfl
  have hstandard : (new compiler files limits).image.primitives.names =
      Standard.primitives.map Primitive.name := rfl
  have hcount : (new compiler files limits).image.primitives.count = Standard.primitives.length := rfl
  constructor
  · rintro before p after rfl
    refine offer_among _ p after ?_
    rw [count_offerAll, hcount]
    rw [List.length_append] at hps
    omega
  · intro name known registry
    have hnames : registry.names = known := by
      rw [names_offerAll, hstandard, ← List.map_append]
    obtain ⟨hsession, htaken⟩ := (hnew.offerAll ps).agree name
    obtain ⟨hsome, hnone⟩ := registry.indexOf?_finds_latest name
    rw [hnames] at hsome hnone
    exact ⟨hsession, htaken, hsome, hnone⟩

/-- Offers under a name of their own and under that of a standard primitive, the first of them twice. -/
def shadowingOffers : List Primitive :=
  [⟨"f", 0, Standard.print⟩, ⟨"print", 1, Standard.len⟩, ⟨"f", -1, Standard.abs⟩]

theorem shadowingOffers_agree :
    let start := new standardCompiler (FileTree.empty []).toFiles ⟨none, 0⟩
    Standard.primitives.length + shadowingOffers.length < UInt32.size ∧
      (start.offerAll shadowingOffers).1[1]? = some 9 ∧
      (start.offerAll shadowingOffers).2.names.primitive? "print" = some 9 ∧
      (start.offerAll shadowingOffers).2.image.primitives.indexOf? "f" = some 10 ∧
      (start.offerAll shadowingOffers).2.image.primitives.indexOf? "g" = none := by
  intro start
  have hfew : Standard.primitives.length + shadowingOffers.length < UInt32.size := by decide
  obtain ⟨hcalls, hnames⟩ :=
    primitive_names_agree standardCompiler (FileTree.empty []).toFiles ⟨none, 0⟩ shadowingOffers hfew
  have hlatest : ∀ name i, ((Standard.primitives ++ shadowingOffers).map Primitive.name)[i]? = some name →
      (∀ j < 11, i < j →
        ((Standard.primitives ++ shadowingOffers).map Primitive.name)[j]? ≠ some name) →
      IsLatest ((Standard.primitives ++ shadowingOffers).map Primitive.name) name i := by
    intro name i hi hlater
    refine ⟨hi, fun j hj => ?_⟩
    rcases Nat.lt_or_ge j 11 with hlt | hge
    · exact hlater j hlt hj
    · have hnone : ((Standard.primitives ++ shadowingOffers).map Primitive.name)[j]? = none :=
        List.getElem?_eq_none hge
      simp only [hnone, ne_eq, reduceCtorEq, not_false_eq_true]
  obtain ⟨hprint, -, hprint', -⟩ := hnames "print"
  obtain ⟨-, -, hf, -⟩ := hnames "f"
  obtain ⟨-, -, -, hg⟩ := hnames "g"
  obtain ⟨index, hindex, hnine, -⟩ := hcalls [⟨"f", 0, Standard.print⟩] _ _ rfl
  refine ⟨hfew, ?_, ?_, ?_, ?_⟩
  · obtain rfl : index = 9 := UInt32.toNat_inj.1 hnine
    exact hindex
  · exact hprint.trans ((hprint' 9).2 (hlatest _ _ rfl (by decide)))
  · exact (hf 10).2 (hlatest _ _ rfl (by decide))
  · exact hg.2 (by decide)

end Session
end ScriptMachine
