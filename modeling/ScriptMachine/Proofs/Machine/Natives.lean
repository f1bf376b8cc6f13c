import ScriptMachine.Machine.Standard
import ScriptMachine.Proofs.Machine.Conduct
import ScriptMachine.Proofs.Link.Acceptance

/-!
# Sound primitives

A primitive is sound when, given live arguments, it hands back a live value, only adds strings to
the heap, and fails only in ways that a program can bring about. The standard primitives are sound.
-/

namespace ScriptMachine

/-- The faults that say that the machine itself is broken: code that is no code, handles that lead
nowhere, operands out of range. -/
def Fault.Internal : Fault → Prop
  | .invalidOpcode _ | .functionNotFound _ | .link (.unknownPrimitive _ _) => True
  | .registerOutOfFrame _ | .constantOutOfRange _ | .argumentsOutOfFrame => True
  | .danglingString | .host _ => True
  | _ => False

namespace Heap

theorem InOrder.addsStrings {old new : Heap} {primitives : Nat} (h : old.InOrder primitives)
    (hadd : old.AddsStrings new) : new.InOrder primitives := by
  intro i f hf
  rw [hadd.functions] at hf
  exact (h i f hf).grows hadd.grows

end Heap

/-- What a sound primitive does on live arguments. -/
def Primitive.Sound (p : Primitive) : Prop :=
  ∀ (args : List Value) (host : Host),
    (∀ v ∈ args, v.Live host.heap host.primitiveCount) →
    match p.run args host with
    | .ok v h => host.heap.AddsStrings h.heap ∧ v.Live h.heap host.primitiveCount
    | .error e h => host.heap.AddsStrings h.heap ∧ ¬ e.Internal

/-- All primitives of a registry are sound. -/
def Registry.Sound (r : Registry) : Prop :=
  ∀ p ∈ r.entries, p.Sound

namespace Standard

variable {args : List Value} {v w : Value} {name : String}

/-- From a host with this heap and this many primitives, strings have at most been added. -/
def From (heap : Heap) (primitives : Nat) (h : Host) : Prop :=
  heap.AddsStrings h.heap ∧ h.primitiveCount = primitives

/-- What a sound primitive leaves when it fails. -/
def FailsFrom (heap : Heap) (e : Fault) (h : Host) : Prop :=
  heap.AddsStrings h.heap ∧ ¬ e.Internal

section
variable {heap : Heap} {primitives : Nat}

theorem runs_writeText (text : String) :
    Runs (From heap primitives) (writeText text) (fun _ => From heap primitives)
      (FailsFrom heap) := by
  rintro ⟨heap', sink, depth, count, name?⟩ hh
  by_cases hfits : sink.fits text = true
  · simp only [writeText, Sink.write, if_pos hfits]
    exact ⟨hh.1, hh.2⟩
  · simp only [writeText, Sink.write, if_neg hfits]
    exact ⟨hh.1, fun h => h⟩

theorem runs_writeLine (line : String) :
    Runs (From heap primitives) (writeLine line) (fun _ => From heap primitives)
      (FailsFrom heap) :=
  (runs_writeText line).bind fun _ => runs_writeText "\n"

theorem runs_allocString (s : String) :
    Runs (From heap primitives) (allocString s)
      (fun v h => From heap primitives h ∧ v.Live h.heap primitives) (FailsFrom heap) := by
  rintro ⟨heap', sink, depth, count, name?⟩ ⟨hadd, hcount⟩
  exact ⟨⟨hadd.trans (Heap.addsStrings_allocString heap' s), hcount⟩,
    Heap.live_allocString heap' primitives s⟩

theorem runs_refuse {α : Type} {e : Fault} {P : Host → Prop} {Q : α → Host → Prop}
    (hP : ∀ h, P h → From heap primitives h) (he : ¬ e.Internal) :
    Runs P (throw e) Q (FailsFrom heap) :=
  .throw e fun h hh => ⟨(hP h hh).1, he⟩

theorem runs_oneArgument (hargs : ∀ v ∈ args, v.Live heap primitives) :
    Runs (From heap primitives) (oneArgument name args)
      (fun v h => v.Live heap primitives ∧ From heap primitives h) (FailsFrom heap) := by
  unfold oneArgument
  split
  · exact .pure _ fun h hh => ⟨hargs _ (by simp), hh⟩
  · exact runs_refuse (fun _ hh => hh) (fun h => h)

theorem runs_twoInts :
    Runs (From heap primitives) (twoInts name args) (fun _ => From heap primitives)
      (FailsFrom heap) := by
  unfold twoInts
  split
  · split
    · exact .pure _ fun _ hh => hh
    · exact runs_refuse (fun _ hh => hh) (fun h => h)
    · exact runs_refuse (fun _ hh => hh) (fun h => h)
  · exact runs_refuse (fun _ hh => hh) (fun h => h)

/-- An action that keeps to what sound primitives do is one. -/
theorem sound_of_runs {p : Primitive}
    (h : ∀ (heap : Heap) (primitives : Nat) (args : List Value),
      (∀ v ∈ args, v.Live heap primitives) →
      Runs (From heap primitives) (p.run args)
        (fun v h => From heap primitives h ∧ v.Live h.heap primitives) (FailsFrom heap)) :
    p.Sound := by
  intro args host hargs
  have := h host.heap host.primitiveCount args hargs host ⟨.refl _, rfl⟩
  cases hr : p.run args host with
  | ok v h' =>
    rw [hr] at this
    exact ⟨this.1.1, this.2⟩
  | error e h' =>
    rw [hr] at this
    exact this

end

theorem sound_print : Primitive.Sound ⟨"print", -1, print⟩ := by
  refine sound_of_runs fun heap primitives args _ => ?_
  refine Runs.get.bind fun h => ?_
  refine ((runs_writeLine _).weaken (fun _ hs => hs.1) fun _ _ hs => hs).bind fun _ => ?_
  exact .pure _ fun s hs => ⟨hs, .nil⟩

theorem sound_len : Primitive.Sound ⟨"len", 1, len⟩ := by
  refine sound_of_runs fun heap primitives args hargs => ?_
  refine (runs_oneArgument hargs).bind fun v => .assume fun hv => ?_
  split_ifs with hk
  · exact runs_refuse (fun _ hh => hh) (fun h => h)
  · obtain ⟨t, ht⟩ := Heap.string?_of_lt (hv.string_lt (not_not.1 hk))
    refine Runs.get.bind fun h => ?_
    split
    · exact .pure _ fun s hs => ⟨hs.1, .int _⟩
    · next hnone =>
      rintro s ⟨hs, rfl⟩
      rw [hs.1.grows.string? ht] at hnone
      simp at hnone

theorem sound_typeOf : Primitive.Sound ⟨"typeof", 1, typeOf⟩ := by
  refine sound_of_runs fun heap primitives args hargs => ?_
  refine (runs_oneArgument hargs).bind fun v => .assume fun _ => ?_
  exact runs_allocString _

theorem sound_assert : Primitive.Sound ⟨"assert", 1, assert⟩ := by
  refine sound_of_runs fun heap primitives args hargs => ?_
  refine (runs_oneArgument hargs).bind fun v => .assume fun _ => ?_
  split_ifs
  · exact .pure _ fun s hs => ⟨hs, .nil⟩
  · exact runs_refuse (fun _ hh => hh) (fun h => h)

theorem sound_toText : Primitive.Sound ⟨"to_string", 1, toText⟩ := by
  refine sound_of_runs fun heap primitives args hargs => ?_
  refine (runs_oneArgument hargs).bind fun v => .assume fun hv => ?_
  split_ifs
  · exact .pure _ fun s hs => ⟨hs, hv.grows hs.1.grows⟩
  · refine Runs.get.bind fun h => ?_
    exact (runs_allocString _).weaken (fun _ hs => hs.1) fun _ _ hs => hs

theorem sound_abs : Primitive.Sound ⟨"abs", 1, abs⟩ := by
  refine sound_of_runs fun heap primitives args hargs => ?_
  refine (runs_oneArgument hargs).bind fun v => .assume fun _ => ?_
  split
  · exact runs_refuse (fun _ hh => hh) (fun h => h)
  · split
    · next n _ r hr =>
      refine .pure _ fun s hs => ⟨hs, ?_⟩
      unfold Value.int? at hr
      split at hr
      · cases hr
        exact .int _
      · simp at hr
    · exact runs_refuse (fun _ hh => hh) (fun h => h)

theorem sound_lesser : Primitive.Sound ⟨"min", 2, lesser⟩ := by
  refine sound_of_runs fun heap primitives args _ => ?_
  exact runs_twoInts.bind fun _ => .pure _ fun s hs => ⟨hs, .int _⟩

theorem sound_greater : Primitive.Sound ⟨"max", 2, greater⟩ := by
  refine sound_of_runs fun heap primitives args _ => ?_
  exact runs_twoInts.bind fun _ => .pure _ fun s hs => ⟨hs, .int _⟩

/-- The standard primitives are sound. -/
theorem sound_primitives : ∀ p ∈ primitives, p.Sound := by
  simp only [primitives, List.mem_cons, List.not_mem_nil, or_false, forall_eq_or_imp, forall_eq]
  exact ⟨sound_print, sound_len, sound_typeOf, sound_assert, sound_toText, sound_abs, sound_lesser,
    sound_greater⟩

end Standard

namespace Registry

theorem entries_standard : standard.entries.toList = Standard.primitives := rfl

/-- The registry of a new session is sound. -/
theorem sound_standard : standard.Sound := by
  intro p hp
  exact Standard.sound_primitives p (by rw [← entries_standard]; simpa using hp)

end Registry
end ScriptMachine
