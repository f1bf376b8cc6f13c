import ScriptMachine.Proofs.Bytecode.TextOrder
import ScriptMachine.Proofs.Machine.ExactArithmetic

/-!
# Comparisons

Equality is decided on words, but for strings on what the heap has for them; order is decided on the
integers that words hold, and on the texts of strings. The two agree: of any two integers and of any two
strings, the first is less than the second, equal to it or greater, and just one of these. That words
are equal as integers are hangs on each integer being held by one word only.
-/

namespace ScriptMachine.Machine

open Bytecode

/-! ## Operators -/

/-- The operators that compare two values. -/
def Compares : Opcode → Prop
  | .eq | .notEq | .lt | .le | .gt | .ge => True
  | _ => False

/-- What an operator that compares two values says of them. -/
def comparison (heap : Heap) (op : Opcode) (v w : Value) : Except Fault Bool :=
  match op with
  | .eq => .ok (sameValue heap v w)
  | .notEq => .ok (!sameValue heap v w)
  | _ => (order heap op v w).map (holds op)

/-- The operators that put two values in order. -/
def Orders (op : Opcode) : Prop :=
  op = .lt ∨ op = .le ∨ op = .gt ∨ op = .ge

variable {heap : Heap} {primitives : Nat} {op : Opcode} {v w u : Value}

theorem comparison_of_orders (hop : Orders op) (heap : Heap) (v w : Value) :
    comparison heap op v w = (order heap op v w).map (holds op) := by
  rcases hop with rfl | rfl | rfl | rfl <;> rfl

theorem binaryResult_comparison (hop : Compares op) (v w : Value) (m : Machine) :
    binaryResult op v w m = liftFault ((comparison m.heap op v w).map .bool) m := by
  have hmap : ∀ o : Except Fault Ordering,
      (o.map fun o => Value.bool (holds op o)) = (o.map (holds op)).map .bool := fun o => by
    cases o <;> rfl
  cases op <;> simp only [Compares] at hop
  case eq | notEq => rfl
  all_goals
    simp only [binaryResult, hmap]
    rfl

/-! ## Values -/

/-- A value that a constructor builds, and whose handle leads to something in the heap or among this
number of primitives. -/
def Resolves (heap : Heap) (primitives : Nat) (v : Value) : Prop :=
  v = .empty ∨ v.Live heap primitives

theorem content?_of_kind (h : v.kind = .string) : heap.content? v = heap.string? v.handle := by
  rw [Heap.content?, Value.asString?, if_pos h, Option.bind_some]

theorem content?_of_kind_ne (h : v.kind ≠ .string) : heap.content? v = none := by
  rw [Heap.content?, Value.asString?, if_neg h, Option.bind_none]

namespace Resolves

theorem exists_content (h : Resolves heap primitives v) (hkind : v.kind = .string) :
    ∃ s, heap.content? v = some s := by
  rcases h with rfl | hlive
  · cases hkind
  · rw [content?_of_kind hkind]
    exact Heap.string?_of_lt (hlive.string_lt hkind)

/-- The kind of such a value gives its tag away. -/
theorem kind_ne_unknown (h : Resolves heap primitives v) : v.kind ≠ .unknown := by
  rcases h with rfl | hlive
  · nofun
  · cases hlive with
    | bool b => cases b <;> simp
    | _ => simp

end Resolves

/-- The tag of a kind; any is right where it has no meaning. -/
def tagOf : Kind → Nat
  | .int => 0
  | .nil => 1
  | .no => 2
  | .yes => 3
  | .empty => 4
  | .string => 5
  | .function => 6
  | .primitive => 7
  | .unknown => 8

theorem tag_eq_tagOf (h : v.kind ≠ .unknown) : v.tag = tagOf v.kind := by
  have hlt := Value.tag_lt v
  unfold Value.kind at h ⊢
  interval_cases v.tag <;> first | rfl | exact absurd rfl h

/-- Values with a meaning are told apart by their kinds and payloads. -/
theorem eq_iff_kind_payload (hv : v.kind ≠ .unknown) :
    v = w ↔ v.kind = w.kind ∧ v.payload = w.payload := by
  constructor
  · rintro rfl
    exact ⟨rfl, rfl⟩
  · rintro ⟨hkind, hpayload⟩
    rw [Value.eq_tagged v, Value.eq_tagged w, tag_eq_tagOf hv, tag_eq_tagOf (hkind ▸ hv), hkind,
      hpayload]

/-! ## Equality -/

/-- Two values are the same if they are one word, or strings with one content. -/
theorem sameValue_iff : sameValue heap v w = true ↔
    v = w ∨ ∃ s, heap.content? v = some s ∧ heap.content? w = some s := by
  unfold sameValue
  rw [Bool.or_eq_true, beq_iff_eq]
  refine or_congr_right ?_
  constructor
  · intro h
    split at h
    · next s t hs ht =>
      rw [beq_iff_eq] at h
      exact ⟨s, hs, h ▸ ht⟩
    · cases h
  · rintro ⟨s, hs, ht⟩
    simp only [hs, ht, beq_self_eq_true]

theorem sameValue_equivalence (heap : Heap) :
    Equivalence fun v w => sameValue heap v w = true where
  refl v := sameValue_iff.2 (.inl rfl)
  symm h := by
    rcases sameValue_iff.1 h with rfl | ⟨s, hv, hw⟩
    · exact h
    · exact sameValue_iff.2 (.inr ⟨s, hw, hv⟩)
  trans h h' := by
    rcases sameValue_iff.1 h with rfl | ⟨s, hv, hw⟩
    · exact h'
    · rcases sameValue_iff.1 h' with rfl | ⟨t, hw', hu⟩
      · exact h
      · rw [hw] at hw'
        cases hw'
        exact sameValue_iff.2 (.inr ⟨s, hv, hu⟩)

/-- Strings are the same if their contents are. -/
theorem sameValue_strings {s t : String} (hv : heap.content? v = some s)
    (hw : heap.content? w = some t) : sameValue heap v w = true ↔ s = t := by
  rw [sameValue_iff, hv, hw]
  constructor
  · rintro (rfl | ⟨r, hs, ht⟩)
    · exact Option.some.inj (hv.symm.trans hw)
    · exact Option.some.inj (hs.trans ht.symm)
  · rintro rfl
    exact .inr ⟨s, rfl, rfl⟩

/-- Other values are the same if they are one word. -/
theorem sameValue_words (h : bothStrings v w = false) :
    sameValue heap v w = true ↔ v = w := by
  rw [sameValue_iff]
  refine or_iff_left fun ⟨s, hv, hw⟩ => ?_
  have hkinds : v.kind = .string ∧ w.kind = .string := by
    constructor <;> by_contra hkind
    · rw [content?_of_kind_ne hkind] at hv
      cases hv
    · rw [content?_of_kind_ne hkind] at hw
      cases hw
  rw [bothStrings_iff.2 hkinds] at h
  cases h

/-! ## Order -/

theorem order_strings {s t : String} (hv : v.kind = .string) (hw : w.kind = .string)
    (hs : heap.content? v = some s) (ht : heap.content? w = some t) (op : Opcode) :
    order heap op v w = .ok (compare s t) := by
  rw [content?_of_kind hv] at hs
  rw [content?_of_kind hw] at ht
  simp only [order, if_pos (bothStrings_iff.2 ⟨hv, hw⟩), stringOperands, hs, ht]
  rfl

theorem order_ints {x y : Int} (hx : v.asInt? = some x) (hy : w.asInt? = some y) (op : Opcode) :
    order heap op v w = .ok (compare x y) := by
  have hstrings : bothStrings v w = false := by
    rw [bothStrings, kind_of_asInt? hx]
    rfl
  simp only [order, hstrings, intOperands, hx, hy]
  rfl

/-- An integer is held by one word only. -/
theorem eq_of_asInt? {x : Int} (hx : v.asInt? = some x) (hy : w.asInt? = some x) : v = w := by
  obtain ⟨n, hn, -, rfl⟩ := Value.asInt?_of_kind (kind_of_asInt? hx)
  obtain ⟨m, hm, -, rfl⟩ := Value.asInt?_of_kind (kind_of_asInt? hy)
  rw [hx] at hn
  rw [hy] at hm
  cases hn
  cases hm
  rfl

theorem sameValue_ints {x y : Int} (hx : v.asInt? = some x) (hy : w.asInt? = some y) :
    sameValue heap v w = true ↔ x = y := by
  have hstrings : bothStrings v w = false := by
    rw [bothStrings, kind_of_asInt? hx]
    rfl
  rw [sameValue_words hstrings]
  constructor
  · rintro rfl
    exact Option.some.inj (hx.symm.trans hy)
  · rintro rfl
    exact eq_of_asInt? hx hy

/-- What cannot be put in order is reported with the kinds of both. -/
theorem order_others (hints : ¬(v.kind = .int ∧ w.kind = .int)) (hstrings : bothStrings v w = false)
    (heap : Heap) (op : Opcode) : order heap op v w = .error (.badOperands op v.kind w.kind) := by
  have hoperands : intOperands op v w = .error (.badOperands op v.kind w.kind) := by
    unfold intOperands
    split
    · next hx hy =>
      exact absurd ⟨kind_of_asInt? hx, kind_of_asInt? hy⟩ hints
    · rfl
  simp only [order, hstrings, hoperands]
  rfl

/-! ## Trichotomy -/

/-- The first of two values is less than the second, equal to it or greater, and the other operators say
what follows from this. -/
def Trichotomous (heap : Heap) (v w : Value) : Prop :=
  ∃ lt eq gt : Bool, [lt, eq, gt].count true = 1 ∧
    comparison heap .lt v w = .ok lt ∧ comparison heap .eq v w = .ok eq ∧
    comparison heap .gt v w = .ok gt ∧ comparison heap .le v w = .ok (lt || eq) ∧
    comparison heap .ge v w = .ok (gt || eq) ∧ comparison heap .notEq v w = .ok (!eq)

/-- It is enough that equality agrees with the order. -/
theorem trichotomous_of_order {o : Ordering} (ho : ∀ op, order heap op v w = .ok o)
    (heq : sameValue heap v w = true ↔ o = .eq) : Trichotomous heap v w := by
  have hcomparison : ∀ op, Orders op → comparison heap op v w = .ok (holds op o) := fun op hop => by
    rw [comparison_of_orders hop, ho]
    rfl
  have hsame : sameValue heap v w = o.isEq := by
    rw [Bool.eq_iff_iff, heq, Ordering.isEq_iff_eq_eq]
  refine ⟨o.isLT, o.isEq, o.isGT, by cases o <;> rfl, hcomparison _ (.inl rfl),
    congrArg Except.ok hsame, hcomparison _ (.inr (.inr (.inl rfl))), ?_, ?_,
    congrArg (fun b => Except.ok !b) hsame⟩
  · rw [hcomparison _ (.inr (.inl rfl))]
    cases o <;> rfl
  · rw [hcomparison _ (.inr (.inr (.inr rfl)))]
    cases o <;> rfl

theorem trichotomous_ints {x y : Int} (hx : v.asInt? = some x) (hy : w.asInt? = some y) :
    Trichotomous heap v w :=
  trichotomous_of_order (order_ints hx hy) ((sameValue_ints hx hy).trans Int.compare_eq_eq.symm)

theorem trichotomous_strings {s t : String} (hv : v.kind = .string) (hw : w.kind = .string)
    (hs : heap.content? v = some s) (ht : heap.content? w = some t) : Trichotomous heap v w :=
  trichotomous_of_order (order_strings hv hw hs ht)
    ((sameValue_strings hs ht).trans (compareOfLessAndEq_eq_eq String.le_refl String.not_le).symm)

/-! ## Less than -/

theorem map_holds_lt_iff {o : Ordering} :
    (Except.ok o : Except Fault Ordering).map (holds .lt) = .ok true ↔ o = .lt := by
  cases o <;> simp [Except.map, holds]

theorem lt_ints {x y : Int} (hx : v.asInt? = some x) (hy : w.asInt? = some y) :
    comparison heap .lt v w = .ok true ↔ x < y := by
  rw [comparison_of_orders (.inl rfl), order_ints hx hy, map_holds_lt_iff, Int.compare_eq_lt]

theorem lt_strings {s t : String} (hv : v.kind = .string) (hw : w.kind = .string)
    (hs : heap.content? v = some s) (ht : heap.content? w = some t) :
    comparison heap .lt v w = .ok true ↔ s < t := by
  rw [comparison_of_orders (.inl rfl), order_strings hv hw hs ht, map_holds_lt_iff]
  exact compareOfLessAndEq_eq_lt

/-- Only of integers and of strings is one less than the other. -/
theorem lt_cases (hv : Resolves heap primitives v) (hw : Resolves heap primitives w)
    (h : comparison heap .lt v w = .ok true) :
    (∃ x y, v.asInt? = some x ∧ w.asInt? = some y ∧ x < y) ∨
      v.kind = .string ∧ w.kind = .string ∧
        ∃ s t, heap.content? v = some s ∧ heap.content? w = some t ∧ s < t := by
  by_cases hstrings : bothStrings v w = true
  · obtain ⟨hkv, hkw⟩ := bothStrings_iff.1 hstrings
    obtain ⟨s, hs⟩ := hv.exists_content hkv
    obtain ⟨t, ht⟩ := hw.exists_content hkw
    exact .inr ⟨hkv, hkw, s, t, hs, ht, (lt_strings hkv hkw hs ht).1 h⟩
  · by_cases hints : v.kind = .int ∧ w.kind = .int
    · obtain ⟨x, hx, -, -⟩ := Value.asInt?_of_kind hints.1
      obtain ⟨y, hy, -, -⟩ := Value.asInt?_of_kind hints.2
      exact .inl ⟨x, y, hx, hy, (lt_ints hx hy).1 h⟩
    · rw [comparison_of_orders (.inl rfl), order_others hints (by simpa using hstrings)] at h
      cases h

theorem lt_chain (hv : Resolves heap primitives v) (hw : Resolves heap primitives w)
    (hu : Resolves heap primitives u) (h : comparison heap .lt v w = .ok true)
    (h' : comparison heap .lt w u = .ok true) : comparison heap .lt v u = .ok true := by
  rcases lt_cases hv hw h with ⟨x, y, hx, hy, hxy⟩ | ⟨hkv, hkw, s, t, hs, ht, hst⟩
  · rcases lt_cases hw hu h' with ⟨y', z, hy', hz, hyz⟩ | ⟨hkw, -⟩
    · rw [hy] at hy'
      cases hy'
      exact (lt_ints hx hz).2 (Int.lt_trans hxy hyz)
    · rw [kind_of_asInt? hy] at hkw
      cases hkw
  · rcases lt_cases hw hu h' with ⟨y', z, hy', -, -⟩ | ⟨-, hku, t', r, ht', hr, htr⟩
    · rw [kind_of_asInt? hy'] at hkw
      cases hkw
    · rw [ht] at ht'
      cases ht'
      exact (lt_strings hkv hku hs hr).2 (String.lt_trans hst htr)

/-! ## Instructions -/

/-- The machine is about to compare the values of two registers, and has fuel for it; the result goes to
a register of the running frame. -/
structure AboutToCompare (m : Machine) (frame : Frame) (rest : List Frame) (op : Opcode) (i : Word)
    (v w : Value) : Prop where
  frames : m.frames = frame :: rest
  instruction : ∃ f, m.heap.function? frame.function = some f ∧ f.code[frame.ip]? = some i
  opcode : i.opcode? = some op
  fuelled : m.Fuelled
  operator : Compares op
  left : m.stack[frame.base + i.b]? = some v
  right : m.stack[frame.base + i.c]? = some w
  target : frame.base + i.a < m.stack.size

theorem bind_of_error {α β : Type} {act : Action α} {next : α → Action β} {m o : Machine} {e : Fault}
    (h : act m = .error e o) : (act >>= next) m = .error e o := by
  show EStateM.bind act next m = _
  unfold EStateM.bind
  rw [h]

/-- The step stores what the operator says, or stops at a fault. -/
theorem AboutToCompare.step_eq {m : Machine} {frame : Frame} {rest : List Frame} {i : Word}
    (h : AboutToCompare m frame rest op i v w) :
    step m = match comparison m.heap op v w with
      | .ok b => .ok none ((m.past frame rest).store (frame.base + i.a) (.bool b))
      | .error e => .error e (m.past frame rest) := by
  obtain ⟨f, hf, hi⟩ := h.instruction
  have hleft : readReg frame.base i.b (m.past frame rest) = .ok v (m.past frame rest) :=
    readReg_eq h.left
  have hright : readReg frame.base i.c (m.past frame rest) = .ok w (m.past frame rest) :=
    readReg_eq h.right
  have hperform : perform f frame.base op i (m.past frame rest) =
      (do let r ← binaryResult op v w; writeReg frame.base i.a r; return none :
        Action (Option Value)) (m.past frame rest) := by
    have hop := h.operator
    cases op <;> simp only [Compares] at hop
    all_goals exact (bind_of_ok hleft).trans (bind_of_ok hright)
  have hresult : binaryResult op v w (m.past frame rest) =
      liftFault ((comparison m.heap op v w).map .bool) (m.past frame rest) :=
    binaryResult_comparison h.operator v w _
  rw [step_performs h.frames hf hi h.fuelled h.opcode, hperform]
  cases hb : comparison m.heap op v w with
  | error e =>
    rw [hb] at hresult
    exact bind_of_error hresult
  | ok b =>
    rw [hb] at hresult
    exact (bind_of_ok hresult).trans (bind_of_ok (writeReg_eq h.target))

/-! ## Consistency -/

/-- Equality and order are consistent. Equality never fails and is an equivalence; strings are equal if
their contents are, and other values if their kinds and payloads are. Of two integers and of two strings
the first is less than the second, equal to it or greater, and just one of these; the other operators say
what follows from it. Less is transitive. It is the order of numbers on integers, and on strings that of
their code points, which is that of their bytes too. Any other two values are equal only if they are
the same word, which they are not if they are of different kinds, and to put them in order is a fault
that names both kinds. A step that compares has the machine store just this, or stop. -/
theorem comparisons_consistent (heap : Heap) (primitives : Nat) :
    (Equivalence fun v w => comparison heap .eq v w = .ok true) ∧
    (∀ v w, ∃ b, comparison heap .eq v w = .ok b ∧ comparison heap .notEq v w = .ok !b) ∧
    (∀ v w, Resolves heap primitives v → Resolves heap primitives w →
      (v.kind = .int → w.kind = .int → Trichotomous heap v w ∧
        ∃ x y, v.asInt? = some x ∧ w.asInt? = some y ∧
          (comparison heap .eq v w = .ok true ↔ x = y) ∧
          (comparison heap .lt v w = .ok true ↔ x < y)) ∧
      (v.kind = .string → w.kind = .string → Trichotomous heap v w ∧
        ∃ s t, heap.content? v = some s ∧ heap.content? w = some t ∧
          (comparison heap .eq v w = .ok true ↔ s = t) ∧
          (comparison heap .lt v w = .ok true ↔
            s.toList.map Char.toNat < t.toList.map Char.toNat) ∧
          (comparison heap .lt v w = .ok true ↔ utf8 s < utf8 t)) ∧
      (¬(v.kind = .string ∧ w.kind = .string) →
        (comparison heap .eq v w = .ok true ↔ v.kind = w.kind ∧ v.payload = w.payload)) ∧
      (¬(v.kind = .int ∧ w.kind = .int) → ¬(v.kind = .string ∧ w.kind = .string) →
        (comparison heap .eq v w = .ok true ↔ v = w) ∧
        ∀ op, Orders op → comparison heap op v w = .error (.badOperands op v.kind w.kind))) ∧
    (∀ v w u, Resolves heap primitives v → Resolves heap primitives w → Resolves heap primitives u →
      comparison heap .lt v w = .ok true → comparison heap .lt w u = .ok true →
        comparison heap .lt v u = .ok true) ∧
    ∀ (m : Machine) frame rest op i v w, m.heap = heap → AboutToCompare m frame rest op i v w →
      step m = match comparison heap op v w with
        | .ok b => .ok none ((m.past frame rest).store (frame.base + i.a) (.bool b))
        | .error e => .error e (m.past frame rest) := by
  have heq : ∀ v w, comparison heap .eq v w = .ok true ↔ sameValue heap v w = true := fun v w => by
    rw [comparison, Except.ok.injEq]
  refine ⟨?_, fun v w => ⟨_, rfl, rfl⟩, fun v w hv hw => ⟨fun hkv hkw => ?_, fun hkv hkw => ?_,
    fun hne => ?_, fun hints hne => ⟨?_, fun op hop => ?_⟩⟩, fun v w u => lt_chain, ?_⟩
  · simpa only [heq] using sameValue_equivalence heap
  · obtain ⟨x, hx, -, -⟩ := Value.asInt?_of_kind hkv
    obtain ⟨y, hy, -, -⟩ := Value.asInt?_of_kind hkw
    exact ⟨trichotomous_ints hx hy, x, y, hx, hy, (heq v w).trans (sameValue_ints hx hy), lt_ints hx hy⟩
  · obtain ⟨s, hs⟩ := hv.exists_content hkv
    obtain ⟨t, ht⟩ := hw.exists_content hkw
    have hlt := lt_strings hkv hkw hs ht
    exact ⟨trichotomous_strings hkv hkw hs ht, s, t, hs, ht, (heq v w).trans (sameValue_strings hs ht),
      hlt.trans codePoints_lt_iff.symm, hlt.trans utf8_lt_iff.symm⟩
  · have hstrings : bothStrings v w = false := by
      rwa [← Bool.not_eq_true, bothStrings_iff]
    rw [heq, sameValue_words hstrings, eq_iff_kind_payload hv.kind_ne_unknown]
  · have hstrings : bothStrings v w = false := by
      rwa [← Bool.not_eq_true, bothStrings_iff]
    rw [heq, sameValue_words hstrings]
  · have hstrings : bothStrings v w = false := by
      rwa [← Bool.not_eq_true, bothStrings_iff]
    rw [comparison_of_orders hop, order_others hints hstrings]
    rfl
  · rintro m frame rest op i v w rfl h
    exact h.step_eq

/-- A machine that is about to put two letters in order. -/
def comparingMachine : Machine :=
  { new
      { Heap.empty with
        strings := #["z", "é"]
        functions := #[⟨"f", 0, 3, #[], #[Word.abc .lt 2 0 1]⟩] }
      .empty .empty .unbounded none with
    stack := #[.string 0, .string 1, .nil]
    frames := [⟨0, 0, 0, 0⟩] }

theorem comparingMachine_less :
    Trichotomous comparingMachine.heap (.string 0) (.string 1) ∧
      step comparingMachine =
        .ok none ((comparingMachine.past ⟨0, 0, 0, 0⟩ []).store 2 (.bool true)) := by
  obtain ⟨-, -, hpairs, -, hsteps⟩ := comparisons_consistent comparingMachine.heap 0
  obtain ⟨-, hstrings, -⟩ := hpairs (.string 0) (.string 1)
    (.inr (.string 0 (by decide))) (.inr (.string 1 (by decide)))
  obtain ⟨htrichotomous, s, t, hs, ht, -, hlt, -⟩ := hstrings (by decide) (by decide)
  have hs' : comparingMachine.heap.content? (.string 0) = some "z" := by decide
  have ht' : comparingMachine.heap.content? (.string 1) = some "é" := by decide
  rw [hs'] at hs
  rw [ht'] at ht
  cases hs
  cases ht
  have hless : comparison comparingMachine.heap .lt (.string 0) (.string 1) = .ok true :=
    hlt.2 (by decide)
  have hready : AboutToCompare comparingMachine ⟨0, 0, 0, 0⟩ [] .lt (Word.abc .lt 2 0 1)
      (.string 0) (.string 1) :=
    ⟨rfl, ⟨_, rfl, rfl⟩, by decide, fuelled_of_none rfl, trivial, by decide, by decide, by decide⟩
  refine ⟨htrichotomous, (hsteps _ _ _ _ _ _ _ rfl hready).trans ?_⟩
  rw [hless]
  rfl

end ScriptMachine.Machine
