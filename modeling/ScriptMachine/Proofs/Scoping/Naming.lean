import ScriptMachine.Proofs.Scoping.Checking
import ScriptMachine.Proofs.Value.Tags

/-!
# Sites that a compilation decides at once

A literal is in range just if its digits denote no more than the greatest integer, and a name is found
in the tables of the compilation just if it means something in the surroundings that they show. A
definition changes both alike.
-/

namespace ScriptMachine.Scoping

open Source Compile

/-! ## Literals -/

/-- A digit is no underscore. -/
theorem filter_digits {s : List Char} (h : Text.areDigits s = true) :
    s.filter (· != '_') = s := by
  refine List.filter_eq_self.2 fun c hc => ?_
  have hdigit : c.isDigit = true := by
    simp only [Text.areDigits, Bool.and_eq_true, List.all_eq_true] at h
    exact h.2 c hc
  rw [bne_iff_ne]
  rintro rfl
  exact absurd hdigit (by decide)

/-- Digits without a sign denote their number, if it fits 64 bits. -/
theorem readInt?_digits {s : List Char} (h : Text.areDigits s = true) :
    readInt? s = if Text.ofDigits s < 2 ^ 63 then some (Text.ofDigits s : Int) else none := by
  have hsign : ∀ c r, s = c :: r → c.isDigit = true := by
    rintro c r rfl
    simp only [Text.areDigits, Bool.and_eq_true, List.all_cons] at h
    exact h.2.1
  have hplain : readInt? s =
      if -0x8000000000000000 ≤ (Text.ofDigits s : Int) && (Text.ofDigits s : Int) < 0x8000000000000000
      then some (Text.ofDigits s : Int) else none := by
    unfold readInt?
    split
    next negative ds heq =>
    split at heq
    · exact absurd (hsign _ _ rfl) (by decide)
    · exact absurd (hsign _ _ rfl) (by decide)
    · cases heq
      rw [if_pos h]
      rfl
  rw [hplain]
  congr 1
  simp only [Bool.and_eq_true, decide_eq_true_iff, eq_iff_iff]
  omega

/-- A literal is in range, or refused as one that is not. -/
theorem literalValue_digits {digits : String} (h : Text.areDigits digits.toList = true) :
    literalValue digits =
      if Text.ofDigits digits.toList ≤ maxLiteral then .ok (Text.ofDigits digits.toList : Int)
      else .error (.integerOutOfRange digits) := by
  unfold literalValue
  simp only [filter_digits h, readInt?_digits h]
  by_cases hmax : Text.ofDigits digits.toList ≤ maxLiteral
  · have hfits : Value.fits (Text.ofDigits digits.toList) = true := by
      rw [Value.fits_iff]
      rw [maxLiteral] at hmax
      omega
    rw [if_pos hmax, if_pos (by rw [maxLiteral] at hmax; omega)]
    simp only [hfits, if_true]
  · rw [if_neg hmax]
    by_cases hword : Text.ofDigits digits.toList < 2 ^ 63
    · have hfits : ¬ Value.fits (Text.ofDigits digits.toList) = true := by
        rw [Value.fits_iff]
        rw [maxLiteral] at hmax
        omega
      rw [if_pos hword]
      simp only [hfits]
      rfl
    · rw [if_neg hword]
      simp only [h, if_true]

/-! ## Names -/

/-- The newest local of a name decides whether the name may be assigned to. -/
theorem lookup_locals (locals : List Local) (name : String) :
    (locals.map fun l => (l.name, l.mutable)).lookup name =
      (locals.find? fun l => l.name = name).map Local.mutable := by
  induction locals with
  | nil => rfl
  | cons l rest ih =>
    by_cases hl : l.name = name
    · simp [hl]
    · have hne : (name == l.name) = false := by simpa using fun h : name = l.name => hl h.symm
      simp [List.lookup_cons, hl, hne, ih]

section

variable {v : View} {s : Surroundings}

theorem View.Shows.assignable? (h : v.Shows s) (name : String) : s.assignable? name =
    ((v.locals.find? fun l => l.name = name).map Local.mutable).or
      (((v.names.global? name).map GlobalName.mutable).or
        ((v.names.primitive? name).map fun _ => false)) := by
  have hprimitive : v.names.primitive? name = s.committed.primitive? name := by
    rw [Names.primitive?, Names.primitive?, h.primitives]
  rw [Surroundings.assignable?, ← h.locals, lookup_locals, hprimitive, h.globals, Option.or_assoc]

theorem checks_loadName (h : v.Shows s) (name : String) (p : Position) (target : Nat) :
    Checks v (loadName name p target) [⟨s, .read name, p⟩] fun _ w => w = v := by
  have hname := h.assignable? name
  unfold loadName
  refine .get fun b hb => ?_
  have hlocal : b.body.local? name = v.locals.find? fun l => l.name = name := hb ▸ rfl
  have hnames : b.names = v.names := hb ▸ rfl
  rw [hlocal, hnames]
  cases hl : v.locals.find? fun l => l.name = name with
  | some l =>
    rw [hl] at hname
    refine .allowed (by simp [Site.Allowed, hname]) ?_
    dsimp only
    split_ifs
    · exact .pure rfl
    · exact neutral_emitABC _ _ _ _ v
  | none =>
    rw [hl] at hname
    dsimp only
    cases hg : v.names.global? name with
    | some g =>
      rw [hg] at hname
      refine .allowed (by simp [Site.Allowed, hname]) ?_
      exact (neutral_wideOperand _).bind fun _ => neutral_emitABx _ _ _ v
    | none =>
      rw [hg] at hname
      dsimp only
      cases hp : v.names.primitive? name with
      | some index =>
        rw [hp] at hname
        refine .allowed (by simp [Site.Allowed, hname]) ?_
        exact (neutral_wideOperand _).bind fun _ => neutral_emitABx _ _ _ v
      | none =>
        rw [hp] at hname
        exact .refused (.unknown hname)

theorem checks_destination (h : v.Shows s) (name : String) (p : Position) :
    Checks v (destination name p) [⟨s, .assign (some name), p⟩] fun _ w => w = v := by
  have hname := h.assignable? name
  unfold destination
  refine .get fun b hb => ?_
  have hlocal : b.body.local? name = v.locals.find? fun l => l.name = name := hb ▸ rfl
  have hnames : b.names = v.names := hb ▸ rfl
  rw [hlocal, hnames]
  cases hl : v.locals.find? fun l => l.name = name with
  | some l =>
    rw [hl] at hname
    dsimp only
    split_ifs with hm
    · exact .allowed ⟨name, rfl, by simp [hname, hm]⟩ (.pure rfl)
    · exact .refused (.fixedTarget (by simp [hname, hm]))
  | none =>
    rw [hl] at hname
    dsimp only
    cases hg : v.names.global? name with
    | some g =>
      rw [hg] at hname
      dsimp only
      split_ifs with hm
      · refine .allowed ⟨name, rfl, by simp [hname, hm]⟩ ?_
        exact (neutral_wideOperand _).bind fun _ => .pure rfl
      · exact .refused (.fixedTarget (by simp [hname, hm]))
    | none =>
      rw [hg] at hname
      dsimp only
      split_ifs with hp
      · obtain ⟨index, hindex⟩ := Option.isSome_iff_exists.1 hp
        exact .refused (.fixedTarget (by simp [hname, hindex]))
      · rw [Option.not_isSome_iff_eq_none] at hp
        exact .refused (.unknownTarget (by simp [hname, hp]))

end

/-! ## Definitions -/

/-- After the definition of a global. -/
def View.define (v : View) (name : String) (mutable : Bool) : View :=
  { v with names := v.names.define ⟨name, v.names.nextSlot, mutable⟩ }

/-- After the declaration of a local. -/
def View.declare (v : View) (l : Local) : View :=
  { v with locals := l :: v.locals }

section

variable {v : View} {s : Surroundings}

theorem View.Shows.define (h : v.Shows s) (htop : v.atTopLevel = true) (name : String)
    (mutable : Bool) : (v.define name mutable).Shows (s.declare name mutable) := by
  have hdeclare : s.declare name mutable = { s with staged := (name, mutable) :: s.staged } := by
    rw [Surroundings.declare, if_pos (h.topLevel.symm.trans htop)]
  rw [hdeclare]
  refine ⟨h.locals, fun other => ?_, h.primitives, h.inFunction, h.topLevel, h.nested⟩
  show (((v.names.define _).globals.lookup other).map GlobalName.mutable) = _
  by_cases hother : other = name
  · subst hother
    simp [Names.define, Definition.place]
  · have hne : (other == name) = false := by simpa using hother
    rw [List.lookup_cons, hne]
    exact (congrArg _ (lookup_assign_ne hother _ _)).trans (h.globals other)

theorem View.Shows.declare (h : v.Shows s) (htop : v.atTopLevel = false) {l : Local}
    (hl : l.depth = v.depth) : (v.declare l).Shows (s.declare l.name l.mutable) := by
  have hdeclare : s.declare l.name l.mutable =
      { s with locals := (l.name, l.mutable) :: s.locals } := by
    rw [Surroundings.declare, if_neg (by simp [← h.topLevel, htop])]
  rw [hdeclare]
  refine ⟨congrArg _ h.locals, h.globals, h.primitives, h.inFunction, h.topLevel, ?_⟩
  intro l' hl'
  rcases List.mem_cons.1 hl' with rfl | hl'
  · exact Nat.le_of_eq hl
  · exact h.nested l' hl'

theorem checks_newSlot (v : View) (name : String) (mutable : Bool) :
    Checks v (newSlot name mutable) [] fun _ w => w = v.define name mutable := by
  intro _ b hb
  unfold newSlot
  dsimp only
  split_ifs
  · refine ⟨fun x b' hok => (by cases hok), fun e he => ?_⟩
    cases he
    exact .inl trivial
  · refine ⟨fun x b' hok => ⟨fun _ hs => absurd hs List.not_mem_nil, ?_⟩, fun e he => (by cases he)⟩
    cases hok
    rw [← hb]
    rfl

/-- A definition at the top level adds a name. -/
theorem follows_define (h : v.atTopLevel = true) (name : String) (mutable : Bool) :
    v.Follows (v.define name mutable) :=
  ⟨rfl, rfl, ⟨[], rfl, fun _ hl => absurd hl List.not_mem_nil⟩,
    fun hfalse => absurd (h.symm.trans hfalse) (by decide)⟩

theorem atTopLevel_of_view {b : Builder} (h : view b = v) : b.atTopLevel = v.atTopLevel := by
  rw [← h]
  simp [Builder.atTopLevel, View.atTopLevel, view]

/-- A binding defines a global or declares a local. -/
theorem checks_bindName (h : v.Shows s) (name : String) (mutable : Bool) (reg : Nat) :
    Checks v (bindName name mutable reg) []
      fun _ w => v.Follows w ∧ w.Shows (s.declare name mutable) := by
  unfold bindName
  refine .get fun b hb => ?_
  rw [atTopLevel_of_view hb]
  cases hlevel : v.atTopLevel with
  | true =>
    rw [if_pos rfl]
    refine Checks.after (R := fun w => v.Follows w ∧ w.Shows (s.declare name mutable)) ?_
      fun slot => (neutral_emitABx _ _ _).seq fun _ => neutral_giveBackReg
    refine (checks_newSlot v name mutable).mono fun _ w hw => ?_
    exact ⟨hw ▸ follows_define hlevel name mutable, hw ▸ h.define hlevel name mutable⟩
  | false =>
    rw [if_neg Bool.false_ne_true]
    refine (checks_updateBody (w := v.declare ⟨name, v.depth, reg, mutable⟩) ?_).mono ?_
    · intro b hb
      rw [← hb]
      rfl
    · rintro _ w rfl
      exact ⟨⟨rfl, rfl, ⟨[_], rfl, fun l hl => List.mem_singleton.1 hl ▸ rfl⟩, fun _ => rfl⟩,
        h.declare hlevel rfl⟩

end

end ScriptMachine.Scoping
