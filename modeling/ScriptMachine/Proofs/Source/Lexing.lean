import ScriptMachine.Source.Parsing
import ScriptMachine.Text.Digits

/-!
# Reading tokens

What the readers of the lexer do with the text ahead: which characters belong to a gap, which to the
contents of a string, which signs are read, and how one token follows the other.
-/

namespace ScriptMachine.Source

/-! ## Gaps -/

/-- Where no comment begins, a gap goes on with a blank and ends with another character. -/
theorem skipGap_cons {c : Char} {s : List Char} (hline : c = '/' → s.head? ≠ some '/')
    (hblock : c = '/' → s.head? ≠ some '*') (p : Position) :
    skipGap .blank p (c :: s) =
      if Text.isBlank c then skipGap .blank (p.next c) s else .ok (p, c :: s) := by
  conv => lhs; unfold skipGap
  split
  · next h =>
    cases h
    exact absurd rfl (hline rfl)
  · next h =>
    cases h
    exact absurd rfl (hblock rfl)
  · next h =>
    cases h
    rfl
  all_goals simp_all

/-- A blank belongs to a gap. -/
theorem skipGap_blank {c : Char} (hc : Text.isBlank c = true) (p : Position) (s : List Char) :
    skipGap .blank p (c :: s) = skipGap .blank (p.next c) s := by
  have hslash : c ≠ '/' := by
    rintro rfl
    exact absurd hc (by decide)
  rw [skipGap_cons (fun h => absurd h hslash) (fun h => absurd h hslash), if_pos hc]

/-- Another character ends a gap, unless a comment begins with it. -/
theorem skipGap_token {c : Char} (hc : Text.isBlank c = false) {s : List Char}
    (hline : c = '/' → s.head? ≠ some '/') (hblock : c = '/' → s.head? ≠ some '*')
    (p : Position) : skipGap .blank p (c :: s) = .ok (p, c :: s) := by
  rw [skipGap_cons hline hblock, if_neg (by simp [hc])]

/-- A line comment goes on up to a newline. -/
theorem skipGap_line {c : Char} (hc : c ≠ '\n') (p : Position) (s : List Char) :
    skipGap .line p (c :: s) = skipGap .line (p.next c) s := by
  conv => lhs; unfold skipGap
  split <;> simp_all

/-- A block comment goes on up to its closing sign. -/
theorem skipGap_block {c : Char} {s : List Char} (h : c = '*' → s.head? ≠ some '/')
    (o p : Position) : skipGap (.block o) p (c :: s) = skipGap (.block o) (p.next c) s := by
  conv => lhs; unfold skipGap
  split <;> simp_all

/-! ## Tokens -/

/-- Without its underscores a number is a row of digits. -/
theorem areDigits_filter {c : Char} {run : List Char} (hc : isDigit c = true)
    (hrun : ∀ d ∈ run, isNumberPart d = true) :
    Text.areDigits ((c :: run).filter (· != '_')) = true := by
  have hunderscore : c ≠ '_' := by
    rintro rfl
    exact absurd hc (by decide)
  rw [List.filter_cons_of_pos (by simpa using hunderscore), Text.areDigits]
  simp only [List.isEmpty_cons, Bool.not_false, Bool.true_and, List.all_eq_true, List.mem_cons,
    List.mem_filter, bne_iff_ne]
  rintro d (rfl | ⟨hd, hne⟩)
  · exact hc
  · have hpart := hrun d hd
    simp only [isNumberPart, Bool.or_eq_true, beq_iff_eq] at hpart
    exact hpart.resolve_right hne

theorem readContents_plain {c : Char} (hq : c ≠ '"') (hb : c ≠ '\\') (o : Position)
    (done s : List Char) : readContents o done (c :: s) = readContents o (c :: done) s := by
  rw [readContents]
  · exact hq
  · exact fun h _ => hb h
  · exact fun _ _ h _ => hb h

/-- Whether an equals sign after the sign makes it another one. -/
def Sign.isOpen : Sign → Bool
  | .lt | .gt | .not | .assign => true
  | _ => false

/-- The longest sign is read: one that is open is not followed by an equals sign. -/
theorem Sign.read?_eq_some_iff {s r : List Char} {g : Sign} :
    Sign.read? s = some (g, r) ↔
      s = g.spelling.toList ++ r ∧ (g.isOpen = true → r.head? ≠ some '=') := by
  constructor
  · intro h
    refine ⟨Sign.eq_spelling_append_of_read? h, fun hopen hhead => ?_⟩
    obtain ⟨u, rfl⟩ := List.head?_eq_some_iff.1 hhead
    obtain rfl := Sign.eq_spelling_append_of_read? h
    cases g <;> simp [Sign.isOpen] at hopen <;> simp [Sign.spelling, Sign.read?] at h
  · rintro ⟨rfl, hopen⟩
    by_cases hg : g.isOpen = true
    · have hhead := hopen hg
      cases r with
      | nil => cases g <;> rfl
      | cons c u =>
        have hc : c ≠ '=' := fun h => hhead (by rw [h, List.head?_cons])
        cases g <;> simp [Sign.isOpen] at hg <;> simp [Sign.spelling, Sign.read?, hc]
    · cases g <;> simp [Sign.isOpen] at hg <;> rfl

/-! ## Texts -/

/-- The tokens of a text: those after a gap and a token, if there are any. -/
theorem lexFrom_eq (done : List Lexeme) (p : Position) (s : List Char) :
    lexFrom done p s =
      match skipGap .blank p s with
      | .error e => .error e
      | .ok (q, []) => .ok ⟨done.reverse, q⟩
      | .ok (q, c :: r) =>
        match readToken q c r with
        | .error e => .error e
        | .ok x => lexFrom (⟨x.token, q⟩ :: done) (q.after x.text) x.rest := by
  rw [lexFrom]
  split
  · next h => rw [h]
  · next h => rw [h]
  · next q c r h =>
    rw [h]
    simp only
    split
    · next ht => rw [ht]
    · next ht => rw [ht]

end ScriptMachine.Source
