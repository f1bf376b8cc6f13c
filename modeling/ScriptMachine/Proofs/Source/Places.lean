import ScriptMachine.Proofs.Source.Lossless
import Mathlib

/-!
# Places in a text

The lexer moves a position along with each character that it takes. Where that position is can be read
off the text before it: the line counts its newlines, and the column the characters after the last of
them. The text before a token is itself a text, with just the tokens before this one, so there is one
place for each token.
-/

namespace ScriptMachine.Source

/-! ## Lines and columns -/

/-- The characters of a text after its last newline, or all of them. -/
def lastLine (s : List Char) : List Char :=
  s.rtakeWhile (· != '\n')

/-- Where a text ends: in the line after its newlines, right after its last line. -/
def placeAfter (s : List Char) : Position :=
  ⟨1 + s.count '\n', 1 + (lastLine s).length⟩

/-- A newline begins a line, and any other character stands in the last one. -/
theorem placeAfter_snoc (s : List Char) (c : Char) :
    placeAfter (s ++ [c]) = (placeAfter s).next c := by
  by_cases hc : c = '\n'
  · simp [placeAfter, lastLine, Position.next, hc, Nat.add_assoc]
  · simp [placeAfter, lastLine, Position.next, hc, Nat.add_assoc]

/-- The position that has moved along with a text is the place where it ends. -/
theorem start_after (s : List Char) : Position.start.after s = placeAfter s := by
  induction s using List.reverseRecOn with
  | nil => rfl
  | append_singleton s c ih =>
    rw [Position.after_append, ih, placeAfter_snoc, Position.after_cons, Position.after_nil]

/-! ## The text before a token -/

namespace IsGap

/-- Before a token or at the end, a gap is a gap. -/
theorem toLast {last : Bool} {gap : List Char} (h : IsGap last gap) : IsGap true gap := by
  induction h with
  | nil => exact .nil
  | blank hc _ ih => exact .blank hc ih
  | line hbody _ ih => exact .line hbody ih
  | block hbody _ ih => exact .block hbody ih
  | lastLine hbody => exact .lastLine hbody

end IsGap

/-- A token that is the longest before some text is so before less of it. -/
theorem Longest.of_prefix {text rest less : List Char} (h : Longest text rest)
    (hless : less <+: rest) : Longest text less :=
  fun more t hmore hstarts => h more t hmore (hstarts.trans hless)

theorem BeginsComment.of_prefix {s less : List Char} (h : BeginsComment less) (hless : less <+: s) :
    BeginsComment s :=
  h.imp (·.trans hless) (·.trans hless)

/-- A token stands in a text between what is made of the tokens before it and what is made of those
after it. -/
structure StandsIn (p : Position) (s : List Char) (earlier : List Lexeme) (l : Lexeme)
    (later : List Lexeme) (stop : Position) (before text rest : List Char) : Prop where
  text_eq : s = before ++ (text ++ rest)
  spells : Spells text l.token
  longest : Longest text rest
  made : MadeOf p before earlier l.pos
  rest_made : MadeOf (l.pos.after text) rest later stop

/-- What a text is made of ends where the text does. -/
theorem MadeOf.stop_eq {p q : Position} {s : List Char} {ls : List Lexeme} (h : MadeOf p s ls q) :
    q = p.after s := by
  induction h with
  | stop => rfl
  | token _ _ _ _ _ ih => rw [ih, Position.after_append, Position.after_append]

/-- A text is cut at each of its tokens. -/
theorem MadeOf.cut {p q : Position} {s : List Char} {l : Lexeme} {earlier later : List Lexeme}
    (h : MadeOf p s (earlier ++ l :: later) q) :
    ∃ before text rest, StandsIn p s earlier l later q before text rest := by
  induction earlier generalizing p s with
  | nil =>
    cases h with
    | @token _ _ gap text rest t ls hgap _ ht hlongest hrest =>
      exact ⟨gap, text, rest, rfl, ht, hlongest, .stop hgap.toLast, hrest⟩
  | cons first earlier ih =>
    cases h with
    | @token _ _ gap word others t ls hgap hno ht hlongest hrest =>
      obtain ⟨before, text, rest, heq, hspells, hlong, hmade, hlater⟩ := ih hrest
      have hless : before <+: others := ⟨text ++ rest, heq.symm⟩
      have hno' : ¬BeginsComment (word ++ before) := fun hbegins =>
        hno (hbegins.of_prefix (List.prefix_append_right_inj _ |>.2 hless))
      refine ⟨gap ++ (word ++ before), text, rest, by simp [heq], hspells, hlong, ?_, hlater⟩
      exact .token hgap hno' ht (hlongest.of_prefix hless) hmade

/-! ## Tokens -/

/-- Each token of a text is at the place where the text before it ends, and the text ends where all of
it does. -/
theorem places_of_lex {source : String} {stream : TokenStream} (h : lex source = .ok stream) :
    (∀ earlier l later, stream.lexemes = earlier ++ l :: later → ∃ before text rest,
      StandsIn .start source.toList earlier l later stream.stop before text rest ∧
        l.pos = placeAfter before) ∧
      stream.stop = placeAfter source.toList := by
  have hmade := lex_eq_ok_iff.1 h
  refine ⟨fun earlier l later hls => ?_, hmade.stop_eq.trans (start_after _)⟩
  rw [hls] at hmade
  obtain ⟨before, text, rest, hstands⟩ := hmade.cut
  exact ⟨before, text, rest, hstands, hstands.made.stop_eq.trans (start_after _)⟩

end ScriptMachine.Source
