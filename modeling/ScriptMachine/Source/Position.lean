/-!
# Positions

A place in a source text as people count it: lines and columns both start at one, and a column is
one character wide.
-/

namespace ScriptMachine.Source

/-- A line and a column, both counted from one. -/
structure Position where
  line : Nat
  col : Nat
deriving DecidableEq, Repr, Inhabited

namespace Position

/-- Where every text starts. -/
def start : Position :=
  ⟨1, 1⟩

/-- The place right after the character `c` at `p`. -/
def next (p : Position) (c : Char) : Position :=
  if c = '\n' then ⟨p.line + 1, 1⟩ else ⟨p.line, p.col + 1⟩

/-- The place right after the text `s` that begins at `p`. -/
def after (p : Position) (s : List Char) : Position :=
  s.foldl next p

/-- No text moves nothing. -/
@[simp] theorem after_nil (p : Position) : p.after [] = p := rfl

/-- The first character moves first. -/
@[simp] theorem after_cons (p : Position) (c : Char) (s : List Char) :
    p.after (c :: s) = (p.next c).after s := rfl

/-- Texts move one after the other. -/
@[simp] theorem after_append (p : Position) (s t : List Char) :
    p.after (s ++ t) = (p.after s).after t := by
  simp [after]

end Position
end ScriptMachine.Source
