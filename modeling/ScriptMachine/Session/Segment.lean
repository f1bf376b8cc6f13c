import ScriptMachine.Text.Lines

/-!
# Segments

A fragment is cut into directives, which are lines that begin with `#`, and the code between them.
Code is padded with empty lines, so that a place in it is the same place in the fragment.
-/

namespace ScriptMachine.Session

open Text

/-- A piece of a fragment. -/
inductive Segment
  | directive (line : List Char)
  | code (text : List Char)
deriving DecidableEq

/-- Whether the first character of a line that is not blank is `#`. -/
def isDirectiveLine (l : Line) : Bool :=
  (trimStart l).head? == some '#'

/-- The code segment with these lines, which are in reverse; no lines make no segment. -/
def closeCode (pending : List Line) : List Segment :=
  if pending.isEmpty then [] else [.code (unlines pending.reverse)]

/-- The segments of the lines from number `index` on. The lines of the open code segment are in
`pending`, in reverse, with its padding. -/
def segmentsFrom : (index : Nat) → (pending : List Line) → List Line → List Segment
  | _, pending, [] => closeCode pending
  | index, pending, line :: rest =>
    if isDirectiveLine line then
      closeCode pending ++ .directive (trim line) :: segmentsFrom (index + 1) [] rest
    else if pending.isEmpty then
      if isBlankLine line then segmentsFrom (index + 1) [] rest
      else segmentsFrom (index + 1) (line :: List.replicate index []) rest
    else segmentsFrom (index + 1) (line :: pending) rest

/-- The segments of a fragment; one that holds nothing is a single code segment. -/
def segments (source : List Char) : List Segment :=
  match segmentsFrom 0 [] (lines source) with
  | [] => [.code source]
  | segments => segments

end ScriptMachine.Session
