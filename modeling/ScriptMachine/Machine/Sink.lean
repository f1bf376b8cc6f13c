/-!
# Output

What a run has written so far. A sink may have room for a limited number of bytes; it takes a write
whole or not at all.
-/

namespace ScriptMachine

/-- Text written so far, and the number of bytes that fit in all. -/
structure Sink where
  text : String
  room : Option Nat
deriving DecidableEq

namespace Sink

/-- A sink with room for everything. -/
def unbounded : Sink :=
  ⟨"", none⟩

/-- Whether the text still fits. -/
def fits (s : Sink) (text : String) : Bool :=
  s.room.all fun room => s.text.utf8ByteSize + text.utf8ByteSize ≤ room

/-- Writes a text if it fits, and says whether it did. -/
def write (s : Sink) (text : String) : Bool × Sink :=
  if s.fits text then
    let ⟨written, room⟩ := s
    (true, ⟨written ++ text, room⟩)
  else (false, s)

/-- The sink with nothing written. -/
def cleared (s : Sink) : Sink :=
  { s with text := "" }

end Sink
end ScriptMachine
