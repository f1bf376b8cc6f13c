import ScriptMachine.Machine.Standard
import ScriptMachine.Machine.Step

/-!
# The image

One heap, one table of globals and one registry of primitives serve a whole session.
-/

namespace ScriptMachine

/-- The live state that all units share. -/
structure Image where
  globals : GlobalTable
  primitives : Registry
  heap : Heap

namespace Image

/-- An image without primitives. -/
def empty : Image :=
  ⟨.empty, .empty, .empty⟩

/-- An image with the standard primitives. -/
def standard : Image :=
  ⟨.empty, .standard, .empty⟩

/-- What is needed to show values of this image. -/
def legend (i : Image) : Legend :=
  ⟨i.heap, i.primitives.name?⟩

/-- The image as a listing shows it. -/
def spelled (i : Image) : String :=
  s!"ProgramImage \x7b globals: Some({i.globals.length}), " ++
    s!"primitives: Some({i.primitives.count}), .. \x7d"

/-- The sizes of the tables and the names of all primitives, a line each. -/
def sections (i : Image) : String :=
  let head :=
    [s!"globals: {i.globals.length} slots ({i.globals.boundCount} bound)",
      s!"primitives: {i.primitives.count}"]
  let entries := i.primitives.names.zipIdx.map fun (name, index) => s!"  #{index} " ++ name
  "\n".intercalate (head ++ entries)

end Image
end ScriptMachine
