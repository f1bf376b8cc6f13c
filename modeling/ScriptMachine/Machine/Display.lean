import ScriptMachine.Machine.Primitive

/-!
# Values as text

Programs print a string as it is; reports show it in quotes. All other values look the same in both.
-/

namespace ScriptMachine

/-- What is needed to name the object behind a handle. -/
structure Legend where
  heap : Heap
  primitiveName? : Nat → Option String

namespace Legend

/-- A value that is not a string. -/
def render (l : Legend) (v : Value) : String :=
  match v.kind with
  | .int => decimal (v.asInt?.getD 0)
  | .yes => "true"
  | .no => "false"
  | .nil => "nil"
  | .empty => "<unbound>"
  | .function =>
    match l.heap.function? v.handle with
    | some f => "<fn " ++ f.name ++ s!"/{f.arity}>"
    | none => "<bad fn>"
  | .primitive =>
    match l.primitiveName? v.handle.toNat with
    | some name => "<primitive " ++ name ++ ">"
    | none => s!"<primitive #{v.handle.toNat}>"
  | .string | .unknown => v.spelled

/-- A value as programs print it. -/
def display (l : Legend) (v : Value) : String :=
  if v.kind = .string then (l.heap.string? v.handle).getD "<bad string>" else l.render v

/-- A value as reports show it. -/
def repr (l : Legend) (v : Value) : String :=
  if v.kind = .string then ((l.heap.string? v.handle).map Text.quote).getD "<bad string>"
  else l.render v

end Legend

/-- The legend that a primitive has. -/
def Host.legend (h : Host) : Legend :=
  ⟨h.heap, h.primitiveName?⟩

end ScriptMachine
