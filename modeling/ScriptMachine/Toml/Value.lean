/-!
# TOML values

A document is a table. A table knows how it came to be, which decides what may still be added to
it: a header defines a table once, dotted keys extend only tables that dotted keys have made, and a
table in braces is complete.
-/

namespace ScriptMachine.Toml

/-- How a table came to be: by a header of its own, by a header of a table inside it, by a dotted
key, or in braces. -/
inductive Form
  | header
  | implied
  | dotted
  | closed
deriving DecidableEq, Repr

/-- A value. The contents of floats and of dates and times are not kept. `tables` are the tables
that headers in double brackets make, the last of them first. -/
inductive Value
  | string (s : String)
  | integer (n : Int)
  | float
  | boolean (b : Bool)
  | dateTime
  | list (items : List Value)
  | table (form : Form) (fields : List (String × Value))
  | tables (items : List (List (String × Value)))

/-- The names and values of a table. -/
abbrev Fields := List (String × Value)

/-- A table's fields with the value of one name replaced. -/
def replace (name : String) (v : Value) (fields : Fields) : Fields :=
  fields.map fun (field : String × Value) => if field.1 = name then (name, v) else field

/-- Changes the table that a path leads to from a table of a form. Tables that are missing on the
way are made: by dotted keys if `dotted`, else implied by a header. Tables in double brackets are
entered at the last one. -/
def alter (dotted : Bool) (change : Form → Fields → Option Fields) :
    (path : List String) → Form → Fields → Option Fields
  | [], form, fields => change form fields
  | name :: rest, _, fields =>
    match fields.lookup name with
    | none =>
      let form := if dotted then Form.dotted else .implied
      (alter dotted change rest form []).map fun inner => fields ++ [(name, .table form inner)]
    | some (.table form inner) =>
      if form = .closed || (dotted && form = .header) then none
      else (alter dotted change rest form inner).map fun inner =>
        replace name (.table form inner) fields
    | some (.tables items) =>
      match items with
      | [] => none
      | last :: before => (alter dotted change rest .header last).map fun last =>
        replace name (.tables (last :: before)) fields
    | some _ => none

/-- Gives a value to a new name in a table. A dotted key adds only to a table that dotted keys have
made. -/
def addField (isDotted : Bool) (name : String) (v : Value) (form : Form) (fields : Fields) :
    Option Fields :=
  if (isDotted && form ≠ .dotted) || (fields.lookup name).isSome then none
  else some (fields ++ [(name, v)])

/-- Gives a value to a key, which is a path and a name. -/
def assign (path : List String) (name : String) (v : Value) (fields : Fields) : Option Fields :=
  alter true (addField (!path.isEmpty) name v) path .header fields

/-- Defines a table by a header; it may only have been implied before. -/
def defineTable (name : String) (_ : Form) (fields : Fields) : Option Fields :=
  match fields.lookup name with
  | none => some (fields ++ [(name, .table .header [])])
  | some (.table .implied inner) => some (replace name (.table .header inner) fields)
  | some _ => none

/-- Adds a table by a header in double brackets. -/
def appendTable (name : String) (_ : Form) (fields : Fields) : Option Fields :=
  match fields.lookup name with
  | none => some (fields ++ [(name, .tables [[]])])
  | some (.tables items) => some (replace name (.tables ([] :: items)) fields)
  | some _ => none

end ScriptMachine.Toml
