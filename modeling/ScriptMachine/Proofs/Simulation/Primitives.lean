import ScriptMachine.Proofs.Simulation.Results

/-!
# Primitives on data

Each standard primitive, given values that stand for data, does what its routine does to the data:
it writes the same text, and ends with a value that stands for the routine's result or with its
fault.
-/

namespace ScriptMachine

open Evaluation

namespace Simulation

/-- The ends of a primitive and of its routine. -/
inductive Answers (σ : Slots) (n : Nat) (heap : Heap) :
    EStateM.Result Fault Host Value → EStateM.Result Fault Sink Datum → Prop
  | ok {v : Value} {d : Datum} {h : Host} (hadd : heap.AddsStrings h.heap)
    (hd : h.heap.Full ∨ Stands σ n h.heap v d) : Answers σ n heap (.ok v h) (.ok d h.sink)
  | error {e : Fault} {h : Host} (he : e.Ordinary) : Answers σ n heap (.error e h) (.error e h.sink)

/-- A primitive does to values what its routine does to the data that they stand for. -/
def Follows (p : Primitive) (routine : Routine) : Prop :=
  ∀ (σ : Slots) (n : Nat) (args : List Value) (data : List Datum) (host : Host),
    List.Forall₂ (Stands σ n host.heap) args data →
    host.primitiveName? = Registry.standard.name? →
    Answers σ n host.heap (p.run args host) (routine data host.sink)

variable {σ : Slots} {n : Nat} {args : List Value} {data : List Datum} {host : Host}

theorem display_map (hargs : List.Forall₂ (Stands σ n host.heap) args data)
    (hname : host.primitiveName? = Registry.standard.name?) :
    args.map host.legend.display = data.map Datum.display := by
  rw [Host.legend, hname]
  induction hargs with
  | nil => rfl
  | cons hv _ ih => rw [List.map_cons, List.map_cons, hv.display_eq, ih]

theorem answers_allocString (s : String) :
    Answers σ n host.heap (Standard.allocString s host) (lift (.ok (.text s)) host.sink) :=
  .ok (h := { host with heap := (host.heap.allocString s).2 })
    (Heap.addsStrings_allocString host.heap s) (stands_allocString host.heap s)

/-- What a primitive with one argument does is said by what it does to that argument. -/
theorem follows_of_one {p : Primitive} {routine : Routine} (name : String)
    {act : Value → EStateM Fault Host Value} (result : Datum → Except Fault Datum)
    (hrun : ∀ args, p.run args = Standard.oneArgument name args >>= act)
    (hroutine : ∀ data, routine data = lift (match data with
      | [d] => result d
      | _ => .error (.argumentCount name 1)))
    (hact : ∀ (σ : Slots) (n : Nat) (v : Value) (d : Datum) (host : Host),
      Stands σ n host.heap v d → host.primitiveName? = Registry.standard.name? →
      Answers σ n host.heap (act v host) (lift (result d) host.sink)) : Follows p routine := by
  intro σ n args data host hargs hname
  rw [hrun, hroutine]
  cases hargs with
  | nil => exact .error trivial
  | cons hv hrest =>
    cases hrest with
    | nil => exact hact σ n _ _ host hv hname
    | cons _ _ => exact .error trivial

/-- Two integers are read from values as from the data that they stand for. -/
theorem twoInts_eq (name : String) (hargs : List.Forall₂ (Stands σ n host.heap) args data) :
    (∃ x y, Value.fits x = true ∧ Value.fits y = true ∧
      Standard.twoInts name args host = .ok (x, y) host ∧
      Evaluation.twoInts name data = .ok (x, y)) ∨
    ∃ e : Fault, e.Ordinary ∧ Standard.twoInts name args host = .error e host ∧
      Evaluation.twoInts name data = .error e := by
  have hcount : Fault.Ordinary (.argumentCount name 2) := trivial
  have hint : ∀ k, Fault.Ordinary (.badArgument (.notInt name k)) := fun _ => trivial
  cases hargs with
  | nil => exact .inr ⟨_, hcount, rfl, rfl⟩
  | @cons v d _ _ hv hrest =>
    cases hrest with
    | nil =>
      refine .inr ⟨_, hcount, rfl, ?_⟩
      cases d <;> rfl
    | @cons w e _ _ hw hrest =>
      cases hrest with
      | cons _ _ =>
        refine .inr ⟨_, hcount, rfl, ?_⟩
        cases d <;> cases e <;> rfl
      | nil =>
        simp only [Standard.twoInts, hv.asInt?_eq, hw.asInt?_eq, hv.kind_eq, hw.kind_eq]
        cases d with
        | int x =>
          cases e with
          | int y => exact .inl ⟨x, y, hv.fits, hw.fits, rfl, rfl⟩
          | _ => exact .inr ⟨_, hint _, rfl, rfl⟩
        | _ => exact .inr ⟨_, hint _, rfl, rfl⟩

/-- What a primitive of two integers does is said by its result on integers. -/
theorem follows_of_two {p : Primitive} {routine : Routine} {name : String} {result : Int → Int → Int}
    (hrun : ∀ args, p.run args = Standard.twoInts name args >>= fun r => pure (.int (result r.1 r.2)))
    (hroutine : ∀ data, routine data =
      lift ((Evaluation.twoInts name data).map fun r => .int (result r.1 r.2)))
    (hfits : ∀ x y, Value.fits x = true → Value.fits y = true → Value.fits (result x y) = true) :
    Follows p routine := by
  intro σ n args data host hargs _
  rw [hrun, hroutine]
  show Answers σ n host.heap (EStateM.bind _ _ host) _
  unfold EStateM.bind
  rcases twoInts_eq name hargs with ⟨x, y, hx, hy, hargs', hdata⟩ | ⟨e, he, hargs', hdata⟩
  · rw [hargs', hdata]
    exact .ok (.refl _) (.inr (.int (hfits x y hx hy)))
  · rw [hargs', hdata]
    exact .error he

/-! ## The standard primitives -/

/-- Writing a text goes well on both sides, or fails on both. -/
theorem answers_writeText (host : Host) (text : String) {next : EStateM Fault Host Value}
    {next' : EStateM Fault Sink Datum}
    (h : ∀ sink, Answers σ n host.heap (next { host with sink }) (next' sink)) :
    Answers σ n host.heap ((Standard.writeText text >>= fun _ => next) host)
      ((writeText text >>= fun _ => next') host.sink) := by
  obtain ⟨heap, sink, depth, count, name?⟩ := host
  show Answers σ n heap (EStateM.bind _ _ _) (EStateM.bind _ _ sink)
  unfold EStateM.bind Standard.writeText writeText
  dsimp only at h ⊢
  generalize sink.write text = written
  obtain ⟨fits, sink'⟩ := written
  cases fits with
  | true => exact h sink'
  | false => exact .error (h := ⟨heap, sink', depth, count, name?⟩) trivial

theorem follows_print : Follows ⟨"print", -1, Standard.print⟩ fun args => do
    writeText (" ".intercalate (args.map Datum.display))
    writeText "\n"
    return .nil := by
  intro σ n args data host hargs hname
  show Answers σ n host.heap ((Standard.writeLine (" ".intercalate (args.map host.legend.display))
    >>= fun _ => pure Value.nil) host) _
  rw [display_map hargs hname, Standard.writeLine, bind_assoc]
  refine answers_writeText host _ fun sink => ?_
  refine answers_writeText { host with sink } _ fun sink => ?_
  exact .ok (.refl _) (.inr .nil)

/-- A number is the payload that it is cut to. -/
theorem int_bmod (x : Int) :
    Value.int x = .int (Int.bmod x Value.payloads) ∧
      Value.fits (Int.bmod x Value.payloads) = true := by
  constructor
  · unfold Value.int
    rw [Int.bmod_emod]
  · rw [Value.fits_iff]
    have hle := @Int.le_bmod x Value.payloads (by decide)
    have hlt := @Int.bmod_lt x Value.payloads (by decide)
    simp only [Value.payloads] at hle hlt ⊢
    omega

/-- The length of a text, wrapped into the range of integers. -/
def lengthOf : Datum → Except Fault Datum
  | .text s => .ok (.int (Int.bmod s.length Value.payloads))
  | _ => .error (.badArgument (.notString "len"))

theorem follows_len : Follows ⟨"len", 1, Standard.len⟩ fun args => lift <|
    match args with
    | [.text s] => .ok (.int (Int.bmod s.length Value.payloads))
    | [_] => .error (.badArgument (.notString "len"))
    | _ => .error (.argumentCount "len" 1) := by
  refine follows_of_one "len" lengthOf (fun _ => rfl) ?_ ?_
  · intro data
    cases data with
    | nil => rfl
    | cons d rest =>
      cases rest with
      | nil => cases d <;> rfl
      | cons _ _ => cases d <;> rfl
  · intro σ n v d host hv _
    by_cases hkind : v.kind = .string
    · rw [if_neg (not_not.2 hkind)]
      dsimp only [bind, EStateM.bind, get, getThe, MonadStateOf.get, EStateM.get]
      cases hv with
      | @text i s hs =>
        obtain ⟨hint, hfits⟩ := int_bmod s.length
        simp only [Value.handle_string, hs]
        rw [hint]
        exact .ok (.refl _) (.inr (.int hfits))
      | bool b => cases b <;> simp at hkind
      | _ => simp at hkind
    · rw [if_pos hkind]
      rw [hv.kind_eq] at hkind
      cases d with
      | text s => exact absurd rfl hkind
      | _ => exact .error trivial

theorem follows_typeOf : Follows ⟨"typeof", 1, Standard.typeOf⟩ fun args => lift <|
    match args with
    | [d] => .ok (.text d.kind.typeName)
    | _ => .error (.argumentCount "typeof" 1) := by
  refine follows_of_one "typeof" (fun d => .ok (.text d.kind.typeName)) (fun _ => rfl)
    (fun _ => rfl) fun σ n v d host hv _ => ?_
  rw [hv.typeName_eq]
  exact answers_allocString _

theorem asBool?_eq {v : Value} {d : Datum} {heap : Heap} (hv : Stands σ n heap v d) :
    v.asBool? = some true ↔ d = .bool true := by
  rw [Value.asBool?, hv.kind_eq]
  cases d with
  | bool b => cases b <;> simp [Datum.kind]
  | _ => simp [Datum.kind]

/-- Nil where the datum is true. -/
def assertionOf : Datum → Except Fault Datum
  | .bool true => .ok .nil
  | _ => .error .assertionFailed

theorem follows_assert : Follows ⟨"assert", 1, Standard.assert⟩ fun args => lift <|
    match args with
    | [.bool true] => .ok .nil
    | [_] => .error .assertionFailed
    | _ => .error (.argumentCount "assert" 1) := by
  refine follows_of_one "assert" assertionOf (fun _ => rfl) ?_ ?_
  · intro data
    cases data with
    | nil => rfl
    | cons d rest =>
      cases rest with
      | nil =>
        cases d with
        | bool b => cases b <;> rfl
        | _ => rfl
      | cons _ _ =>
        cases d with
        | bool b => cases b <;> rfl
        | _ => rfl
  · intro σ n v d host hv _
    by_cases htrue : d = .bool true
    · rw [if_pos ((asBool?_eq hv).2 htrue), htrue]
      exact .ok (.refl _) (.inr .nil)
    · rw [if_neg fun h => htrue ((asBool?_eq hv).1 h)]
      cases d with
      | bool b =>
        cases b with
        | true => exact absurd rfl htrue
        | false => exact .error trivial
      | _ => exact .error trivial

theorem follows_toText : Follows ⟨"to_string", 1, Standard.toText⟩ fun args => lift <|
    match args with
    | [d] => .ok (.text d.display)
    | _ => .error (.argumentCount "to_string" 1) := by
  refine follows_of_one "to_string" (fun d => .ok (.text d.display)) (fun _ => rfl)
    (fun _ => rfl) fun σ n v d host hv hname => ?_
  by_cases hkind : v.kind = .string
  · rw [if_pos hkind]
    cases hv with
    | text hs => exact .ok (.refl _) (.inr (.text hs))
    | bool b => cases b <;> simp at hkind
    | _ => simp at hkind
  · rw [if_neg hkind]
    show Answers σ n host.heap (Standard.allocString (host.legend.display v) host) _
    rw [Host.legend, hname, hv.display_eq]
    exact answers_allocString _

/-- The absolute value of an integer. -/
def absoluteOf : Datum → Except Fault Datum
  | .int x => exact x.natAbs
  | d => .error (.badArgument (.notInt "abs" d.kind))

theorem follows_abs : Follows ⟨"abs", 1, Standard.abs⟩ fun args => lift <|
    match args with
    | [.int x] => exact x.natAbs
    | [d] => .error (.badArgument (.notInt "abs" d.kind))
    | _ => .error (.argumentCount "abs" 1) := by
  refine follows_of_one "abs" absoluteOf (fun _ => rfl) ?_ ?_
  · intro data
    cases data with
    | nil => rfl
    | cons d rest =>
      cases rest with
      | nil => cases d <;> rfl
      | cons _ _ => cases d <;> rfl
  · intro σ n v d host hv _
    rw [hv.asInt?_eq, hv.kind_eq]
    cases d with
    | int x =>
      unfold absoluteOf exact Value.int?
      by_cases hx : Value.fits x.natAbs = true
      · simp only [if_pos hx]
        exact .ok (.refl _) (.inr (.int hx))
      · simp only [if_neg hx]
        exact .error trivial
    | _ => exact .error trivial

/-- Every standard primitive follows its routine. -/
theorem follows_standard : List.Forall₂ Follows Standard.primitives routines := by
  refine .cons follows_print <| .cons follows_len <| .cons follows_typeOf <|
    .cons follows_assert <| .cons follows_toText <| .cons follows_abs <| .cons ?_ <| .cons ?_ .nil
  · exact follows_of_two (fun _ => rfl) (fun _ => rfl) fun _ _ => Value.fits_min
  · exact follows_of_two (fun _ => rfl) (fun _ => rfl) fun _ _ => Value.fits_max

end Simulation
end ScriptMachine
