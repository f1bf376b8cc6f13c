import ScriptMachine.Proofs.Session.Soundness
import Mathlib.Logic.Function.Iterate

/-!
# Files that use files

A turn is run here one action at a time, with the places of the files in use on a stack, as a loop
would do it: a place is pushed when its file is opened, and taken off when the text of the file has
come to an outcome. Whatever files use one another, the loop ends with what the turn comes to and with
the stack as it was; up to then no file is open twice, nor are too many open. What the turn comes to
ends with its first piece that fails or quits.
-/

namespace ScriptMachine.Session

open Bytecode Compile Link

/-! ## Outcomes -/

namespace TurnOutcome

/-- An outcome has these single pieces, and what it says of itself it says for the last of them: the
others succeeded and did not end the session. -/
structure StopsAt (o : TurnOutcome) (before : List TurnOutcome) (last : TurnOutcome) : Prop where
  pieces_eq : o.pieces = before ++ [last]
  passed : ∀ x ∈ before, x.isSuccess = true ∧ x ≠ .quit
  isSuccess_eq : o.isSuccess = last.isSuccess
  failure?_eq : o.failure? = if last.isSuccess then none else some last
  quits_iff : o.quits = true ↔ last = .quit

/-- An outcome of pieces that all succeeded and did not end the session. -/
structure Passed (o : TurnOutcome) : Prop where
  isSuccess : o.isSuccess = true
  failure?_eq : o.failure? = none
  pieces : ∀ x ∈ o.pieces, x.isSuccess = true ∧ x ≠ .quit

variable {o last : TurnOutcome} {before parts : List TurnOutcome}

/-- A single piece stops at itself. -/
theorem StopsAt.single (h : ∀ parts, o ≠ .sequence parts) : o.StopsAt [] o := by
  cases o with
  | sequence parts => exact absurd rfl (h parts)
  | _ => exact ⟨rfl, by simp, rfl, rfl, by simp [quits]⟩

/-- An outcome after which a turn goes on has passed. -/
theorem StopsAt.toPassed (h : o.StopsAt before last) (hgo : (!o.isSuccess || o.quits) = false) :
    o.Passed := by
  simp only [Bool.or_eq_false_iff, Bool.not_eq_false'] at hgo
  have hlast : last.isSuccess = true := h.isSuccess_eq ▸ hgo.1
  have hquit : last ≠ .quit := fun hquit => Bool.eq_false_iff.1 hgo.2 (h.quits_iff.2 hquit)
  refine ⟨hgo.1, by rw [h.failure?_eq, if_pos hlast], fun x hx => ?_⟩
  rw [h.pieces_eq] at hx
  rcases List.mem_append.1 hx with hx | hx
  · exact h.passed x hx
  · exact List.mem_singleton.1 hx ▸ ⟨hlast, hquit⟩

theorem allPieces_append (parts more : List TurnOutcome) :
    allPieces (parts ++ more) = allPieces parts ++ allPieces more := by
  induction parts with
  | nil => rfl
  | cons p parts ih => rw [List.cons_append, allPieces, ih, allPieces, List.append_assoc]

theorem lastQuits_concat (parts : List TurnOutcome) (o : TurnOutcome) :
    lastQuits (parts ++ [o]) = o.quits := by
  induction parts with
  | nil => rfl
  | cons p parts ih =>
    rw [List.cons_append, lastQuits, ih]
    simp

theorem allSucceed_concat (h : ∀ p ∈ parts, p.Passed) (o : TurnOutcome) :
    allSucceed (parts ++ [o]) = o.isSuccess := by
  induction parts with
  | nil => simp [allSucceed]
  | cons p parts ih =>
    obtain ⟨hp, hparts⟩ := List.forall_mem_cons.1 h
    rw [List.cons_append, allSucceed, hp.isSuccess, ih hparts, Bool.true_and]

theorem firstFailure?_concat (h : ∀ p ∈ parts, p.Passed) (o : TurnOutcome) :
    firstFailure? (parts ++ [o]) = o.failure? := by
  induction parts with
  | nil =>
    rw [List.nil_append, firstFailure?]
    cases o.failure? <;> rfl
  | cons p parts ih =>
    obtain ⟨hp, hparts⟩ := List.forall_mem_cons.1 h
    rw [List.cons_append, firstFailure?, hp.failure?_eq, ih hparts]

/-- Where its other parts have passed, a sequence stops where its last part does. -/
theorem StopsAt.sequence (hparts : ∀ p ∈ parts, p.Passed) (h : o.StopsAt before last) :
    (TurnOutcome.sequence (parts ++ [o])).StopsAt (allPieces parts ++ before) last where
  pieces_eq := by
    rw [TurnOutcome.pieces, allPieces_append, List.append_assoc, ← h.pieces_eq]
    simp [allPieces]
  passed := by
    intro x hx
    rcases List.mem_append.1 hx with hx | hx
    · obtain ⟨p, hp, hx⟩ := mem_allPieces.1 hx
      exact (hparts p hp).pieces x hx
    · exact h.passed x hx
  isSuccess_eq := (allSucceed_concat hparts o).trans h.isSuccess_eq
  failure?_eq := (firstFailure?_concat hparts o).trans h.failure?_eq
  quits_iff := by
    rw [quits, lastQuits_concat]
    exact h.quits_iff

end TurnOutcome

open TurnOutcome

theorem finish_ne_sequence (s : Session) (u : FragmentUnit) (r : RunResult × Image × Sink)
    (parts : List TurnOutcome) : (finish s u r).1 ≠ .sequence parts := by
  obtain ⟨result, image, sink⟩ := r
  cases result with
  | faulted e => simp [finish]
  | unfinished => simp [finish]
  | finished o =>
    simp only [finish, commit_eq]
    cases o.commit image <;> simp

/-- Code is a single piece. -/
theorem stopsAt_runSource (s : Session) (source : List Char) :
    (s.runSource source).1.StopsAt [] (s.runSource source).1 := by
  refine .single fun parts => ?_
  unfold runSource
  split
  · simp
  · rw [runUnit_eq]
    split
    · simp
    · exact finish_ne_sequence _ _ _ parts

theorem stopsAt_runPlain (s : Session) (d : Directive) :
    (s.runPlain d).1.StopsAt [] (s.runPlain d).1 := by
  refine .single fun parts => ?_
  cases d <;> simp [runPlain, lookUpNative]

section

variable {run : Session → Segment → TurnOutcome × Session}

/-- Pieces that are run in turn stop where the first of them does that the turn does not go on after. -/
theorem stopsAt_runPieces (hrun : ∀ s piece, ∃ before last, (run s piece).1.StopsAt before last)
    (piece : Segment) (rest : List Segment) (s : Session) {done : List TurnOutcome}
    (hdone : ∀ p ∈ done, p.Passed) :
    ∃ before last,
      (TurnOutcome.sequence (runPieces run s done (piece :: rest)).1).StopsAt before last := by
  have hpassed : ∀ p ∈ done.reverse, p.Passed := fun p hp => hdone p (List.mem_reverse.1 hp)
  induction rest generalizing piece s done with
  | nil =>
    obtain ⟨before, last, hstops⟩ := hrun s piece
    have hpieces : (runPieces run s done [piece]).1 = done.reverse ++ [(run s piece).1] := by
      rw [runPieces_cons]
      split <;> simp [runPieces]
    rw [hpieces]
    exact ⟨_, last, hstops.sequence hpassed⟩
  | cons next rest ih =>
    obtain ⟨before, last, hstops⟩ := hrun s piece
    rw [runPieces_cons]
    split
    · rw [List.reverse_cons]
      exact ⟨_, last, hstops.sequence hpassed⟩
    · next hgo =>
      have hnext := List.forall_mem_cons.2 ⟨hstops.toPassed (by simpa using hgo), hdone⟩
      exact ih next _ hnext fun p hp => hnext p (List.mem_reverse.1 hp)

theorem segments_ne_nil (source : List Char) : segments source ≠ [] := by
  unfold segments
  split
  · simp
  · next hsome => exact hsome

theorem stopsAt_runSegments (hrun : ∀ s piece, ∃ before last, (run s piece).1.StopsAt before last)
    (s : Session) (source : List Char) :
    ∃ before last, (runSegments run s source).1.StopsAt before last := by
  rw [runSegments_eq]
  split
  · exact hrun s _
  · next pieces hpieces =>
    cases hsource : segments source with
    | nil => exact absurd hsource (segments_ne_nil source)
    | cons piece rest => exact stopsAt_runPieces hrun piece rest s (by simp)

end

/-- A turn stops at its first piece that fails or quits, however files are nested. -/
theorem stopsAt_runPiece (room : Nat) (inUse : List Place) (s : Session) (piece : Segment) :
    ∃ before last, (runPiece room inUse s piece).1.StopsAt before last := by
  induction room using Nat.strongRecOn generalizing inUse s piece with
  | ind room ih =>
    cases piece with
    | code source =>
      rw [runPiece_code]
      exact ⟨[], _, stopsAt_runSource s source⟩
    | directive line =>
      rw [runPiece_directive]
      split
      · exact ⟨[], _, .single (by simp [refusal])⟩
      · split
        · exact ⟨[], _, .single (by simp [refusal])⟩
        · next hopen =>
          obtain ⟨rest, rfl⟩ := room_of_opening hopen
          exact stopsAt_runSegments (ih rest (Nat.lt_succ_self _) _) s _
      · exact ⟨[], _, stopsAt_runPlain s _⟩

/-! ## Turns under way -/

/-- What a turn that is under way comes back to: the other pieces of a text, with the outcomes of
those before them in reverse, or the end of a file in use. -/
inductive Waiting
  | pieces (done : List TurnOutcome) (ahead : List Segment)
  | file

/-- What a turn that is under way looks at: a piece that is to be run, or what one came to. -/
inductive Focus
  | piece (piece : Segment)
  | outcome (outcome : TurnOutcome)

/-- A turn under way: the session, the places of the files in use, innermost first, what is waiting,
and what is looked at. -/
structure Underway where
  session : Session
  inUse : List Place
  waiting : List Waiting
  focus : Focus

namespace Underway

/-- Goes on to a text; a single piece needs no sequence. -/
def enter (s : Session) (inUse : List Place) (waiting : List Waiting) (source : List Char) :
    Underway :=
  match segments source with
  | [piece] => ⟨s, inUse, waiting, .piece piece⟩
  | [] => ⟨s, inUse, waiting, .outcome (.sequence [])⟩
  | piece :: rest => ⟨s, inUse, .pieces [] rest :: waiting, .piece piece⟩

/-- Goes on with an outcome. -/
def comeTo (t : Underway) (result : TurnOutcome × Session) : Underway :=
  { t with session := result.2, focus := .outcome result.1 }

/-- Uses a file: its place is pushed and its text is gone on to, unless it is refused. -/
def use (t : Underway) (file : String) : Underway :=
  match opening t.session.files t.inUse (maxOpenFiles - t.inUse.length) file with
  | .error message => t.comeTo (refusal message, t.session)
  | .ok (place, content) =>
    enter t.session (place :: t.inUse) (.file :: t.waiting) content.toList

/-- The outcomes of a text so far, or its next piece. -/
def resume (t : Underway) (done : List TurnOutcome) : (ahead : List Segment) → Underway
  | [] => { t with focus := .outcome (.sequence done.reverse) }
  | piece :: rest => { t with waiting := .pieces done rest :: t.waiting, focus := .piece piece }

/-- One action. A turn that waits for nothing stays at its outcome. -/
def step (t : Underway) : Underway :=
  match t.focus with
  | .piece (.code source) => t.comeTo (t.session.runSource source)
  | .piece (.directive line) =>
    match Directive.parse line with
    | .error e => t.comeTo (refusal e.message, t.session)
    | .ok (.use file) => t.use file
    | .ok d => t.comeTo (t.session.runPlain d)
  | .outcome o =>
    match t.waiting with
    | [] => t
    | .file :: waiting => { t with inUse := t.inUse.tail, waiting }
    | .pieces done ahead :: waiting =>
      { t with waiting }.resume (o :: done) (if !o.isSuccess || o.quits then [] else ahead)

/-- Some number of actions lead from one to the other. -/
def Reaches (t u : Underway) : Prop :=
  ∃ n, step^[n] t = u

theorem Reaches.refl (t : Underway) : t.Reaches t :=
  ⟨0, rfl⟩

theorem Reaches.trans {t u v : Underway} (h : t.Reaches u) (hu : u.Reaches v) : t.Reaches v := by
  obtain ⟨m, rfl⟩ := h
  obtain ⟨n, rfl⟩ := hu
  exact ⟨n + m, Function.iterate_add_apply step n m t⟩

theorem Reaches.head {t u : Underway} (h : t.step.Reaches u) : t.Reaches u := by
  obtain ⟨n, rfl⟩ := h
  exact ⟨n + 1, rfl⟩

end Underway

/-! ## Where a turn ends -/

/-- While these files are in use, the actions on a piece come to what running it comes to, and leave
the files in use as they were. -/
def Performs (inUse : List Place) (run : Session → Segment → TurnOutcome × Session) : Prop :=
  ∀ s waiting piece, Underway.Reaches ⟨s, inUse, waiting, .piece piece⟩
    ⟨(run s piece).2, inUse, waiting, .outcome (run s piece).1⟩

section

variable {inUse : List Place} {run : Session → Segment → TurnOutcome × Session}

theorem Performs.runPieces (h : Performs inUse run) (piece : Segment) (rest : List Segment)
    (s : Session) (waiting : List Waiting) (done : List TurnOutcome) :
    Underway.Reaches ⟨s, inUse, .pieces done rest :: waiting, .piece piece⟩
      ⟨(runPieces run s done (piece :: rest)).2, inUse, waiting,
        .outcome (.sequence (runPieces run s done (piece :: rest)).1)⟩ := by
  induction rest generalizing piece s done with
  | nil =>
    refine (h s _ piece).trans (.head ?_)
    rw [runPieces_cons]
    simp only [Underway.step, ite_self, Underway.resume]
    split <;> exact .refl _
  | cons next rest ih =>
    refine (h s _ piece).trans (.head ?_)
    rw [runPieces_cons]
    simp only [Underway.step]
    split
    · exact .refl _
    · exact ih next _ _

theorem Performs.runSegments (h : Performs inUse run) (s : Session) (waiting : List Waiting)
    (source : List Char) :
    (Underway.enter s inUse waiting source).Reaches
      ⟨(runSegments run s source).2, inUse, waiting, .outcome (runSegments run s source).1⟩ := by
  unfold Underway.enter
  rw [runSegments_eq]
  cases hsource : segments source with
  | nil => exact absurd hsource (segments_ne_nil source)
  | cons piece rest =>
    cases rest with
    | nil => exact h s waiting piece
    | cons next rest => exact h.runPieces piece (next :: rest) s waiting []

end

/-- What running a piece comes to is reached by single actions, and the stack is then as it was. -/
theorem performs_runPiece {room : Nat} {inUse : List Place}
    (hroom : room = maxOpenFiles - inUse.length) : Performs inUse (runPiece room inUse) := by
  induction room using Nat.strongRecOn generalizing inUse with
  | ind room ih =>
    intro s waiting piece
    refine .head ?_
    cases piece with
    | code source =>
      rw [runPiece_code]
      exact .refl _
    | directive line =>
      rw [runPiece_directive]
      simp only [Underway.step]
      cases Directive.parse line with
      | error e => exact .refl _
      | ok d =>
        cases d with
        | use file =>
          simp only [Underway.use, ← hroom]
          cases hopen : opening s.files inUse room file with
          | error message => exact .refl _
          | ok opened =>
            obtain ⟨place, content⟩ := opened
            obtain ⟨rest, rfl⟩ := room_of_opening hopen
            have hrest : rest = maxOpenFiles - (place :: inUse).length := by
              rw [List.length_cons]
              omega
            have hfile := ih rest (Nat.lt_succ_self _) hrest
            exact (hfile.runSegments s (.file :: waiting) content.toList).trans (.head (.refl _))
        | _ => exact .refl _

/-! ## The files in use -/

/-- Whether the end of a file is waited for. -/
def Waiting.isFile : Waiting → Bool
  | .file => true
  | .pieces _ _ => false

theorem countP_file (waiting : List Waiting) :
    (.file :: waiting).countP Waiting.isFile = waiting.countP Waiting.isFile + 1 :=
  List.countP_cons_of_pos rfl

/-- The stack of a turn that was begun with these files in use: for each end of a file that is
waited for, a file is in use on top of them; none is in use twice, and there are not too many. -/
structure Underway.Within (entry : List Place) (t : Underway) : Prop where
  stack : ∃ opened, t.inUse = opened ++ entry ∧ opened.length = t.waiting.countP Waiting.isFile
  nodup : t.inUse.Nodup
  length_le : t.inUse.length ≤ maxOpenFiles

/-- A file is opened only if it is not in use, and if there is room for one more. -/
theorem notMem_of_opening {files : Files} {inUse : List Place} {room : Nat} {file content : String}
    {place : Place} (h : opening files inUse room file = .ok (place, content)) : place ∉ inUse := by
  unfold opening at h
  split at h
  · cases h
  · next found _ =>
    split_ifs at h with hused
    split at h
    · cases h
    · split at h
      · cases h
      · cases h
        simpa using hused

namespace Underway.Within

variable {entry : List Place} {t : Underway}

/-- The stack stays as it is when nothing else is waited for. -/
theorem of_eq {u : Underway} (h : t.Within entry) (hinUse : u.inUse = t.inUse)
    (hwaiting : u.waiting.countP Waiting.isFile = t.waiting.countP Waiting.isFile) :
    u.Within entry where
  stack := by
    rw [hinUse, hwaiting]
    exact h.stack
  nodup := hinUse ▸ h.nodup
  length_le := hinUse ▸ h.length_le

theorem enter {s : Session} {inUse : List Place} {waiting : List Waiting} {focus : Focus}
    (h : Within entry ⟨s, inUse, waiting, focus⟩) (source : List Char) :
    (Underway.enter s inUse waiting source).Within entry := by
  unfold Underway.enter
  split
  · exact h.of_eq rfl rfl
  · exact h.of_eq rfl rfl
  · exact h.of_eq rfl rfl

theorem resume (h : t.Within entry) (done : List TurnOutcome) (ahead : List Segment) :
    (t.resume done ahead).Within entry := by
  cases ahead with
  | nil => exact h.of_eq rfl rfl
  | cons piece rest => exact h.of_eq rfl rfl

/-- Opening a file pushes it, and one more end of a file is waited for. -/
theorem use (h : t.Within entry) (file : String) : (t.use file).Within entry := by
  unfold Underway.use
  split
  · exact h.of_eq rfl rfl
  · next place content hopen =>
    obtain ⟨rest, hroom⟩ := room_of_opening hopen
    obtain ⟨opened, hinUse, hopened⟩ := h.stack
    have hpushed : Within entry
        ⟨t.session, place :: t.inUse, .file :: t.waiting, t.focus⟩ :=
      { stack := ⟨place :: opened, by rw [hinUse]; rfl, by simp [countP_file, hopened]⟩
        nodup := List.nodup_cons.2 ⟨notMem_of_opening hopen, h.nodup⟩
        length_le := by
          simp only [List.length_cons]
          omega }
    exact hpushed.enter content.toList

/-- At the end of a file its place is taken off, and those below are left. -/
theorem pop {s : Session} {inUse : List Place} {waiting : List Waiting} {focus : Focus}
    (h : Within entry ⟨s, inUse, .file :: waiting, focus⟩) :
    Within entry ⟨s, inUse.tail, waiting, focus⟩ := by
  obtain ⟨opened, hinUse, hopened⟩ := h.stack
  cases opened with
  | nil => simp [countP_file] at hopened
  | cons place opened =>
    refine ⟨⟨opened, ?_, ?_⟩, h.nodup.tail, ?_⟩
    · exact congrArg List.tail hinUse
    · simpa [countP_file] using hopened
    · exact (List.tail_sublist _).length_le.trans h.length_le

/-- No action breaks the rules of the stack. -/
theorem step (h : t.Within entry) : t.step.Within entry := by
  obtain ⟨s, inUse, waiting, focus⟩ := t
  cases focus with
  | piece piece =>
    cases piece with
    | code source => exact h.of_eq rfl rfl
    | directive line =>
      simp only [Underway.step]
      split
      · exact h.of_eq rfl rfl
      · exact h.use _
      · exact h.of_eq rfl rfl
  | outcome o =>
    cases waiting with
    | nil => exact h
    | cons w waiting =>
      cases w with
      | file => exact h.pop
      | pieces done ahead =>
        have hpopped : Within entry ⟨s, inUse, waiting, .outcome o⟩ := h.of_eq rfl rfl
        exact hpopped.resume _ _

theorem reaches {u : Underway} (h : t.Within entry) (hreaches : t.Reaches u) : u.Within entry := by
  obtain ⟨n, rfl⟩ := hreaches
  induction n generalizing t with
  | zero => exact h
  | succ n ih => exact ih h.step

end Underway.Within

/-! ## Turns while files are in use -/

/-- Runs a fragment while files are in use. -/
def turnWithin (s : Session) (inUse : List Place) (source : String) : TurnOutcome × Session :=
  runSegments (runPiece (maxOpenFiles - inUse.length) inUse) s source.toList

theorem turnWithin_nil (s : Session) (source : String) :
    s.turnWithin [] source = s.runTurn source := rfl

theorem stopsAt_turnWithin (s : Session) (inUse : List Place) (source : String) :
    ∃ before last, (s.turnWithin inUse source).1.StopsAt before last :=
  stopsAt_runSegments (stopsAt_runPiece _ inUse) s source.toList

/-- However files use one another, a turn comes to an end with the stack of files in use as it was;
until then no file is in use twice, and no more files are than the limit allows. It stops at its first
piece that fails or quits, and this piece says whether and how it failed, and whether it ends the
session. -/
theorem nested_files_balanced (s : Session) {inUse : List Place} (hnodup : inUse.Nodup)
    (hlength : inUse.length ≤ maxOpenFiles) (source : String) :
    (Underway.enter s inUse [] source.toList).Reaches
        ⟨(s.turnWithin inUse source).2, inUse, [], .outcome (s.turnWithin inUse source).1⟩ ∧
      (∀ t, (Underway.enter s inUse [] source.toList).Reaches t →
        t.inUse.Nodup ∧ t.inUse.length ≤ maxOpenFiles ∧ inUse <:+ t.inUse) ∧
      ∃ before last, (s.turnWithin inUse source).1.pieces = before ++ [last] ∧
        (∀ x ∈ before, x.isSuccess = true ∧ x ≠ .quit) ∧
        ((s.turnWithin inUse source).1.isSuccess = false ↔
          (s.turnWithin inUse source).1.failure?.isSome) ∧
        (∀ f, (s.turnWithin inUse source).1.failure? = some f → f = last) ∧
        ((s.turnWithin inUse source).1.quits = true ↔ last = .quit) := by
  have hentry : Underway.Within inUse ⟨s, inUse, [], .outcome .quit⟩ :=
    ⟨⟨[], rfl, rfl⟩, hnodup, hlength⟩
  refine ⟨(performs_runPiece rfl).runSegments s [] source.toList, fun t ht => ?_, ?_⟩
  · have hwithin := (hentry.enter source.toList).reaches ht
    obtain ⟨opened, hinUse, -⟩ := hwithin.stack
    exact ⟨hwithin.nodup, hwithin.length_le, opened, hinUse.symm⟩
  · obtain ⟨before, last, hstops⟩ := s.stopsAt_turnWithin inUse source
    refine ⟨before, last, hstops.pieces_eq, hstops.passed, ?_, fun f hf => ?_, hstops.quits_iff⟩
    · rw [hstops.isSuccess_eq, hstops.failure?_eq]
      cases last.isSuccess <;> simp
    · rw [hstops.failure?_eq] at hf
      split at hf
      · cases hf
      · exact (Option.some.inj hf).symm

/-- Two files, each of which uses the other. -/
def mutualFiles : Files where
  resolve path := if path = "a" || path = "b" then .ok [path] else .error .notFound
  read place := .ok (if place = ["a"] then "#libs\n#use b\n#quit" else "#use \"a\"")

/-- A session that sees these files. -/
def mutualSession : Session :=
  .new standardCompiler mutualFiles ⟨some 100, 0⟩

/-- The turn is stopped where the first file would be opened again: nothing after that is run. -/
theorem mutual_files_balanced :
    ([] : List Place).Nodup ∧ ([] : List Place).length ≤ maxOpenFiles ∧
      (mutualSession.runTurn "#use b\n1").1.report false =
        "libraries: 0 loaded\nError: recursive #use of b\n" ∧
      (mutualSession.runTurn "#use b\n1").1.failure?.isSome ∧
      (mutualSession.runTurn "#use b\n1").1.quits = false ∧
      ∃ s outcome, (Underway.enter mutualSession [] [] "#use b\n1".toList).Reaches
        ⟨s, [], [], .outcome outcome⟩ := by
  obtain ⟨hends, -, before, last, -, -, hfailure, -, -⟩ :=
    nested_files_balanced mutualSession List.nodup_nil (by decide) "#use b\n1"
  rw [turnWithin_nil] at hends hfailure
  exact ⟨List.nodup_nil, by decide, by decide +kernel, hfailure.1 (by decide +kernel),
    by decide +kernel, _, _, hends⟩

end ScriptMachine.Session
