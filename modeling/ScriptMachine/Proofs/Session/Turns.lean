import ScriptMachine.Session.Turn
import Mathlib.Tactic.SplitIfs

/-!
# From units to turns

A turn is made of pieces, and only the code among them changes what a session knows. So a relation
between two sessions that running code keeps is kept by whole turns, however files are nested, and
by any number of turns.
-/

namespace ScriptMachine.Session

/-! ## Pieces and turns -/

namespace TurnOutcome

mutual

/-- The outcomes of the single pieces of a turn. -/
def pieces : TurnOutcome → List TurnOutcome
  | .sequence parts => allPieces parts
  | o => [o]

/-- The outcomes of the single pieces of several turns. -/
def allPieces : List TurnOutcome → List TurnOutcome
  | [] => []
  | o :: rest => o.pieces ++ allPieces rest

end

theorem mem_allPieces {o : TurnOutcome} {parts : List TurnOutcome} :
    o ∈ allPieces parts ↔ ∃ part ∈ parts, o ∈ part.pieces := by
  induction parts with
  | nil => simp [allPieces]
  | cons part rest ih => simp [allPieces, ih]

end TurnOutcome

/-- Runs one turn after the other; the outcomes, and the session after the last of them. -/
def runTurns (s : Session) : List String → List TurnOutcome × Session
  | [] => ([], s)
  | text :: rest =>
    let (outcome, s) := s.runTurn text
    let (outcomes, s) := runTurns s rest
    (outcome :: outcomes, s)

theorem runTurns_cons (s : Session) (text : String) (rest : List String) :
    s.runTurns (text :: rest) =
      ((s.runTurn text).1 :: ((s.runTurn text).2.runTurns rest).1,
        ((s.runTurn text).2.runTurns rest).2) := rfl

/-- Running code in sessions related by `R` gives the same outcomes, all of them good, and related
sessions, provided that the second one is fine afterwards; and what is fine then was fine before. -/
structure Kept (R : Session → Session → Prop) (good : TurnOutcome → Prop)
    (fine : Session → Prop) : Prop where
  files : ∀ {s t}, R s t → s.files = t.files
  sections : ∀ {s t}, R s t → s.image.sections = t.image.sections
  libraries : ∀ {s t}, R s t → s.libraries = t.libraries
  withLibraries : ∀ {s t} l, R s t → R { s with libraries := l } { t with libraries := l }
  source : ∀ {s t} text, R s t → fine (t.runSource text).2 →
    (s.runSource text).1 = (t.runSource text).1 ∧
      (∀ o ∈ (t.runSource text).1.pieces, good o) ∧ R (s.runSource text).2 (t.runSource text).2
  fine_source : ∀ {t} text, fine (t.runSource text).2 → fine t
  fine_libraries : ∀ {t} l, fine { t with libraries := l } → fine t
  good_quit : good .quit
  good_directive : ∀ text, good (.directive text)
  good_refusal : ∀ message, good (refusal message)

/-- The same for any way to run pieces. -/
structure KeptBy (R : Session → Session → Prop) (good : TurnOutcome → Prop)
    (fine : Session → Prop) {α : Type} (run : Session → α → TurnOutcome × Session) : Prop where
  step : ∀ {s t} x, R s t → fine (run t x).2 →
    (run s x).1 = (run t x).1 ∧ (∀ o ∈ (run t x).1.pieces, good o) ∧ R (run s x).2 (run t x).2
  fine_before : ∀ {t} x, fine (run t x).2 → fine t

variable {R : Session → Session → Prop} {good : TurnOutcome → Prop} {fine : Session → Prop}
  {run : Session → Segment → TurnOutcome × Session}

theorem runPieces_cons (run : Session → Segment → TurnOutcome × Session) (s : Session)
    (done : List TurnOutcome) (piece : Segment) (rest : List Segment) :
    runPieces run s done (piece :: rest) =
      if !(run s piece).1.isSuccess || (run s piece).1.quits then
        (((run s piece).1 :: done).reverse, (run s piece).2)
      else runPieces run (run s piece).2 ((run s piece).1 :: done) rest := rfl

theorem fine_before_runPieces (h : KeptBy R good fine run) (pieces : List Segment) (t : Session)
    (done : List TurnOutcome) (hfine : fine (runPieces run t done pieces).2) : fine t := by
  induction pieces generalizing t done with
  | nil => exact hfine
  | cons piece rest ih =>
    rw [runPieces_cons] at hfine
    split_ifs at hfine
    · exact h.fine_before piece hfine
    · exact h.fine_before piece (ih _ _ hfine)

theorem kept_runPieces (h : KeptBy R good fine run) (pieces : List Segment) {s t : Session}
    (done : List TurnOutcome) (hst : R s t) (hfine : fine (runPieces run t done pieces).2)
    (hdone : ∀ part ∈ done, ∀ o ∈ part.pieces, good o) :
    (runPieces run s done pieces).1 = (runPieces run t done pieces).1 ∧
      (∀ part ∈ (runPieces run t done pieces).1, ∀ o ∈ part.pieces, good o) ∧
      R (runPieces run s done pieces).2 (runPieces run t done pieces).2 := by
  induction pieces generalizing s t done with
  | nil => exact ⟨rfl, fun part hpart => hdone part (List.mem_reverse.1 hpart), hst⟩
  | cons piece rest ih =>
    have hpiece : fine (run t piece).2 := by
      rw [runPieces_cons] at hfine
      split_ifs at hfine
      · exact hfine
      · exact fine_before_runPieces h _ _ _ hfine
    obtain ⟨heq, hgood, hnext⟩ := h.step piece hst hpiece
    have hdone' : ∀ part ∈ (run t piece).1 :: done, ∀ o ∈ part.pieces, good o := by
      rintro part hpart
      rcases List.mem_cons.1 hpart with rfl | hpart
      · exact hgood
      · exact hdone part hpart
    rw [runPieces_cons] at hfine ⊢
    rw [runPieces_cons, heq]
    split_ifs at hfine ⊢
    · exact ⟨rfl, fun part hpart => hdone' part (List.mem_reverse.1 hpart), hnext⟩
    · exact ih _ hnext hfine hdone'

theorem runSegments_eq (run : Session → Segment → TurnOutcome × Session) (s : Session)
    (source : List Char) :
    runSegments run s source =
      match segments source with
      | [piece] => run s piece
      | pieces => (.sequence (runPieces run s [] pieces).1, (runPieces run s [] pieces).2) := rfl

theorem kept_runSegments (h : KeptBy R good fine run) :
    KeptBy R good fine (runSegments run) := by
  constructor
  · intro s t source hst hfine
    rw [runSegments_eq] at hfine ⊢
    rw [runSegments_eq]
    split at hfine
    · exact h.step _ hst hfine
    · obtain ⟨heq, hgood, hnext⟩ := kept_runPieces h _ [] hst hfine (by simp)
      refine ⟨by rw [heq], ?_, hnext⟩
      intro o ho
      obtain ⟨part, hpart, ho⟩ := TurnOutcome.mem_allPieces.1 ho
      exact hgood part hpart o ho
  · intro t source hfine
    rw [runSegments_eq] at hfine
    split at hfine
    · exact h.fine_before _ hfine
    · exact fine_before_runPieces h _ _ _ hfine

theorem runPiece_code (room : Nat) (inUse : List Place) (s : Session) (source : List Char) :
    runPiece room inUse s (.code source) = s.runSource source := by
  cases room <;> rfl

/-- What using a file comes to before any of it is run: a refusal, or its place and its text. -/
def opening (files : Files) (inUse : List Place) (room : Nat) (file : String) :
    Except String (Place × String) :=
  match files.resolve file with
  | .error e => .error ("cannot read " ++ file ++ ": " ++ e.message)
  | .ok place =>
    if inUse.contains place then .error ("recursive #use of " ++ file)
    else
      match room with
      | 0 => .error ("recursive #use of " ++ file ++ s!": more than {maxOpenFiles} nested files")
      | _ + 1 =>
        match files.read place with
        | .error e => .error ("cannot read " ++ file ++ ": " ++ e.message)
        | .ok content => .ok (place, content)

theorem room_of_opening {files : Files} {inUse : List Place} {room : Nat} {file : String}
    {x : Place × String} (h : opening files inUse room file = .ok x) : ∃ rest, room = rest + 1 := by
  cases room with
  | succ rest => exact ⟨rest, rfl⟩
  | zero =>
    unfold opening at h
    split at h
    · cases h
    · split_ifs at h

/-- A directive other than one that uses a file. -/
def runPlain (s : Session) : Directive → TurnOutcome × Session
  | .sections => (.directive s.image.sections, s)
  | .libs => (.directive s!"libraries: {s.libraries.current.length} loaded", s)
  | .native library symbol => s.lookUpNative library symbol
  | _ => (.quit, s)

/-- What running a directive comes to. -/
theorem runPiece_directive (room : Nat) (inUse : List Place) (s : Session) (line : List Char) :
    runPiece room inUse s (.directive line) =
      match Directive.parse line with
      | .error e => (refusal e.message, s)
      | .ok (.use file) =>
        match opening s.files inUse room file with
        | .error message => (refusal message, s)
        | .ok (place, content) =>
          runSegments (runPiece (room - 1) (place :: inUse)) s content.toList
      | .ok d => s.runPlain d := by
  unfold runPiece
  cases Directive.parse line with
  | error e => rfl
  | ok d =>
    cases d with
    | use file =>
      unfold opening
      simp only
      cases s.files.resolve file with
      | error e => rfl
      | ok place =>
        simp only
        split_ifs
        · rfl
        · cases room with
          | zero => rfl
          | succ room =>
            simp only
            cases s.files.read place with
            | error e => rfl
            | ok content => rfl
    | _ => rfl

theorem kept_runPlain (h : Kept R good fine) : KeptBy R good fine runPlain := by
  constructor
  · intro s t d hst _
    cases d with
    | sections =>
      refine ⟨by simp only [runPlain, h.sections hst], ?_, hst⟩
      exact fun o ho => List.mem_singleton.1 ho ▸ h.good_directive _
    | libs =>
      refine ⟨by simp only [runPlain, h.libraries hst], ?_, hst⟩
      exact fun o ho => List.mem_singleton.1 ho ▸ h.good_directive _
    | native library symbol =>
      simp only [runPlain, lookUpNative, h.libraries hst, true_and]
      exact ⟨fun o ho => List.mem_singleton.1 ho ▸ h.good_directive _, h.withLibraries _ hst⟩
    | _ => exact ⟨rfl, fun o ho => List.mem_singleton.1 ho ▸ h.good_quit, hst⟩
  · intro t d hfine
    cases d with
    | native library symbol => exact h.fine_libraries _ hfine
    | _ => exact hfine

/-- What running code keeps, running a piece keeps, whatever files it uses. -/
theorem kept_runPiece (h : Kept R good fine) (room : Nat) (inUse : List Place) :
    KeptBy R good fine (runPiece room inUse) := by
  induction room using Nat.strongRecOn generalizing inUse with
  | ind room ih =>
    have hfile : ∀ {files file place content},
        opening files inUse room file = .ok (place, content) →
        KeptBy R good fine (runSegments (runPiece (room - 1) (place :: inUse))) := by
      intro files file place content hopen
      obtain ⟨rest, rfl⟩ := room_of_opening hopen
      exact kept_runSegments (ih rest (Nat.lt_succ_self _) _)
    constructor
    · intro s t piece hst hfine
      cases piece with
      | code source =>
        rw [runPiece_code] at hfine ⊢
        rw [runPiece_code]
        exact h.source source hst hfine
      | directive line =>
        rw [runPiece_directive] at hfine ⊢
        rw [runPiece_directive, h.files hst]
        split at hfine
        · exact ⟨rfl, fun o ho => List.mem_singleton.1 ho ▸ h.good_refusal _, hst⟩
        · split at hfine
          · exact ⟨rfl, fun o ho => List.mem_singleton.1 ho ▸ h.good_refusal _, hst⟩
          · next hopen => exact (hfile hopen).step _ hst hfine
        · exact (kept_runPlain h).step _ hst hfine
    · intro t piece hfine
      cases piece with
      | code source =>
        rw [runPiece_code] at hfine
        exact h.fine_source source hfine
      | directive line =>
        rw [runPiece_directive] at hfine
        split at hfine
        · exact hfine
        · split at hfine
          · exact hfine
          · next hopen => exact (hfile hopen).fine_before _ hfine
        · exact (kept_runPlain h).fine_before _ hfine

theorem kept_runTurn (h : Kept R good fine) : KeptBy R good fine runTurn := by
  have hturn := kept_runSegments (kept_runPiece h maxOpenFiles [])
  exact ⟨fun text => hturn.step text.toList, fun text => hturn.fine_before text.toList⟩

theorem fine_before_runTurns (h : Kept R good fine) (texts : List String) {t : Session}
    (hfine : fine (t.runTurns texts).2) : fine t := by
  induction texts generalizing t with
  | nil => exact hfine
  | cons text rest ih => exact (kept_runTurn h).fine_before text (ih hfine)

/-- What running code keeps, any number of turns keeps. -/
theorem kept_runTurns (h : Kept R good fine) (texts : List String) {s t : Session} (hst : R s t)
    (hfine : fine (t.runTurns texts).2) :
    (s.runTurns texts).1 = (t.runTurns texts).1 ∧
      (∀ o ∈ TurnOutcome.allPieces (t.runTurns texts).1, good o) ∧
      R (s.runTurns texts).2 (t.runTurns texts).2 := by
  induction texts generalizing s t with
  | nil => exact ⟨rfl, by simp [runTurns, TurnOutcome.allPieces], hst⟩
  | cons text rest ih =>
    rw [runTurns_cons] at hfine ⊢
    rw [runTurns_cons]
    obtain ⟨heq, hgood, hnext⟩ :=
      (kept_runTurn h).step text hst (fine_before_runTurns h rest hfine)
    obtain ⟨heqs, hgoods, hlast⟩ := ih hnext hfine
    refine ⟨by rw [heq, heqs], ?_, hlast⟩
    intro o ho
    rcases List.mem_append.1 ho with ho | ho
    · exact hgood o ho
    · exact hgoods o ho

end ScriptMachine.Session
