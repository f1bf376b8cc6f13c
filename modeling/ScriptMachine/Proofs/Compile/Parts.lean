import ScriptMachine.Proofs.Compile.Levels
import ScriptMachine.Proofs.Compile.TwinCode

/-!
# Fragments in parts

Statements that are compiled by themselves become the same code as they do among others. Their functions
are a stretch of those of the longer fragment, and the code of the statements is a stretch of its main
body.
-/

namespace ScriptMachine.Compile

open Source Bytecode Evaluation

/-- Statements lead to the names that they define one after another. -/
theorem after_of_topAt {C : Coding} {made : Nat → Closure → Prop} {after names : Names}
    {stmts : List Stmt} {i j : Nat} (h : TopAt C made after names stmts i j) :
    after = stmts.foldl namesAfter names := by
  induction h with
  | nil => rfl
  | expr _ _ ih => exact ih
  | bind _ _ _ _ _ ih => exact ih
  | func _ _ _ _ _ _ _ ih => exact ih
  | @plain names stmt _ _ _ _ hplain _ _ ih =>
    rw [List.foldl_cons, (declared_plain names hplain).2]
    exact ih

/-- The program `part` is that of statements that `whole` has as well. Its functions are those of `whole`
from `offset` on, and the code of the statements, which ends before `stop`, stands `shift` places further
on in the main body of `whole`. -/
structure Part (part whole : Program) (stmts : List Stmt) (offset shift stop : Nat) : Prop where
  functions : ∀ (i : Nat) (p : Prototype), part.prototypes[i]? = some p →
    ∃ q f, whole.prototypes[offset + i]? = some q ∧ q.slots = p.slots ∧
      FunctionAt part.strings p f ∧ FunctionAt whole.strings q f
  slots : part.main.slots.toNat ≤ whole.main.slots.toNat
  room : 0 < part.main.slots.toNat
  start : part.main.code[0]? = some (.abx .loadNil resultReg 0)
  last : part.main.code[stop]? = some (.abc .ret resultReg 0 0)
  flow : ∀ constants : Nat → Nat → Prop,
    (∀ k k', OneDatum part.strings whole.strings part.main whole.main k k' → constants k k') →
    (∀ k k' i i', part.main.constants[k]? = some (.fn i) → whole.main.constants[k']? = some (.fn i') →
      i'.toNat = offset + i.toNat → constants k k') →
    (twins part.main whole.main shift constants False).Flow 1 stop (fun _ => False)
      (resulting stmts fun _ => False)

theorem Part.one_le_stop {part whole : Program} {stmts : List Stmt} {offset shift stop : Nat}
    (h : Part part whole stmts offset shift stop) : 1 ≤ stop :=
  (h.flow (fun _ _ => True) (fun _ _ _ => trivial) fun _ _ _ _ _ _ _ => trivial).1

/-- Where `xs` is a stretch of distinct `ys`, places of one element match. -/
theorem index_of_stretch {α : Type} {xs ys before after : List α} (hys : ys = before ++ xs ++ after)
    (hdistinct : ys.Nodup) {i i' : Nat} {x : α} (hi : xs[i]? = some x) (hi' : ys[i']? = some x) :
    i' = before.length + i := by
  have hlt : i < xs.length := (List.getElem?_eq_some_iff.1 hi).1
  have hhere : ys[before.length + i]? = some x := by
    rw [hys, List.append_assoc, List.getElem?_append_right (Nat.le_add_right _ _),
      Nat.add_sub_cancel_left, List.getElem?_append_left hlt, hi]
  exact (List.getElem?_inj (List.getElem?_eq_some_iff.1 hi').1 hdistinct).1 (hi'.trans hhere.symm)

section

variable {names names' : Names} {f p q : Fragment} {c c' whole : Compiled}

/-- Statements that two fragments have, of which the first has no others, make its program a part of
the second one's. -/
theorem part_of_laid {before after : List Closure} {after' : Names} {shift i j : Nat}
    (hc : c.Laid names' p (declared names' p)) (hwhole : whole.Laid names f (declared names f))
    (hdeclared : declared names f = before ++ declared names' p ++ after)
    (hstrings : c.program.strings.size ≤ 2 ^ 32) (hprototypes : c.program.prototypes.size ≤ 2 ^ 32)
    (hstrings' : whole.program.strings.size ≤ 2 ^ 32)
    (hlays : TopAt (coding whole.program.strings false whole.program.main)
      (Made whole.program.main (declared names f)) after' names' p i j)
    (hi : i = 1 + shift)
    (hslots : ∀ (i : Nat) (p q : Prototype), c.program.prototypes[i]? = some p →
      whole.program.prototypes[before.length + i]? = some q → q.slots = p.slots)
    (hmain : c.program.main.slots.toNat ≤ whole.program.main.slots.toNat) :
    ∃ stop, j = stop + shift ∧ Part c.program whole.program p before.length shift stop := by
  subst hi
  have hmainAt := hc.code hstrings hprototypes
  obtain ⟨stop, htop, hlast, -⟩ := hmainAt.body
  have hdistinct : (declared names f).Nodup :=
    List.Nodup.of_map Closure.slot (hwhole.rising.imp fun hlt => Nat.ne_of_lt hlt)
  have hmade : ∀ constants : Nat → Nat → Prop,
      (∀ k k' i i', c.program.main.constants[k]? = some (.fn i) →
        whole.program.main.constants[k']? = some (.fn i') →
        i'.toNat = before.length + i.toNat → constants k k') →
      ∀ k k' g, Made c.program.main (declared names' p) k g →
        Made whole.program.main (declared names f) k' g → constants k k' := by
    rintro constants hfunctions k k' g ⟨i, hi, hg⟩ ⟨i', hi', hg'⟩
    exact hfunctions k k' i i' hi hi' (index_of_stretch hdeclared hdistinct hg hg')
  have hjoins : ∀ constants : Nat → Nat → Prop, (∀ k k', OneDatum c.program.strings
      whole.program.strings c.program.main whole.program.main k k' → constants k k') →
      Joins (twins c.program.main whole.program.main shift constants False)
        (coding c.program.strings false c.program.main)
        (coding whole.program.strings false whole.program.main) :=
    fun constants hconstants => joins_twins hconstants fun h => nomatch h
  obtain ⟨-, hj, -⟩ := flow_top (hjoins (fun _ _ => True) fun _ _ _ => trivial)
    (hmade _ fun _ _ _ _ _ _ _ => trivial) hmainAt.room htop hlays
  refine ⟨stop, hj, fun i b hb => ?_, hmain, hmainAt.room.2, hmainAt.start, hlast,
    fun constants hconstants hfunctions => ?_⟩
  · have hlength := hc.functions.length_eq
    rw [Array.getElem?_eq_some_iff] at hb
    obtain ⟨hi, rfl⟩ := hb
    have hi' : i < (declared names' p).length := hlength ▸ hi
    have hfit := hwhole.functions.length_eq
    have hj : before.length + i < (declared names f).length := by
      rw [hdeclared, List.length_append, List.length_append]
      omega
    have hsize : before.length + i < whole.program.prototypes.size := by
      rw [Array.length_toList] at hfit
      omega
    have hsame : (declared names f)[before.length + i] = (declared names' p)[i] := by
      rw [← Option.some_inj, ← List.getElem?_eq_getElem, ← List.getElem?_eq_getElem, hdeclared,
        List.append_assoc, List.getElem?_append_right (Nat.le_add_right _ _),
        Nat.add_sub_cancel_left, List.getElem?_append_left hi']
    have hfirst := (hc.functions.get hi hi').2 hstrings
    have hsecond := (hwhole.functions.get hsize hj).2 hstrings'
    simp only [List.get_eq_getElem, Array.getElem_toList, hsame] at hfirst hsecond
    have hq := Array.getElem?_eq_getElem hsize
    exact ⟨_, _, hq, hslots i _ _ (Array.getElem?_eq_getElem hi) hq, hfirst, hsecond⟩
  · obtain ⟨-, -, hflow⟩ := flow_top (hjoins constants hconstants) (hmade constants hfunctions)
      hmainAt.room htop hlays
    exact hflow _ (known_top fun _ h => h.elim)

theorem Split.slots_first (h : Split c c' whole) (i : Nat) (b b' : Prototype)
    (hb : c.program.prototypes[i]? = some b) (hb' : whole.program.prototypes[0 + i]? = some b') :
    b'.slots = b.slots := by
  obtain ⟨hi, rfl⟩ := Array.getElem?_eq_some_iff.1 hb
  obtain ⟨hi', rfl⟩ := Array.getElem?_eq_some_iff.1 hb'
  have hsame := h.functions.get (i := i) (by simp; omega) (by simpa using hi')
  simpa [List.getElem_append_left hi] using hsame

theorem Split.slots_second (h : Split c c' whole) (i : Nat) (b b' : Prototype)
    (hb : c'.program.prototypes[i]? = some b)
    (hb' : whole.program.prototypes[c.program.prototypes.size + i]? = some b') :
    b'.slots = b.slots := by
  obtain ⟨hi, rfl⟩ := Array.getElem?_eq_some_iff.1 hb
  obtain ⟨hi', rfl⟩ := Array.getElem?_eq_some_iff.1 hb'
  have hsame := h.functions.get (i := c.program.prototypes.size + i) (by simp; omega) (by simpa using hi')
  simpa [List.getElem_append_right] using hsame

/-- The program of two fragments as one has those of the two as its parts, one after the other, and
defines what they define. -/
theorem parts_of_compileFragment (hp : compileFragment names p = .ok c)
    (hq : compileFragment (names.commit c.definitions) q = .ok c')
    (hwhole : compileFragment names (p ++ q) = .ok whole)
    (hstrings : c.program.strings.size ≤ 2 ^ 32) (hprototypes : c.program.prototypes.size ≤ 2 ^ 32)
    (hstrings' : c'.program.strings.size ≤ 2 ^ 32) (hprototypes' : c'.program.prototypes.size ≤ 2 ^ 32)
    (hstringsW : whole.program.strings.size ≤ 2 ^ 32)
    (hprototypesW : whole.program.prototypes.size ≤ 2 ^ 32) :
    names.commit whole.definitions = (names.commit c.definitions).commit c'.definitions ∧
      whole.program.main.code[0]? = some (.abx .loadNil resultReg 0) ∧
      ∃ shift stop, Part c.program whole.program p 0 0 (1 + shift) ∧
        Part c'.program whole.program q c.program.prototypes.size shift stop ∧
        whole.program.main.code[stop + shift]? = some (.abc .ret resultReg 0 0) := by
  have hsplit := split_of_compileFragment hp hq hwhole
  have hlaid := laid_declared hp
  have hlaid' := laid_declared hq
  have hlaidW := laid_declared hwhole
  have hmain := hlaid.code hstrings hprototypes
  have hmain' := hlaid'.code hstrings' hprototypes'
  have hmainW := hlaidW.code hstringsW hprototypesW
  obtain ⟨stop₀, htop₀, -, -⟩ := hmain.body
  have hbetween : names.commit c.definitions = p.foldl namesAfter names := after_of_topAt htop₀
  have hdeclared := declared_append names p q
  rw [← hbetween] at hdeclared
  have hlength : c.program.prototypes.size = (declared names p).length := by
    rw [← hlaid.functions.length_eq, Array.length_toList]
  obtain ⟨stop, htop, hlast, -⟩ := hmainW.body
  obtain ⟨between, k, hpart, hpart'⟩ := topAt_append htop
  obtain rfl : between = names.commit c.definitions := (after_of_topAt hpart).trans hbetween.symm
  have hnone : declared names (p ++ q) = [] ++ declared names p ++
      declared (names.commit c.definitions) q := hdeclared
  obtain ⟨stop₁, rfl, hfirst⟩ := part_of_laid hlaid hlaidW hnone hstrings hprototypes hstringsW hpart
    (Nat.add_zero 1).symm hsplit.slots_first hsplit.first
  obtain ⟨shift, rfl⟩ := Nat.exists_eq_add_of_le hfirst.one_le_stop
  have hrest : declared names (p ++ q) = declared names p ++
      declared (names.commit c.definitions) q ++ [] := by
    rw [List.append_nil, hdeclared]
  obtain ⟨stop₂, rfl, hsecond⟩ := part_of_laid hlaid' hlaidW hrest hstrings' hprototypes' hstringsW
    hpart' rfl (hlength ▸ hsplit.slots_second) hsplit.second
  obtain ⟨_, htop', -⟩ := hmain'.body
  refine ⟨?_, hmainW.start, shift, stop₂, hfirst, hlength ▸ hsecond, hlast⟩
  rw [after_of_topAt htop, List.foldl_append, ← hbetween, ← after_of_topAt htop']

end

end ScriptMachine.Compile
