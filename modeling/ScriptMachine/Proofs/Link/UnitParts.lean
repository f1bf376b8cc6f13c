import ScriptMachine.Proofs.Compile.Parts
import ScriptMachine.Proofs.Machine.PairedSteps
import ScriptMachine.Proofs.Simulation.Units

/-!
# Units of parts of a program

When a program is linked into one image and a part of it into another, their functions belong together,
and the run of the part goes along a stretch of the run of the whole.
-/

namespace ScriptMachine

open Bytecode Compile Evaluation Link Simulation

/-- Values that stand for one integer or text are renamed. -/
theorem Simulation.Literal.renamed {r : Nat → Nat → Prop} {h k : Heap} {v w : Value} {d : Datum}
    (hv : Literal h v d) (hw : Literal k w d) : v.Renamed r h k w := by
  cases hv with
  | int => cases hw with | int => exact .int _
  | text hs => cases hw with | text hs' => exact .string hs hs'

namespace Link

/-! ## Programs in heaps -/

/-- What a body of a program becomes in the heap that the program is put into. -/
abbrev placedBody (program : Program) (heap : Heap) (p : Prototype) : Function :=
  linkedFunction (handlesFrom heap.strings.size program.strings.size)
    (handlesFrom heap.functions.size program.prototypes.size) p

/-- The handle that the main body of a program gets there. -/
def mainHandle (program : Program) (heap : Heap) : UInt32 :=
  UInt32.ofNat (heap.functions.size + program.prototypes.size)

/-- The constants of a program mean something in its tables. -/
def Checked (program : Program) : Prop :=
  ∀ p ∈ program.bodies, ∀ k ∈ p.constants,
    constantOk program.strings.size program.prototypes.size k = true

section

variable {r : Nat → Nat → Prop} {program other : Program} {h h' k k' : Heap}

/-- A constant of a body of a program that stands for a datum. -/
theorem literal_of_denotes (hplaced : Placed program h h') (hroomy : h'.Roomy)
    (hchecked : Checked program) {p : Prototype} (hp : p ∈ program.bodies) {i : Nat} {c : Constant}
    {d : Datum} (hc : p.constants[i]? = some c) (hd : Denotes program.strings c d) :
    ∃ v, (placedBody program h p).constants[i]? = some v ∧ Literal h' v d := by
  refine ⟨_, ?_, literal_resolveConstant hplaced hroomy
    (hchecked p hp c (Array.mem_of_getElem? hc)) hd⟩
  simp [linkedFunction, hc]

/-- Constants of two bodies that stand for one datum hold renamed values. -/
theorem constants_of_oneDatum (hplaced : Placed program h h') (hplaced' : Placed other k k')
    (hroomy : h'.Roomy) (hroomy' : k'.Roomy) (hchecked : Checked program) (hchecked' : Checked other)
    {p q : Prototype} (hp : p ∈ program.bodies) (hq : q ∈ other.bodies) {i j : Nat}
    (hij : OneDatum program.strings other.strings p q i j) :
    Function.Constants r h' k' (placedBody program h p) (placedBody other k q) i j := by
  obtain ⟨d, c, c', hc, hc', hd, hd'⟩ := hij
  obtain ⟨v, hv, hl⟩ := literal_of_denotes hplaced hroomy hchecked hp hc hd
  obtain ⟨w, hw, hl'⟩ := literal_of_denotes hplaced' hroomy' hchecked' hq hc' hd'
  exact ⟨v, w, hv, hw, hl.renamed hl'⟩

/-- A constant that is a function holds the handle that this was given. -/
theorem constant_of_function (hplaced : Placed program h h') (hroomy : h'.Roomy)
    (hchecked : Checked program) {p : Prototype} (hp : p ∈ program.bodies) {i : Nat} {index : UInt32}
    (hc : p.constants[i]? = some (.fn index)) :
    ∃ handle : UInt32, (placedBody program h p).constants[i]? = some (.function handle) ∧
      index.toNat < program.prototypes.size ∧ handle.toNat = h.functions.size + index.toNat := by
  have hlt : index.toNat < program.prototypes.size := by
    simpa [constantOk] using hchecked p hp _ (Array.mem_of_getElem? hc)
  refine ⟨UInt32.ofNat (h.functions.size + index.toNat), ?_, hlt, toNat_ofNat_of_lt ?_⟩
  · simp [linkedFunction, hc, resolveConstant, getD_handlesFrom hlt]
  · have hsize := hroomy.functions
    rw [hplaced.functions_size, length_bodies] at hsize
    omega

end

/-! ## Functions that belong together -/

/-- Functions of a heap belong to themselves in a larger one. -/
theorem lawful_self {h k : Heap} {primitives : Nat} (horder : h.InOrder primitives)
    (hdefinite : ∀ f ∈ h.functions, Definite f.arity f.code) (hg : h.Grows k) (slack least : Nat) :
    Pairing.Lawful ⟨fun i j => i = j ∧ i < h.functions.size, h, k, slack, least⟩ where
  oneToOne := by
    rintro i j i' j' ⟨rfl, -⟩ ⟨rfl, -⟩
    exact Iff.rfl
  corresponds := by
    rintro i j ⟨rfl, hi⟩
    have hf := Array.getElem?_eq_getElem hi
    refine ⟨_, _, hf, hg.functions _ _ hf, .self (fun v hv => ?_) fun ip w hw hop => ?_,
      hdefinite _ (Array.getElem_mem hi)⟩
    · have hlive := (horder i _ hf).constants v hv
      exact (Value.Renamed.of_live hlive fun i hi => ⟨rfl, hi⟩).grows (.refl _) hg
    · obtain ⟨op, hop', hrange⟩ := (horder i _ hf).code ip w hw
      obtain rfl := Option.some.inj (hop'.symm.trans hop)
      exact hrange.constant rfl

/-- Functions that are added in both heaps, the first of them at `i` and `j`, belong together as well. -/
def Joining (r : Nat → Nat → Prop) (i j count a b : Nat) : Prop :=
  r a b ∨ ∃ l < count, a = i + l ∧ b = j + l

theorem oneToOne_joining {r : Nat → Nat → Prop} (hr : OneToOne r) {i j : Nat} (count : Nat)
    (hbelow : ∀ a b, r a b → a < i ∧ b < j) : OneToOne (Joining r i j count) := by
  rintro a b a' b' (hab | ⟨l, -, rfl, rfl⟩) (hab' | ⟨l', -, rfl, rfl⟩)
  · exact hr a b a' b' hab hab'
  · have := hbelow a b hab
    omega
  · have := hbelow a' b' hab'
    omega
  · omega

/-- How two heaps belong together when the functions of `part` have been added to the first one, which
is now `heap`. In the second heap they stand behind those of `base` and `offset` others. -/
def joinPart (P : Pairing) (part : Program) (offset : Nat) (heap base : Heap) (slack : Nat) :
    Pairing where
  function := Joining P.function P.first.functions.size (base.functions.size + offset)
    part.prototypes.size
  first := heap
  second := P.second
  slack := slack
  least := P.least

/-- The first heap of `P` becomes `heap` when the part is put into it. The second heap of `P` is what
`base` became when the whole was put into it. There `P` says which functions belong together that are
not the part's. -/
structure PartPlaced (P : Pairing) (part whole : Program) (stmts : List Source.Stmt)
    (offset shift stop : Nat) (heap base : Heap) : Prop where
  lawful : P.Lawful
  isPart : Part part whole stmts offset shift stop
  placed : Placed part P.first heap
  placed' : Placed whole base P.second
  roomy : heap.Roomy
  roomy' : P.second.Roomy
  checked : Checked part
  checked' : Checked whole
  below : ∀ i j, P.function i j → j < base.functions.size + offset

namespace PartPlaced

variable {P : Pairing} {part whole : Program} {stmts : List Source.Stmt} {offset shift stop : Nat}
  {heap base : Heap} (h : PartPlaced P part whole stmts offset shift stop heap base) (slack : Nat)

include h

theorem function?_main :
    heap.function? (mainHandle part P.first) = some (placedBody part P.first part.main) :=
  h.placed.function? h.roomy.functions (getElem?_bodies_main part)

theorem function?_main' :
    P.second.function? (mainHandle whole base) = some (placedBody whole base whole.main) :=
  h.placed'.function? h.roomy'.functions (getElem?_bodies_main whole)

theorem lt_first {i j : Nat} (hij : P.function i j) : i < P.first.functions.size := by
  obtain ⟨f, -, hf, -⟩ := h.lawful.corresponds i j hij
  exact (Array.getElem?_eq_some_iff.1 hf).1

/-- The functions of the part correspond to those of the whole, and the others still do. -/
theorem lawful_joinPart : (joinPart P part offset heap base slack).Lawful where
  oneToOne := oneToOne_joining h.lawful.oneToOne _ fun i j hij => ⟨h.lt_first hij, h.below i j hij⟩
  corresponds := by
    rintro i j (hij | ⟨l, hl, rfl, rfl⟩)
    · obtain ⟨f, g, hf, hg, hfg, hdefinite⟩ := h.lawful.corresponds i j hij
      exact ⟨f, g, h.placed.grows.functions _ _ hf, hg,
        hfg.mono (fun _ _ => .inl) h.placed.grows (.refl _), hdefinite⟩
    · obtain ⟨q, f, hq, hslots, hcode, hcode'⟩ :=
        h.isPart.functions l _ (Array.getElem?_eq_getElem hl)
      obtain ⟨hl', rfl⟩ := Array.getElem?_eq_some_iff.1 hq
      have hbody := getElem?_bodies hl
      have hbody' := getElem?_bodies hl'
      have htwins := hcode.throughout hcode' fun a b hab =>
        constants_of_oneDatum (r := (joinPart P part offset heap base slack).function) h.placed
          h.placed' h.roomy h.roomy' h.checked h.checked' (List.mem_of_getElem? hbody)
          (List.mem_of_getElem? hbody') hab
      have hregs : part.prototypes[l].slots.toNat = whole.prototypes[offset + l].slots.toNat := by
        rw [hslots]
      refine ⟨_, placedBody whole base whole.prototypes[offset + l],
        h.placed.getElem?_functions hbody, ?_, .of_throughout (hcode.name.trans hcode'.name.symm)
          (hcode.arity.trans hcode'.arity.symm) hregs htwins, ?_⟩
      · rw [Nat.add_assoc]
        exact h.placed'.getElem?_functions hbody'
      · have hdefinite := htwins.definite
        rw [← hcode.arity] at hdefinite
        exact hdefinite

/-- The statements of the part run alike in both main bodies. -/
theorem flow_main : (Function.twins (joinPart P part offset heap base slack).function heap P.second
    (placedBody part P.first part.main) (placedBody whole base whole.main) shift False).Flow 1 stop
    (fun _ => False) (resulting stmts fun _ => False) := by
  have hmain := List.mem_of_getElem? (getElem?_bodies_main part)
  have hmain' := List.mem_of_getElem? (getElem?_bodies_main whole)
  refine h.isPart.flow _ (fun k k' => constants_of_oneDatum h.placed h.placed' h.roomy h.roomy'
    h.checked h.checked' hmain hmain') fun k k' i i' hk hk' hi => ?_
  obtain ⟨handle, hv, hlt, hhandle⟩ := constant_of_function h.placed h.roomy h.checked hmain hk
  obtain ⟨handle', hw, -, hhandle'⟩ := constant_of_function h.placed' h.roomy' h.checked' hmain' hk'
  refine ⟨_, _, hv, hw, .function (.inr ⟨i.toNat, hlt, hhandle, ?_⟩)⟩
  rw [hhandle', hi, Nat.add_assoc]

/-- The main body of the part belongs to no function. -/
theorem main_apart (j : Nat) :
    ¬ (joinPart P part offset heap base slack).function (mainHandle part P.first).toNat j := by
  have hsize := h.roomy.functions
  rw [h.placed.functions_size, length_bodies] at hsize
  have hindex : (mainHandle part P.first).toNat = P.first.functions.size + part.prototypes.size :=
    toNat_ofNat_of_lt (by omega)
  rw [hindex]
  rintro (hij | ⟨l, hl, hil, -⟩)
  · have := h.lt_first hij
    omega
  · omega

end PartPlaced

/-! ## Runs -/

section

variable {m o : Machine} {main : UInt32} {f : Function} {ip : Nat} {v : Value}

/-- A main body starts by clearing its result. -/
theorem step_first (hframes : m.frames = [⟨main, 0, 0, 0⟩]) (hf : m.heap.function? main = some f)
    (hw : f.code[0]? = some (Word.abx .loadNil resultReg 0)) (hfuel : m.fuel = none)
    (hstack : 0 < m.stack.size) : Machine.step m =
      .ok none { m.past ⟨main, 0, 0, 0⟩ [] with stack := m.stack.set 0 .nil hstack } := by
  rw [Machine.step_performs hframes hf hw (Machine.fuelled_of_none hfuel) (Word.opcode?_abx ..)]
  have hwrite : Machine.writeReg 0 resultReg .nil (m.past ⟨main, 0, 0, 0⟩ []) =
      .ok () { m.past ⟨main, 0, 0, 0⟩ [] with stack := m.stack.set 0 .nil hstack } :=
    dif_pos hstack
  exact Machine.bind_of_ok hwrite

/-- The last instruction of a main body hands back the result. -/
theorem step_last (hframes : m.frames = [⟨main, ip, 0, 0⟩]) (hf : m.heap.function? main = some f)
    (hw : f.code[ip]? = some (Word.abc .ret resultReg 0 0)) (hfuel : m.fuel = none)
    (hv : m.stack[resultReg]? = some v) : Machine.step m =
      .ok (some v) { m.past ⟨main, ip, 0, 0⟩ [] with frames := [] } := by
  rw [Machine.step_performs hframes hf hw (Machine.fuelled_of_none hfuel) (Word.opcode?_abc ..)]
  have hread : Machine.readReg 0 resultReg (m.past ⟨main, ip, 0, 0⟩ []) =
      .ok v (m.past ⟨main, ip, 0, 0⟩ []) := Machine.readReg_eq hv
  exact Machine.bind_of_ok hread

/-- A run that goes well from there has done so. -/
theorem last_of_run (hframes : m.frames = [⟨main, ip, 0, 0⟩]) (hf : m.heap.function? main = some f)
    (hw : f.code[ip]? = some (Word.abc .ret resultReg 0 0)) (hfuel : m.fuel = none) {steps : Nat}
    (hrun : Machine.run (steps + 1) m = .ok (some v) o) :
    m.stack[resultReg]? = some v ∧ o = { m.past ⟨main, ip, 0, 0⟩ [] with frames := [] } := by
  have hresult : ∃ u, m.stack[resultReg]? = some u := by
    unfold Machine.run at hrun
    rw [Machine.step_performs hframes hf hw (Machine.fuelled_of_none hfuel) (Word.opcode?_abc ..)] at hrun
    cases hperform : Machine.perform f 0 .ret (Word.abc .ret resultReg 0 0)
        (m.past ⟨main, ip, 0, 0⟩ []) with
    | error e m₁ =>
      rw [hperform] at hrun
      cases hrun
    | ok r m₁ =>
      obtain ⟨u, m₂, hread, -⟩ := Machine.ok_of_bind hperform
      exact ⟨u, (Machine.readReg_ok_iff.1 hread).2⟩
  obtain ⟨u, hu⟩ := hresult
  simp only [Machine.run, step_last hframes hf hw hfuel hu] at hrun
  cases hrun
  exact ⟨hu, rfl⟩

end

namespace PartPlaced

variable {P : Pairing} {part whole : Program} {stmts : List Source.Stmt} {offset shift stop : Nat}
  {heap base : Heap} {slack : Nat} {m n o : Machine} {v : Value} {steps : Nat}

/-- The run of the unit of a part goes along the stretch of the main body of the whole, on a machine that
holds the same. When the part ends in an expression, its value is left as the result. -/
theorem run_along (h : PartPlaced P part whole stmts offset shift stop heap base)
    (hmn : m.Paired (joinPart P part offset heap base slack) n)
    (hframes : m.frames = [⟨mainHandle part P.first, 0, 0, 0⟩])
    (hframes' : n.frames = [⟨mainHandle whole base, 1 + shift, 0, 0⟩]) (hstack : 0 < m.stack.size)
    (hrun : Machine.run steps m = .ok (some v) o)
    (hroom : ¬ Machine.FullFor (joinPart P part offset heap base slack) o) :
    ∃ j n', j + 2 ≤ steps ∧ Machine.run j n = .ok none n' ∧
      o.Paired (joinPart P part offset heap base slack) n' ∧
      n'.frames = [⟨mainHandle whole base, stop + shift, 0, 0⟩] ∧
      (endsInExpr stmts = true → ∃ w, n'.stack[resultReg]? = some w ∧
        v.Renamed (joinPart P part offset heap base slack).function o.heap n'.heap w) := by
  have hmain : ∀ {m' : Machine}, heap.Grows m'.heap →
      m'.heap.function? (mainHandle part P.first) = some (placedBody part P.first part.main) :=
    fun hg => hg.function? h.function?_main
  have hfirst := step_first hframes (hmain hmn.heap.first.grows) h.isPart.start hmn.fuel hstack
  cases steps with
  | zero => cases hrun
  | succ steps =>
    simp only [Machine.run, hfirst] at hrun
    have hstart : Machine.Held (joinPart P part offset heap base slack) (fun _ => False)
        [⟨mainHandle part P.first, 1, 0, 0⟩] [⟨mainHandle whole base, 1 + shift, 0, 0⟩]
        { m.past ⟨mainHandle part P.first, 0, 0, 0⟩ [] with stack := m.stack.set 0 .nil hstack } n :=
      { hmn with
        stack := by simpa using hmn.stack
        cells := fun _ hc => hc.elim
        frames := rfl
        frames' := hframes' }
    obtain ⟨j, hj, m', n', hm', hn', hend⟩ := Machine.run_passes (h.lawful_joinPart slack)
      (h.main_apart slack) h.function?_main h.function?_main' (h.flow_main slack) hstart hrun hroom
    obtain ⟨rest, rfl⟩ := Nat.exists_eq_add_of_lt hj
    rw [Nat.add_assoc, Machine.run_add hm'] at hrun
    obtain ⟨hv, rfl⟩ := last_of_run hend.frames (hmain hend.heap.first.grows) h.isPart.last hend.fuel
      hrun
    refine ⟨j, n', by omega, hn', { hend.toPaired with }, hend.frames', fun hends => ?_⟩
    obtain ⟨u, w, hu, hw, huw⟩ := hend.cells resultReg (.inr ⟨rfl, hends⟩)
    obtain rfl := Option.some.inj (hv.symm.trans hu)
    exact ⟨w, hw, huw⟩

end PartPlaced

end Link
end ScriptMachine
