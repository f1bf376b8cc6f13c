import ScriptMachine.Proofs.Machine.Oblivious
import ScriptMachine.Proofs.Bytecode.Flow
import ScriptMachine.Proofs.Value.Renaming

/-!
# Machines under other handles

Two machines hold the same under different handles when their heaps belong together and all that they
show is renamed: the globals that they see, their output, and the cells of the stack that are said to
agree. The second machine may have a longer stack, and may have written globals that the first one finds
in its table. What changes both machines in the same way leaves them so.
-/

namespace ScriptMachine

/-! ## Functions that correspond

Two functions of two heaps correspond when they look the same, need the same registers and have the same
code, but for the places of their constants, which hold renamed values.
-/

section

open Bytecode

variable {r r' : Nat → Nat → Prop} {h k h' k' : Heap} {f g : Function}

/-- The places of constants of two functions that hold renamed values. -/
def Function.Constants (r : Nat → Nat → Prop) (h k : Heap) (f g : Function) (i j : Nat) : Prop :=
  ∃ v w, f.constants[i]? = some v ∧ g.constants[j]? = some w ∧ v.Renamed r h k w

/-- The codes of two functions, of which the second is that many places further on. -/
def Function.twins (r : Nat → Nat → Prop) (h k : Heap) (f g : Function) (shift : Nat)
    (returns : Prop) : Twins :=
  ⟨f.code, g.code, shift, Function.Constants r h k f g, returns⟩

/-- Two functions that do the same in their heaps, where `r` says which functions belong together. -/
structure Function.Corresponds (r : Nat → Nat → Prop) (h k : Heap) (f g : Function) : Prop where
  name : f.name = g.name
  arity : f.arity = g.arity
  slots : f.slots = g.slots
  size : g.code.size = f.code.size
  code : ∀ (ip : Nat) (w : Word) (op : Opcode), f.code[ip]? = some w → w.opcode? = some op →
    ∃ w' : Word, g.code[ip]? = some w' ∧ w'.opcode? = some op ∧
      (Function.twins r h k f g 0 True).Same op w w'

theorem Function.Constants.mono {i j : Nat} (hc : Function.Constants r h k f g i j)
    (hr : ∀ i j, r i j → r' i j) (hh : h.Grows h') (hk : k.Grows k') :
    Function.Constants r' h' k' f g i j := by
  obtain ⟨v, w, hv, hw, hvw⟩ := hc
  exact ⟨v, w, hv, hw, hvw.mono hr hh hk⟩

namespace Function.Corresponds

/-- What corresponds does so in larger heaps, with more functions that belong together. -/
theorem mono (hfg : Function.Corresponds r h k f g) (hr : ∀ i j, r i j → r' i j) (hh : h.Grows h')
    (hk : k.Grows k') : Function.Corresponds r' h' k' f g where
  name := hfg.name
  arity := hfg.arity
  slots := hfg.slots
  size := hfg.size
  code ip w op hw hop := by
    obtain ⟨w', hw', hop', hsame⟩ := hfg.code ip w op hw hop
    exact ⟨w', hw', hop', hsame.mono rfl fun _ _ hc => Function.Constants.mono hc hr hh hk⟩

/-- A function corresponds to itself when its constants do. -/
theorem self (hconstants : ∀ v ∈ f.constants, v.Renamed r h k v)
    (hloads : ∀ (ip : Nat) (w : Word), f.code[ip]? = some w → w.opcode? = some .loadConst →
      w.bx < f.constants.size) : Function.Corresponds r h k f f where
  name := rfl
  arity := rfl
  slots := rfl
  size := rfl
  code ip w op hw hop := by
    refine ⟨w, hw, hop, Twins.same_self rfl fun hload => ?_⟩
    have hlt := hloads ip w hw (hload ▸ hop)
    exact ⟨_, _, Array.getElem?_eq_getElem hlt, Array.getElem?_eq_getElem hlt,
      hconstants _ (Array.getElem_mem hlt)⟩

/-- Functions whose code is twin code throughout correspond. -/
theorem of_throughout {arity : Nat} (hname : f.name = g.name) (harity : f.arity = g.arity)
    (hslots : f.slots = g.slots) (htwins : (Function.twins r h k f g 0 True).Throughout arity) :
    Function.Corresponds r h k f g where
  name := hname
  arity := harity
  slots := hslots
  size := htwins.size
  code ip w op hw hop := by
    obtain ⟨D, -, hsteps⟩ := htwins.steps
    exact (hsteps ip w op hw hop).twin

end Function.Corresponds

end

/-- How the heaps of two machines belong together: which of their functions do, the heaps that they
start with, and how many strings more the second may come to hold. The stack of the second machine has
at least so many cells. -/
structure Pairing where
  function : Nat → Nat → Prop
  first : Heap
  second : Heap
  slack : Nat
  least : Nat

namespace Pairing

variable {P : Pairing} {h k : Heap}

/-- Each function belongs to one other, on either side. They correspond, and never need more than they
have. -/
structure Lawful (P : Pairing) : Prop where
  oneToOne : OneToOne P.function
  corresponds : ∀ i j, P.function i j → ∃ f g, P.first.functions[i]? = some f ∧
    P.second.functions[j]? = some g ∧ f.Corresponds P.function P.first P.second g ∧
    Bytecode.Definite f.arity f.code

/-- The heaps that the machines may come to. -/
structure Heaps (P : Pairing) (h k : Heap) : Prop where
  first : P.first.AddsStrings h
  second : P.second.AddsStrings k
  strings : k.strings.size ≤ h.strings.size + P.slack

/-- The first heap does not leave handles for what the second one may hold. -/
def FullHeap (P : Pairing) (h : Heap) : Prop :=
  handleCount < h.strings.size + P.slack

theorem Heaps.allocString (hk : P.Heaps h k) (s : String) (hroom : ¬ P.FullHeap (h.allocString s).2) :
    P.Heaps (h.allocString s).2 (k.allocString s).2 ∧ h.strings.size < handleCount ∧
      k.strings.size < handleCount := by
  have hle := hk.strings
  simp only [FullHeap, Heap.allocString_strings, Array.size_push] at hroom
  refine ⟨⟨hk.first.trans (Heap.addsStrings_allocString h s),
    hk.second.trans (Heap.addsStrings_allocString k s), ?_⟩, by omega, by omega⟩
  simp only [Heap.allocString_strings, Array.size_push]
  omega

/-- The same functions belong together in a first heap that is another one now. -/
def restart (P : Pairing) (h : Heap) : Pairing :=
  { P with first := h }

theorem Lawful.restart (hP : P.Lawful) (hg : P.first.Grows h) : (P.restart h).Lawful where
  oneToOne := hP.oneToOne
  corresponds i j hij := by
    obtain ⟨f, g, hf, hg', hfg, hdefinite⟩ := hP.corresponds i j hij
    exact ⟨f, g, hg.functions _ _ hf, hg', hfg.mono (fun _ _ h => h) hg (.refl _), hdefinite⟩

/-- Primitives are given the second machine's arguments and then the first one's, whose heap is the one
that may be full. -/
def likeness (P : Pairing) : Likeness where
  function j i := P.function i j
  heap k h := P.Heaps h k
  full := P.FullHeap

theorem Lawful.likeness (hP : P.Lawful) : P.likeness.Lawful where
  shown := by
    intro k h hk j i hr
    obtain ⟨f, g, hf, hg, hfg, -⟩ := hP.corresponds i j hr
    exact ⟨g, f, hk.second.grows.functions _ _ hg, hk.first.grows.functions _ _ hf, hfg.name.symm,
      hfg.arity.symm⟩
  allocString s hk hroom := by
    obtain ⟨hheap, hh, hk'⟩ := hk.allocString s hroom
    exact ⟨hheap, hk', hh⟩

end Pairing

namespace Machine

/-- The two machines hold the same under different handles. -/
structure Paired (P : Pairing) (m n : Machine) : Prop where
  heap : P.Heaps m.heap n.heap
  primitives : m.primitives = Registry.standard
  primitives' : n.primitives = Registry.standard
  globals : ∀ slot : Nat, ((m.global? slot).getD .empty).Renamed P.function m.heap n.heap
    ((n.global? slot).getD .empty)
  pending : ∀ slot : Nat, m.pending.contains slot = true → n.pending.contains slot = true
  stack : m.stack.size ≤ n.stack.size
  least : P.least ≤ n.stack.size
  sink : m.sink = n.sink
  room : m.sink.room = none
  fuel : m.fuel = none
  fuel' : n.fuel = none

/-- A cell of both stacks that holds renamed values. -/
def AgreeAt (P : Pairing) (m n : Machine) (c : Nat) : Prop :=
  ∃ v w, m.stack[c]? = some v ∧ n.stack[c]? = some w ∧ v.Renamed P.function m.heap n.heap w

/-- Two such machines, which have these frames and agree at the cells in `C`. -/
structure Held (P : Pairing) (C : Nat → Prop) (F G : List Frame) (m n : Machine) : Prop
    extends m.Paired P n where
  cells : ∀ c, C c → m.AgreeAt P n c
  frames : m.frames = F
  frames' : n.frames = G

/-- Two such machines, and two values that are renamed in their heaps. -/
def HeldWith (P : Pairing) (C : Nat → Prop) (F G : List Frame) (v w : Value) (m n : Machine) : Prop :=
  m.Held P C F G n ∧ v.Renamed P.function m.heap n.heap w

variable {P : Pairing} {C C' : Nat → Prop} {F G F' G' : List Frame} {m n : Machine} {v w : Value}

/-! ## Changes to both machines -/

theorem AgreeAt.grows {m' n' : Machine} {c : Nat} (h : m.AgreeAt P n c) (hm : m.heap.Grows m'.heap)
    (hn : n.heap.Grows n'.heap) (hs : m'.stack = m.stack) (hs' : n'.stack = n.stack) :
    m'.AgreeAt P n' c := by
  obtain ⟨v, w, hv, hw, hvw⟩ := h
  exact ⟨v, w, hs ▸ hv, hs' ▸ hw, hvw.grows hm hn⟩

namespace Held

theorem fewer (h : m.Held P C F G n) (hC : ∀ c, C' c → C c) : m.Held P C' F G n :=
  { h with cells := fun c hc => h.cells c (hC c hc) }

theorem setFrames (h : m.Held P C F G n) :
    Held P C F' G' { m with frames := F' } { n with frames := G' } :=
  { h with frames := rfl, frames' := rfl }

/-- Counting an instruction changes nothing that is held. -/
theorem past {f g : Frame} {fs gs : List Frame} (h : m.Held P C F G n) :
    Held P C ({ f with ip := f.ip + 1 } :: fs) ({ g with ip := g.ip + 1 } :: gs) (m.past f fs)
      (n.past g gs) :=
  { h with frames := rfl, frames' := rfl }

/-- A cell that is written agrees. -/
theorem setStack (h : m.Held P C F G n) (hv : v.Renamed P.function m.heap n.heap w) {c : Nat}
    (hi : c < m.stack.size) (hj : c < n.stack.size) :
    Held P (fun c' => C c' ∨ c' = c) F G { m with stack := m.stack.set c v hi }
      { n with stack := n.stack.set c w hj } := by
  refine { h with stack := ?_, least := ?_, cells := fun c' hc => ?_ }
  · simpa using h.stack
  · simpa using h.least
  · by_cases he : c = c'
    · subst he
      exact ⟨v, w, by simp, by simp, hv⟩
    · obtain ⟨v', w', hv', hw', hvw⟩ := h.cells c' (hc.resolve_right fun h => he h.symm)
      refine ⟨v', w', ?_, ?_, hvw⟩
      · rw [Array.getElem?_set, if_neg he, hv']
      · rw [Array.getElem?_set, if_neg he, hw']

/-- The stacks may get longer. -/
theorem growStack (h : m.Held P C F G n) {i j : Nat}
    (hsize : m.stack.size + i ≤ n.stack.size + j) :
    Held P C F G { m with stack := m.stack ++ Array.replicate i Value.nil }
      { n with stack := n.stack ++ Array.replicate j Value.nil } := by
  refine { h with stack := ?_, least := ?_, cells := fun c hc => ?_ }
  · simpa using hsize
  · have hleast := h.least
    simp only [Array.size_append, Array.size_replicate]
    omega
  · obtain ⟨v, w, hv, hw, hvw⟩ := h.cells c hc
    refine ⟨v, w, ?_, ?_, hvw⟩
    · rw [Array.getElem?_append_left (Array.getElem?_eq_some_iff.1 hv).1, hv]
    · rw [Array.getElem?_append_left (Array.getElem?_eq_some_iff.1 hw).1, hw]

end Held

theorem global?_insert (m : Machine) (slot slot' : Nat) (v : Value) :
    global? { m with pending := m.pending.insert slot v } slot' =
      if slot = slot' then some v else m.global? slot' := by
  unfold global?
  rw [Std.TreeMap.getElem?_insert]
  by_cases he : slot = slot'
  · simp [he]
  · simp [he]

namespace Held

/-- A global may be written. -/
theorem addPending (h : m.Held P C F G n) (slot : Nat)
    (hv : v.Renamed P.function m.heap n.heap w) :
    Held P C F G { m with pending := m.pending.insert slot v }
      { n with pending := n.pending.insert slot w } := by
  refine { h with globals := fun slot' => ?_, pending := fun slot' => ?_ }
  · rw [global?_insert, global?_insert]
    split_ifs
    · exact hv
    · exact h.globals slot'
  · simp only [Std.TreeMap.contains_insert, Bool.or_eq_true]
    exact Or.imp_right (h.pending slot')

/-- Strings may be stored, and text written. -/
theorem addStrings (h : m.Held P C F G n) {heap heap' : Heap} {sink sink' : Sink}
    (hheap : P.Heaps heap heap') (hadd : m.heap.AddsStrings heap) (hadd' : n.heap.AddsStrings heap')
    (hsink : sink = sink') (hroom : sink.room = none) :
    Held P C F G { m with heap := heap, sink := sink } { n with heap := heap', sink := sink' } :=
  { h with
    heap := hheap
    globals := fun slot => (h.globals slot).grows hadd.grows hadd'.grows
    sink := hsink
    room := hroom
    cells := fun c hc => (h.cells c hc).grows hadd.grows hadd'.grows rfl rfl }

/-- Cells that agree give renamed arguments. -/
theorem extract (h : m.Held P C F G n) {start count : Nat} (hC : ∀ i < count, C (start + i))
    (hroom : start + count ≤ m.stack.size) :
    List.Forall₂ (Value.Renamed P.function m.heap n.heap)
      (m.stack.extract start (start + count)).toList
      (n.stack.extract start (start + count)).toList := by
  have hle := h.stack
  rw [List.forall₂_iff_get]
  refine ⟨by simp only [Array.length_toList, Array.size_extract]; omega, fun i hi hi' => ?_⟩
  have hlt : i < count := by
    simp only [Array.length_toList, Array.size_extract] at hi
    omega
  obtain ⟨v, w, hv, hw, hvw⟩ := h.cells _ (hC i hlt)
  simp only [List.get_eq_getElem, Array.getElem_toList, Array.getElem_extract]
  rw [(Array.getElem?_eq_some_iff.1 hv).2, (Array.getElem?_eq_some_iff.1 hw).2]
  exact hvw

end Held

end Machine
end ScriptMachine
