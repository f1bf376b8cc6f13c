import ScriptMachine.Proofs.Machine.PairedActions
import ScriptMachine.Proofs.Machine.Waiting

/-!
# Runs under other handles

A stretch of the main body of one machine may stand elsewhere in that of another. When the machines hold
the same under different handles, and the cells agree that the activations still need, the second
machine retraces each step of the first one until that has come to the end of the stretch.
-/

namespace ScriptMachine

open Bytecode

/-! ## Stretches of main bodies -/

/-- A stretch of two main bodies: from `start` to `stop` in the first one, and that many places further on
in the second. Here `written` says which registers have been written wherever a place is reached. -/
structure Passage where
  main : UInt32
  main' : UInt32
  start : Nat
  stop : Nat
  shift : Nat
  written : Nat → Nat → Prop

namespace Passage

variable {S : Passage} {P : Pairing}

/-- The instructions have their twins, read what has been written, and lead nowhere else. The handle of
the first main body is no other function's. -/
structure Lawful (S : Passage) (P : Pairing) : Prop where
  apart : ∀ j, ¬ P.function S.main.toNat j
  code : ∃ f g, P.first.function? S.main = some f ∧ P.second.function? S.main' = some g ∧
    ∀ ip, S.start ≤ ip → ip < S.stop → ∃ (w : Word) (op : Opcode), f.code[ip]? = some w ∧
      w.opcode? = some op ∧
      (Function.twins P.function P.first P.second f g S.shift False).Step S.written ip w op ∧
      ∀ next, op.Leads w ip next → S.start ≤ next ∧ next ≤ S.stop

/-- What activations need: in the main body what has been written, and elsewhere what is live. -/
inductive Needs (S : Passage) (P : Pairing) (frame : Frame) (reg : Nat) : Prop
  | main (h : frame.function = S.main) (hw : S.written frame.ip reg)
  | callee {f : Function} (h : frame.function ≠ S.main)
    (hf : P.first.function? frame.function = some f) (hlive : Live f.code frame.ip reg)

/-- The frames of two machines: at the bottom the main bodies, at places of the stretch that match, and
above them functions that belong together, at the same places. -/
inductive Frames (S : Passage) (P : Pairing) : List Frame → List Frame → Prop
  | main {ip : Nat} (hstart : S.start ≤ ip) (hstop : ip ≤ S.stop) :
    Frames S P [⟨S.main, ip, 0, 0⟩] [⟨S.main', ip + S.shift, 0, 0⟩]
  | call {i j : UInt32} {ip base dest : Nat} {F G : List Frame} (hij : P.function i.toNat j.toNat)
    (h : Frames S P F G) : Frames S P (⟨i, ip, base, dest⟩ :: F) (⟨j, ip, base, dest⟩ :: G)

theorem Frames.length_eq {F G : List Frame} (h : S.Frames P F G) : F.length = G.length := by
  induction h with
  | main => rfl
  | call _ _ ih => rw [List.length_cons, List.length_cons, ih]

/-- The first machine has come to the end of the stretch. -/
def AtStop (S : Passage) (m : Machine) : Prop :=
  m.frames = [⟨S.main, S.stop, 0, 0⟩]

/-- What is known of the running frames of the two machines, which execute `p` and `q`. -/
structure Site (S : Passage) (P : Pairing) (f g : Frame) (fs gs : List Frame) (p q : Function)
    (T : Twins) : Prop where
  function : P.first.function? f.function = some p
  function' : P.second.function? g.function = some q
  base : g.base = f.base
  dest : g.dest = f.dest
  ip : g.ip = f.ip + T.shift
  other : T.other = q.code
  constants : ∀ i j, T.constants i j → Function.Constants P.function P.first P.second p q i j
  atEnd : p.code[f.ip]? = none → q.code[g.ip]? = none ∧ fs ≠ []
  step : ∀ (w : Word) (op : Opcode), p.code[f.ip]? = some w → w.opcode? = some op →
    T.Step (fun ip => S.Needs P { f with ip }) f.ip w op ∧ (op = .ret → fs ≠ []) ∧
      ∀ next, op.Leads w f.ip next →
        S.Frames P ({ f with ip := next } :: fs) ({ g with ip := next + T.shift } :: gs)

/-- The running frames are at a site until the end of the stretch. -/
theorem Frames.site {f g : Frame} {fs gs : List Frame} (hP : P.Lawful) (hS : S.Lawful P)
    (h : S.Frames P (f :: fs) (g :: gs)) (hnot : f :: fs ≠ [⟨S.main, S.stop, 0, 0⟩]) :
    ∃ p q T, S.Site P f g fs gs p q T := by
  cases h with
  | @main ip hstart hstop =>
    obtain ⟨p, q, hp, hq, hcode⟩ := hS.code
    have hlt : ip < S.stop := Nat.lt_of_le_of_ne hstop fun he => hnot (by rw [he])
    obtain ⟨w, op, hw, hop, hstep, hleads⟩ := hcode ip hstart hlt
    refine ⟨p, q, Function.twins P.function P.first P.second p q S.shift False, hp, hq, rfl, rfl, rfl,
      rfl, fun _ _ h => h, fun hnone => ?_, fun w' op' hw' hop' => ?_⟩
    · rw [hw] at hnone
      cases hnone
    · obtain rfl := Option.some.inj (hw.symm.trans hw')
      obtain rfl := Option.some.inj (hop.symm.trans hop')
      refine ⟨?_, fun hret => (hstep.returns hret).elim, fun next hnext => ?_⟩
      · refine hstep.congr (fun _ hr => .main rfl hr) fun next _ r hr => ?_
        cases hr with
        | main _ hr => exact hr
        | callee hne => exact absurd rfl hne
      · exact .main (hleads next hnext).1 (hleads next hnext).2
  | @call i j ip base dest F G hij hrest =>
    obtain ⟨p, q, hp, hq, hpq, hdefinite⟩ := hP.corresponds _ _ hij
    have hne : i ≠ S.main := by
      rintro rfl
      exact hS.apart _ hij
    have hfs : fs ≠ [] := by
      rintro rfl
      cases hrest
    refine ⟨p, q, Function.twins P.function P.first P.second p q 0 True, hp, hq, rfl, rfl, rfl, rfl,
      fun _ _ h => h, fun hnone => ⟨?_, hfs⟩, fun w op hw hop => ?_⟩
    · rw [Array.getElem?_eq_none_iff] at hnone ⊢
      rw [hpq.size]
      exact hnone
    · have hwritten := hdefinite.written
      refine ⟨⟨hpq.code ip w op hw hop, fun reg hreads => ?_, fun next hleads reg hneeds => ?_,
        fun _ => trivial⟩, fun _ => hfs, fun next _ => .call hij hrest⟩
      · exact .callee hne hp (hwritten.reads hw hop hreads)
      · cases hneeds with
        | main h => exact absurd h hne
        | callee _ hf hlive =>
          obtain rfl := Option.some.inj (hp.symm.trans hf)
          exact (hwritten.leads hw hop hleads hlive).imp_left fun h => ⟨.callee hne hp h.1, h.2⟩

end Passage

namespace Machine

variable {P : Pairing} {C C' : Nat → Prop} {f g : Frame} {fs gs : List Frame} {shift : Nat}
  {op : Opcode} {w : Word}

/-! ## Instructions -/

/-- After an instruction that leads on in its frame, the second machine is that many places further on.
The cells that it has written agree. -/
def MovedOn (P : Pairing) (C : Nat → Prop) (f g : Frame) (fs gs : List Frame) (shift : Nat)
    (op : Opcode) (w : Word) (r r' : Option Value) (m n : Machine) : Prop :=
  (r = none ∧ r' = none) ∧ ∃ next, op.Leads w f.ip next ∧
    m.Held P (fun c => C c ∨ ∃ reg, op.Writes w reg ∧ c = f.base + reg)
      ({ f with ip := next } :: fs) ({ g with ip := next + shift } :: gs) n

/-- Such machines, whose running frames have moved past an instruction. -/
abbrev HeldPast (P : Pairing) (C : Nat → Prop) (f g : Frame) (fs gs : List Frame) :
    Machine → Machine → Prop :=
  Held P C ({ f with ip := f.ip + 1 } :: fs) ({ g with ip := g.ip + 1 } :: gs)

theorem movedOn_next {m n : Machine} (hip : g.ip = f.ip + shift) (hL : op.Leads w f.ip (f.ip + 1))
    (h : HeldPast P (fun c => C c ∨ ∃ reg, op.Writes w reg ∧ c = f.base + reg) f g fs gs m n) :
    MovedOn P C f g fs gs shift op w none none m n := by
  refine ⟨⟨rfl, rfl⟩, f.ip + 1, hL, ?_⟩
  rw [Nat.add_right_comm, ← hip]
  exact h

/-- An instruction that writes its target. -/
theorem retraces_store (hip : g.ip = f.ip + shift) (hL : op.Leads w f.ip (f.ip + 1))
    (v u : Value) :
    Retraces (FullFor P)
      (fun m n => HeldPast P C f g fs gs m n ∧ v.Renamed P.function m.heap n.heap u)
      (do writeReg f.base w.a v; return (none : Option Value))
      (do writeReg f.base w.a u; return none) (MovedOn P C f g fs gs shift op w) := by
  refine (retraces_writeReg f.base w.a v u).bind fun _ _ => .pure fun m n hmn => ?_
  refine movedOn_next hip hL (hmn.fewer ?_)
  rintro c (hc | ⟨reg, hreg, rfl⟩)
  · exact .inl hc
  · exact .inr (by rw [hreg.eq])

theorem full_of_store {m m' : Machine} {base reg : Nat} {v : Value} {r : Option Value}
    (h : FullFor P m) (hact : (do writeReg base reg v; return none : Action (Option Value)) m =
      .ok r m') : FullFor P m' := by
  obtain ⟨_, m₁, hwrite, hreturn⟩ := ok_of_bind hact
  cases hreturn
  exact full_of_writeReg h hwrite

/-- An instruction that writes no register. -/
theorem retraces_none (hip : g.ip = f.ip + shift) (hL : op.Leads w f.ip (f.ip + 1))
    (hW : ∀ reg, ¬ op.Writes w reg) :
    Retraces (FullFor P) (HeldPast P C f g fs gs) (return none : Action (Option Value))
      (return none) (MovedOn P C f g fs gs shift op w) := by
  refine .pure fun m n hmn => movedOn_next hip hL (hmn.fewer ?_)
  rintro c (hc | ⟨reg, hreg, -⟩)
  · exact hc
  · exact (hW reg hreg).elim

theorem retraces_jump {target : Nat} (hL : op.Leads w f.ip target) (hW : ∀ reg, ¬ op.Writes w reg) :
    Retraces (FullFor P) (HeldPast P C f g fs gs)
      (do jumpTo target; return (none : Option Value))
      (do jumpTo (target + shift); return none) (MovedOn P C f g fs gs shift op w) := by
  refine (retraces_jumpTo target (target + shift)).bind fun _ _ => .pure fun m n hmn => ?_
  refine ⟨⟨rfl, rfl⟩, target, hL, hmn.fewer ?_⟩
  rintro c (hc | ⟨reg, hreg, -⟩)
  · exact hc
  · exact (hW reg hreg).elim

/-- An instruction that neither calls nor returns does the same as its twin. -/
theorem retraces_perform {p q : Function} {T : Twins} {w' : Word} (hP : P.Lawful)
    (hip : g.ip = f.ip + T.shift)
    (hconstants : ∀ i j, T.constants i j → Function.Constants P.function P.first P.second p q i j)
    (hsame : T.Same op w w') (hreads : ∀ reg, op.Reads w reg → C (f.base + reg))
    (hcall : op ≠ .call) (hret : op ≠ .ret) :
    Retraces (FullFor P) (HeldPast P C f g fs gs) (perform p f.base op w) (perform q f.base op w')
      (MovedOn P C f g fs gs T.shift op w) := by
  have hread : ∀ {reg}, op.Reads w reg → Retraces never (HeldPast P C f g fs gs)
      (readReg f.base reg) (readReg f.base reg)
      (fun v u m n => HeldPast P C f g fs gs m n ∧ v.Renamed P.function m.heap n.heap u) :=
    fun {_} hreg => retraces_readReg (fun _ _ h => h) (hreads _ hreg)
  have hstore : op.Leads w f.ip (f.ip + 1) → ∀ v u, Retraces (FullFor P)
      (fun m n => HeldPast P C f g fs gs m n ∧ v.Renamed P.function m.heap n.heap u)
      (do writeReg f.base w.a v; return (none : Option Value))
      (do writeReg f.base w.a u; return none) (MovedOn P C f g fs gs T.shift op w) :=
    fun hL v u => retraces_store hip hL v u
  have hmove : op.Leads w f.ip (f.ip + 1) → (∀ reg, ¬ op.Writes w reg) →
      Retraces (FullFor P) (HeldPast P C f g fs gs) (return none : Action (Option Value))
        (return none) (MovedOn P C f g fs gs T.shift op w) :=
    fun hL hW => retraces_none hip hL hW
  have hjump : op.Leads w f.ip w.bx → (∀ reg, ¬ op.Writes w reg) →
      Retraces (FullFor P) (HeldPast P C f g fs gs)
        (do jumpTo w.bx; return (none : Option Value))
        (do jumpTo (w.bx + T.shift); return none) (MovedOn P C f g fs gs T.shift op w) :=
    fun hL hW => retraces_jump hL hW
  cases op with
  | loadConst =>
    obtain ⟨ha, hk⟩ := hsame
    obtain ⟨v, u, hv, hu, hvu⟩ := hconstants _ _ hk
    simp only [perform, hv, hu, ha]
    refine (hstore rfl v u).weaken (fun m n hmn => ⟨hmn, ?_⟩) fun _ _ _ _ h => h
    exact hvu.grows hmn.heap.first.grows hmn.heap.second.grows
  | loadTrue | loadFalse =>
    obtain rfl : w' = w := hsame
    exact (hstore rfl _ _).weaken (fun _ _ h => ⟨h, .bool _⟩) fun _ _ _ _ h => h
  | loadNil =>
    obtain rfl : w' = w := hsame
    exact (hstore rfl _ _).weaken (fun _ _ h => ⟨h, .nil⟩) fun _ _ _ _ h => h
  | move =>
    obtain rfl : w' = w := hsame
    exact (hread rfl).bind fun v u => hstore rfl v u
  | neg | logNot =>
    obtain rfl : w' = w := hsame
    refine (hread rfl).bind fun v u => ?_
    rintro m n x m' ⟨hmn, hv⟩ hact
    exact ((retraces_liftFault (fun _ _ h => h) (unaryResult_renamed hv)
      fun _ h => unaryResult_ok h).bind fun v u => hstore rfl v u) m n x m' hmn hact
  | add | sub | mul | div | mod | eq | notEq | lt | le | gt | ge =>
    obtain rfl : w' = w := hsame
    refine (hread (.inl rfl)).bind fun v u => ?_
    refine (retraces_readReg (fun _ _ h => h.1) (hreads _ (.inr rfl))).bind fun v' u' => ?_
    exact (retraces_binaryResult hP.oneToOne).bindFull (fun v u => hstore rfl v u)
      fun v m r m' hm hact => full_of_store hm hact
  | jump =>
    have hbx : w'.bx = w.bx + T.shift := hsame
    simp only [perform, hbx]
    exact hjump rfl fun _ h => h
  | jumpIfFalse | jumpIfTrue =>
    obtain ⟨ha, hbx⟩ := hsame
    simp only [perform, ha, hbx]
    refine (hread rfl).bind fun v u => ?_
    rintro m n x m' ⟨hmn, hv⟩ hact
    rw [hv.isFalsey_eq] at hact
    split_ifs at hact ⊢
    · exact hjump (.inr rfl) (fun _ h => h) m n x m' hmn hact
    · exact hmove (.inl rfl) (fun _ h => h) m n x m' hmn hact
  | getGlobal =>
    obtain rfl : w' = w := hsame
    exact (retraces_globalValue _).bind fun v u => hstore rfl v u
  | setGlobal =>
    obtain rfl : w' = w := hsame
    exact (retraces_checkAssignable _).bind fun _ _ => (hread rfl).bind fun v u =>
      (retraces_writeGlobal _ v u).bind fun _ _ => hmove rfl fun _ h => h
  | defGlobal =>
    obtain rfl : w' = w := hsame
    exact (hread rfl).bind fun v u =>
      (retraces_writeGlobal _ v u).bind fun _ _ => hmove rfl fun _ h => h
  | getPrim =>
    obtain rfl : w' = w := hsame
    refine (retraces_primitive (fun _ _ h => h) _).bind fun _ _ => .assume fun _ => ?_
    exact (hstore rfl _ _).weaken (fun _ _ h => ⟨h, .primitive _⟩) fun _ _ _ _ h => h
  | call => exact absurd rfl hcall
  | ret => exact absurd rfl hret

/-! ## Steps -/

/-- The second machine has come as far as the first one in the stretch, and the cells agree that the
activations still need. -/
def Abreast (S : Passage) (P : Pairing) (m n : Machine) : Prop :=
  ∃ C frame rest G, m.Held P C (frame :: rest) G n ∧ S.Frames P (frame :: rest) G ∧
    Provided (S.Needs P) (fun c _ => C c) frame rest

variable {S : Passage} {m n m' n' o : Machine} {r : Option Value}

/-- After an instruction that leads on in its frame. -/
theorem abreast_of_movedOn {p q : Function} {T : Twins} (hsite : S.Site P f g fs gs p q T)
    (hw : p.code[f.ip]? = some w) (hop : w.opcode? = some op)
    (hneeds : Provided (S.Needs P) (fun c _ => C c) f fs) {r r' : Option Value}
    (h : MovedOn P C f g fs gs T.shift op w r r' m n) : r = none ∧ r' = none ∧ Abreast S P m n := by
  obtain ⟨⟨hr, hr'⟩, next, hleads, hmn⟩ := h
  obtain ⟨hstep, -, hframes⟩ := hsite.step w op hw hop
  refine ⟨hr, hr', _, _, _, _, hmn, hframes next hleads,
    hneeds.advance (fun reg hreg => ?_) fun _ _ _ _ hc => .inl hc⟩
  rcases hstep.writes next hleads reg hreg with ⟨hbefore, -⟩ | hwrites
  · exact .inl (hneeds.own reg hbefore)
  · exact .inr ⟨reg, hwrites, rfl⟩

/-- After a call. -/
theorem abreast_of_call {p q : Function} {T : Twins} (hP : P.Lawful) (hS : S.Lawful P)
    (hsite : S.Site P f g fs gs p q T) (hw : p.code[f.ip]? = some w)
    (hop : w.opcode? = some .call) (hneeds : Provided (S.Needs P) (fun c _ => C c) f fs)
    (h : AfterCall P C ({ f with ip := f.ip + 1 } :: fs) ({ g with ip := g.ip + 1 } :: gs)
      (f.base + w.b + 1) w.c (f.base + w.a) m n) : Abreast S P m n := by
  obtain ⟨hstep, -, hframes⟩ := hsite.step w .call hw hop
  have hnext := hframes (f.ip + 1) rfl
  have hip : g.ip + 1 = f.ip + 1 + T.shift := by
    have := hsite.ip
    omega
  rw [← hip] at hnext
  cases h with
  | result hmn =>
    refine ⟨_, _, _, _, hmn, hnext, hneeds.advance (fun reg hreg => ?_) fun _ _ _ _ hc => .inl hc⟩
    rcases hstep.writes _ rfl reg hreg with ⟨hbefore, -⟩ | hwrites
    · exact .inl (hneeds.own reg hbefore)
    · exact .inr (by rw [hwrites.eq])
  | @frames i j hij hcount hmn =>
    refine ⟨_, _, _, _, hmn, .call hij hnext,
      hneeds.call (by simp only; omega) (Nat.le_add_right _ _) (fun reg hreg => ?_)
        (fun reg hreg => ?_) fun _ _ _ _ hc => hc⟩
    · obtain ⟨callee, g', hf, -, -, hdefinite⟩ := hP.corresponds _ _ hij
      cases hreg with
      | main h =>
        refine absurd hij ?_
        rw [show i = S.main from h]
        exact hS.apart _
      | callee _ hf' hlive =>
        obtain rfl := Option.some.inj (hf.symm.trans hf')
        have hlt := hdefinite.start reg hlive
        rw [hcount _ hf] at hlt
        have harg := hneeds.own (w.b + 1 + reg) (hstep.reads _ ⟨by omega, by omega⟩)
        rwa [← Nat.add_assoc, ← Nat.add_assoc] at harg
    · rcases hstep.writes _ rfl reg hreg with ⟨hbefore, hspares⟩ | hwrites
      · have hle := hspares rfl
        exact .inr ⟨by simp only; omega, hneeds.own reg hbefore⟩
      · exact .inl (by rw [hwrites.eq])

/-- After a return. -/
theorem abreast_of_return {f' g' : Frame} {fs' gs' : List Frame}
    (hframes : S.Frames P (f :: f' :: fs') (g :: g' :: gs'))
    (hneeds : Provided (S.Needs P) (fun c _ => C c) f (f' :: fs'))
    (h : m.Held P (fun c => C c ∨ c = f.dest) (f' :: fs') (g' :: gs') n) : Abreast S P m n := by
  cases hframes with
  | call hij hrest =>
    exact ⟨_, _, _, _, h, hrest, hneeds.answer (.inr rfl) fun _ _ _ _ hc => .inl hc⟩

/-- A return, or the end of the code of a function that was called. -/
theorem abreast_of_leaveFrame {f₀ g₀ : Frame} {v u : Value} (hframes : S.Frames P (f :: fs) (g :: gs))
    (hfs : fs ≠ []) (hf : f₀.dest = f.dest) (hg : g₀.dest = f.dest)
    (hneeds : Provided (S.Needs P) (fun c _ => C c) f fs) :
    Retraces never (HeldWith P C (f₀ :: fs) (g₀ :: gs) v u) (leaveFrame v) (leaveFrame u)
      (fun r r' m n => r = none ∧ r' = none ∧ Abreast S P m n) := by
  obtain ⟨f', fs', rfl⟩ := List.exists_cons_of_ne_nil hfs
  obtain ⟨g', gs', rfl⟩ : ∃ g' gs', gs = g' :: gs' := by
    refine List.exists_cons_of_length_pos ?_
    have := hframes.length_eq
    simp only [List.length_cons] at this
    omega
  refine (retraces_leaveFrame (hf.trans hg.symm) v u).weaken (fun _ _ h => h) fun r r' m n h => ?_
  rw [hf] at h
  exact ⟨h.1.1, h.1.2, abreast_of_return hframes hneeds h.2⟩

/-- An instruction is retraced by its twin. -/
theorem retraces_instruction {p q : Function} {T : Twins} {w' : Word} (hP : P.Lawful)
    (hS : S.Lawful P) (hsite : S.Site P f g fs gs p q T) (hframes : S.Frames P (f :: fs) (g :: gs))
    (hneeds : Provided (S.Needs P) (fun c _ => C c) f fs) (hw : p.code[f.ip]? = some w)
    (hop : w.opcode? = some op) (hsame : T.Same op w w') :
    Retraces (FullFor P) (HeldPast P C f g fs gs) (perform p f.base op w) (perform q g.base op w')
      (fun r r' m n => r = none ∧ r' = none ∧ Abreast S P m n) := by
  obtain ⟨hstep, hret, -⟩ := hsite.step w op hw hop
  have hreads : ∀ reg, op.Reads w reg → C (f.base + reg) :=
    fun reg hreg => hneeds.own reg (hstep.reads reg hreg)
  rw [hsite.base]
  by_cases hcallop : op = .call
  · subst hcallop
    obtain rfl : w' = w := hsame
    have hlength : ({ f with ip := f.ip + 1 } :: fs).length = ({ g with ip := g.ip + 1 } :: gs).length :=
      hframes.length_eq
    refine Retraces.bindFull (retraces_call hP hlength fun reg hle hlt => hreads reg ⟨hle, hlt⟩)
      (fun _ _ => .pure fun m n hmn => ⟨rfl, rfl, abreast_of_call hP hS hsite hw hop hneeds hmn⟩) ?_
    intro _ m _ m' hfull hreturn
    cases hreturn
    exact hfull
  · by_cases hretop : op = .ret
    · subst hretop
      obtain rfl : w' = w := hsame
      refine (retraces_readReg (fun _ _ h => h) (hreads _ rfl)).bind fun v u => ?_
      refine .relax ?_
      exact abreast_of_leaveFrame hframes (hret rfl) rfl hsite.dest hneeds
    · refine (retraces_perform hP hsite.ip hsite.constants hsame hreads hcallop hretop).weaken
        (fun _ _ h => h) fun r r' m n h => ?_
      exact abreast_of_movedOn hsite hw hop hneeds h

/-- The second machine takes a step with the first one, which is not at the end of the stretch. -/
theorem abreast_step (hP : P.Lawful) (hS : S.Lawful P) (h : Abreast S P m n) (hnot : ¬ S.AtStop m)
    (hstep : step m = .ok r m') :
    FullFor P m' ∨ r = none ∧ ∃ n', step n = .ok none n' ∧ Abreast S P m' n' := by
  obtain ⟨C, f, fs, G, hmn, hframes, hneeds⟩ := h
  cases G with
  | nil =>
    have hlength := hframes.length_eq
    simp at hlength
  | cons g gs =>
    obtain ⟨p, q, T, hsite⟩ := hframes.site hP hS fun he => hnot (hmn.frames.trans he)
    have hp : m.heap.function? f.function = some p :=
      hmn.heap.first.grows.function? hsite.function
    have hq : n.heap.function? g.function = some q :=
      hmn.heap.second.grows.function? hsite.function'
    rcases step_cases m with ⟨hnone, -⟩ | ⟨hfs, hnone, -⟩ | ⟨hfs, hf, hw, heq⟩ | ⟨hfs, -, -, heq⟩ |
      ⟨hfs, -, -, -, heq⟩ | ⟨hfs, hf, hw, -, hop, heq⟩
    · rw [hmn.frames] at hnone
      cases hnone
    · obtain ⟨rfl, rfl⟩ := List.cons.inj (hfs.symm.trans hmn.frames)
      rw [hp] at hnone
      cases hnone
    · obtain ⟨rfl, rfl⟩ := List.cons.inj (hfs.symm.trans hmn.frames)
      obtain rfl := Option.some.inj (hp.symm.trans hf)
      obtain ⟨hend, hrest⟩ := hsite.atEnd hw
      rw [heq] at hstep
      rw [step_at_end hmn.frames' hq hend]
      obtain ⟨r', n', hn', rfl, rfl, habreast⟩ := (abreast_of_leaveFrame hframes hrest rfl
        hsite.dest hneeds _ _ _ _ ⟨hmn, .nil⟩ hstep).resolve_left id
      exact .inr ⟨rfl, n', hn', habreast⟩
    · rw [heq] at hstep
      cases hstep
    · rw [heq] at hstep
      cases hstep
    · obtain ⟨rfl, rfl⟩ := List.cons.inj (hfs.symm.trans hmn.frames)
      obtain rfl := Option.some.inj (hp.symm.trans hf)
      obtain ⟨htwin, -, -⟩ := hsite.step _ _ hw hop
      obtain ⟨w', hw', hop', hsame⟩ := htwin.twin
      rw [hsite.other, ← hsite.ip] at hw'
      rw [heq] at hstep
      rw [step_performs hmn.frames' hq hw' (fuelled_of_none hmn.fuel') hop']
      refine (retraces_instruction hP hS hsite hframes hneeds hw hop hsame _ _ _ _ hmn.past
        hstep).imp_right ?_
      rintro ⟨r', n', hn', rfl, rfl, habreast⟩
      exact ⟨rfl, n', hn', habreast⟩

/-! ## Runs -/

/-- What is full stays so. -/
theorem full_of_continues (hfull : FullFor P m) (h : m.Continues o) : FullFor P o := by
  have hle := h.heap.grows.strings_size
  unfold FullFor Pairing.FullHeap at hfull ⊢
  omega

/-- A run that has come to its end has passed the end of the stretch, and the other machine gets there
in as many steps. -/
theorem abreast_run (hP : P.Lawful) (hS : S.Lawful P) {k : Nat} {v : Value} (h : Abreast S P m n)
    (hrun : run k m = .ok (some v) o) (hroom : ¬ FullFor P o) :
    ∃ j < k, ∃ m' n', run j m = .ok none m' ∧ run j n = .ok none n' ∧ Abreast S P m' n' ∧
      S.AtStop m' := by
  induction k generalizing m n with
  | zero => cases hrun
  | succ k ih =>
    by_cases hstop : S.AtStop m
    · exact ⟨0, Nat.succ_pos k, m, n, rfl, rfl, h, hstop⟩
    have hadd : m.primitives.Additive := by
      obtain ⟨C, frame, rest, G, hmn, -⟩ := h
      rw [hmn.primitives]
      exact Registry.additive_standard
    unfold run at hrun
    cases hstep : step m with
    | error e m₁ =>
      rw [hstep] at hrun
      cases hrun
    | ok r m₁ =>
      rw [hstep] at hrun
      have hnext : m.Continues m₁ := (keeps_step hadd).ok (.refl m) hstep
      have hrest : FullFor P m₁ → FullFor P o := by
        intro hfull
        cases r with
        | some u =>
          cases hrun
          exact hfull
        | none =>
          refine full_of_continues hfull ((keeps_run ?_ k).ok (.refl m₁) hrun)
          rw [hnext.primitives]
          exact hadd
      rcases abreast_step hP hS h hstop hstep with hfull | ⟨rfl, n₁, hn₁, habreast⟩
      · exact absurd (hrest hfull) hroom
      · obtain ⟨j, hj, m', n', hm', hn', hend⟩ := ih habreast hrun
        refine ⟨j + 1, Nat.succ_lt_succ hj, m', n', ?_, ?_, hend⟩
        · simp only [run, hstep]
          exact hm'
        · simp only [run, hn₁]
          exact hn'

/-- At the end of the stretch, what has been written there agrees. -/
theorem held_of_abreast (h : Abreast S P m n) (hstop : S.AtStop m) :
    m.Held P (S.written S.stop) [⟨S.main, S.stop, 0, 0⟩] [⟨S.main', S.stop + S.shift, 0, 0⟩] n := by
  obtain ⟨C, frame, rest, G, hmn, hframes, hneeds⟩ := h
  obtain ⟨rfl, rfl⟩ := List.cons.inj (hmn.frames.symm.trans hstop)
  cases hframes with
  | main =>
    refine hmn.fewer fun c hc => ?_
    have hcell := hneeds.own c (.main rfl hc)
    rwa [Nat.zero_add] at hcell
  | call _ hrest => cases hrest

/-- A run that starts at the start of two stretches of main bodies that run alike, and that comes to its
end, has passed the end of the stretch. The other machine gets there in as many steps, and what has been
written there agrees. -/
theorem run_passes {main main' : UInt32} {p q : Function} {start stop shift : Nat}
    {Q : Nat → Prop} (hP : P.Lawful) (hapart : ∀ j, ¬ P.function main.toNat j)
    (hp : P.first.function? main = some p) (hq : P.second.function? main' = some q)
    (hflow : (Function.twins P.function P.first P.second p q shift False).Flow start stop
      (fun _ => False) Q)
    (hmn : m.Held P (fun _ => False) [⟨main, start, 0, 0⟩] [⟨main', start + shift, 0, 0⟩] n)
    {k : Nat} {v : Value} (hrun : run k m = .ok (some v) o) (hroom : ¬ FullFor P o) :
    ∃ j < k, ∃ m' n', run j m = .ok none m' ∧ run j n = .ok none n' ∧
      m'.Held P Q [⟨main, stop, 0, 0⟩] [⟨main', stop + shift, 0, 0⟩] n' := by
  obtain ⟨hle, written, hstart, rfl, hcode⟩ := hflow
  let S : Passage := ⟨main, main', start, stop, shift, written⟩
  have hS : S.Lawful P := ⟨hapart, p, q, hp, hq, hcode⟩
  have habreast : Abreast S P m n := by
    refine ⟨_, _, _, _, hmn, .main (Nat.le_refl _) hle, ⟨fun reg hreg => ?_, .bottom⟩⟩
    cases hreg with
    | main _ hwritten => exact hstart reg hwritten
    | callee hne => exact absurd rfl hne
  obtain ⟨j, hj, m', n', hm', hn', hend, hstop⟩ := abreast_run hP hS habreast hrun hroom
  exact ⟨j, hj, m', n', hm', hn', held_of_abreast hend hstop⟩

end Machine
end ScriptMachine
