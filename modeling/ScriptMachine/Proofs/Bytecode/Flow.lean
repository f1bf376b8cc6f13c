import ScriptMachine.Proofs.Bytecode.Liveness

/-!
# Code that runs alike from place to place

Two stretches of code run alike when their instructions are the same but for the places of their
constants and for a shift of all jump targets, and when on each way through them a register is written
before it is read. What else the registers hold can then make no difference.
-/

namespace ScriptMachine.Bytecode

/-! ## Two codes -/

/-- Two codes, of which the second is that many places further on; which places of their constants
belong together, and whether they may return. -/
structure Twins where
  code : Array Word
  other : Array Word
  shift : Nat
  constants : Nat → Nat → Prop
  returns : Prop

namespace Twins

/-- The two words are the same instruction. -/
def Same (T : Twins) : Opcode → Word → Word → Prop
  | .loadConst, w, w' => w'.a = w.a ∧ T.constants w.bx w'.bx
  | .jump, w, w' => w'.bx = w.bx + T.shift
  | .jumpIfFalse, w, w' | .jumpIfTrue, w, w' => w'.a = w.a ∧ w'.bx = w.bx + T.shift
  | _, w, w' => w' = w

/-- The instruction `w` at `ip` has its twin, and reads what has been written. Here `D` says which
registers have been written wherever a place is reached. -/
structure Step (T : Twins) (D : Nat → Nat → Prop) (ip : Nat) (w : Word) (op : Opcode) : Prop where
  twin : ∃ w', T.other[ip + T.shift]? = some w' ∧ w'.opcode? = some op ∧ T.Same op w w'
  reads : ∀ r, op.Reads w r → D ip r
  writes : ∀ next, op.Leads w ip next → ∀ r, D next r → D ip r ∧ op.Spares w r ∨ op.Writes w r
  returns : op = .ret → T.returns

/-- The code from `i` to `j` has its twin. If the registers in `P` have been written at its start, those
in `Q` have been at its end, and there is no other way out of it but to return. -/
def Flow (T : Twins) (i j : Nat) (P Q : Nat → Prop) : Prop :=
  i ≤ j ∧ ∃ D : Nat → Nat → Prop, (∀ r, D i r → P r) ∧ D j = Q ∧
    ∀ ip, i ≤ ip → ip < j → ∃ w op, T.code[ip]? = some w ∧ w.opcode? = some op ∧
      T.Step D ip w op ∧ ∀ next, op.Leads w ip next → i ≤ next ∧ next ≤ j

variable {T : Twins} {D D' : Nat → Nat → Prop} {P P' Q Q' R : Nat → Prop} {i j k m ip : Nat}
  {w w' : Word} {op : Opcode}

/-- Only what has been written here and at the next places matters. -/
theorem Step.congr (h : T.Step D ip w op) (hhere : ∀ r, D ip r → D' ip r)
    (hnext : ∀ next, op.Leads w ip next → ∀ r, D' next r → D next r) : T.Step D' ip w op where
  twin := h.twin
  reads r hr := hhere r (h.reads r hr)
  writes next hlead r hr :=
    (h.writes next hlead r (hnext next hlead r hr)).imp_left fun hr => ⟨hhere r hr.1, hr.2⟩
  returns := h.returns

/-- What is said of the places before `k`, and from there on what else is said. -/
def splice (k : Nat) (D D' : Nat → Nat → Prop) (ip : Nat) : Nat → Prop :=
  if ip < k then D ip else D' ip

theorem splice_of_lt (h : ip < k) : splice k D D' ip = D ip :=
  if_pos h

theorem splice_of_le (h : k ≤ ip) : splice k D D' ip = D' ip :=
  if_neg (Nat.not_lt.2 h)

namespace Flow

theorem refl (T : Twins) (i : Nat) (P : Nat → Prop) : T.Flow i i P P :=
  ⟨Nat.le_refl i, fun _ => P, fun _ h => h, rfl, fun _ hle hlt => absurd hlt (Nat.not_lt.2 hle)⟩

theorem weaken (h : T.Flow i j P Q) (hP : ∀ r, P r → P' r) (hQ : ∀ r, Q' r → Q r) :
    T.Flow i j P' Q' := by
  obtain ⟨hle, D, hstart, rfl, hsteps⟩ := h
  refine ⟨hle, splice j D fun _ => Q', fun r hr => hP r (hstart r ?_), splice_of_le (Nat.le_refl j),
    fun ip hip hlt => ?_⟩
  · rcases Nat.lt_or_eq_of_le hle with hij | rfl
    · rwa [splice_of_lt hij] at hr
    · rw [splice_of_le (Nat.le_refl i)] at hr
      exact hQ r hr
  · obtain ⟨w, op, hw, hop, hstep, hlead⟩ := hsteps ip hip hlt
    refine ⟨w, op, hw, hop, hstep.congr (fun r hr => ?_) (fun next hnext r hr => ?_), hlead⟩
    · rwa [splice_of_lt hlt]
    · rcases Nat.lt_or_eq_of_le (hlead next hnext).2 with hj | rfl
      · rwa [splice_of_lt hj] at hr
      · rw [splice_of_le (Nat.le_refl next)] at hr
        exact hQ r hr

/-- One stretch after another. -/
theorem trans (h : T.Flow i k P Q) (h' : T.Flow k j Q R) : T.Flow i j P R := by
  obtain ⟨hle, D, hstart, rfl, hsteps⟩ := h
  obtain ⟨hle', D', hstart', rfl, hsteps'⟩ := h'
  refine ⟨by omega, splice k D D', fun r hr => hstart r ?_, splice_of_le hle', fun ip hip hlt => ?_⟩
  · rcases Nat.lt_or_eq_of_le hle with hik | rfl
    · rwa [splice_of_lt hik] at hr
    · rw [splice_of_le (Nat.le_refl i)] at hr
      exact hstart' r hr
  · by_cases hipk : ip < k
    · obtain ⟨w, op, hw, hop, hstep, hlead⟩ := hsteps ip hip hipk
      refine ⟨w, op, hw, hop, hstep.congr (fun r hr => ?_) (fun next hnext r hr => ?_),
        fun next hnext => ⟨(hlead next hnext).1, Nat.le_trans (hlead next hnext).2 hle'⟩⟩
      · rwa [splice_of_lt hipk]
      · rcases Nat.lt_or_eq_of_le (hlead next hnext).2 with hk | rfl
        · rwa [splice_of_lt hk] at hr
        · rw [splice_of_le (Nat.le_refl next)] at hr
          exact hstart' r hr
    · obtain ⟨w, op, hw, hop, hstep, hlead⟩ := hsteps' ip (by omega) hlt
      refine ⟨w, op, hw, hop, hstep.congr (fun r hr => ?_) (fun next hnext r hr => ?_),
        fun next hnext => ⟨Nat.le_trans hle (hlead next hnext).1, (hlead next hnext).2⟩⟩
      · rwa [splice_of_le (by omega)]
      · rwa [splice_of_le (hlead next hnext).1] at hr

end Flow

/-! ## Single instructions -/

/-- What two words have in common when they are twins at places that match. -/
structure Paired (T : Twins) (ip : Nat) (w : Word) (op : Opcode) : Prop where
  here : T.code[ip]? = some w
  opcode : w.opcode? = some op
  twin : ∃ w', T.other[ip + T.shift]? = some w' ∧ w'.opcode? = some op ∧ T.Same op w w'

/-- An instruction that only leads to the next one. -/
theorem Paired.flow (h : T.Paired ip w op) (hreads : ∀ r, op.Reads w r → P r)
    (hlead : ∀ next, op.Leads w ip next → next = ip + 1) (hret : op ≠ .ret)
    (hQ : ∀ r, Q r → P r ∧ op.Spares w r ∨ op.Writes w r) : T.Flow ip (ip + 1) P Q := by
  refine ⟨Nat.le_succ ip, splice (ip + 1) (fun _ => P) fun _ => Q, fun r hr => ?_,
    splice_of_le (Nat.le_refl _), ?_⟩
  · rwa [splice_of_lt (Nat.lt_succ_self _)] at hr
  · intro place hle hlt
    obtain rfl : place = ip := by omega
    refine ⟨w, op, h.here, h.opcode, ⟨h.twin, fun r hr => ?_, fun next hnext r hr => ?_,
      fun he => absurd he hret⟩, fun next hnext => ?_⟩
    · rw [splice_of_lt (Nat.lt_succ_self _)]
      exact hreads r hr
    · rw [hlead next hnext, splice_of_le (Nat.le_refl _)] at hr
      rw [splice_of_lt (Nat.lt_succ_self _)]
      exact hQ r hr
    · rw [hlead next hnext]
      omega

/-- After a return nothing has to have been written. -/
theorem Paired.flow_ret (h : T.Paired ip w .ret) (hreads : P w.a) (hreturns : T.returns) :
    T.Flow ip (ip + 1) P Q := by
  refine ⟨Nat.le_succ ip, splice (ip + 1) (fun _ => P) fun _ => Q, fun r hr => ?_,
    splice_of_le (Nat.le_refl _), ?_⟩
  · rwa [splice_of_lt (Nat.lt_succ_self _)] at hr
  · intro place hle hlt
    obtain rfl : place = ip := by omega
    refine ⟨w, .ret, h.here, h.opcode, ⟨h.twin, fun r hr => ?_, fun _ hnext => hnext.elim,
      fun _ => hreturns⟩, fun _ hnext => hnext.elim⟩
    rw [splice_of_lt (Nat.lt_succ_self _)]
    exact hr ▸ hreads

/-! ## Jumps -/

/-- A jump forward over code that then need not be run. -/
theorem Flow.skip (h : T.Flow i k P Q) (hjump : T.Paired k w op)
    (hop : op = .jumpIfFalse ∨ op = .jumpIfTrue) (htarget : w.bx = j) (hreads : Q w.a)
    (hrest : T.Flow (k + 1) j Q R) (hR : ∀ r, R r → Q r) : T.Flow i j P R := by
  refine h.trans ?_
  obtain ⟨hle, D, hstart, rfl, hsteps⟩ := hrest
  refine ⟨by omega, splice (k + 1) (fun _ => Q) D, fun r hr => ?_, splice_of_le hle,
    fun ip hip hlt => ?_⟩
  · rwa [splice_of_lt (by omega)] at hr
  · rcases Nat.eq_or_lt_of_le hip with rfl | hip
    · have hleads : ∀ next, op.Leads w k next → next = k + 1 ∨ next = j := by
        rcases hop with rfl | rfl <;> exact fun next hnext => htarget ▸ hnext
      have hne : op ≠ .call := by rcases hop with rfl | rfl <;> decide
      refine ⟨w, op, hjump.here, hjump.opcode, ⟨hjump.twin, fun r hr => ?_, fun next hnext r hr => ?_,
        fun he => ?_⟩, fun next hnext => ?_⟩
      · rw [splice_of_lt (by omega)]
        rcases hop with rfl | rfl <;> exact hr ▸ hreads
      · rw [splice_of_lt (by omega)]
        rcases hleads next hnext with rfl | rfl
        · rw [splice_of_le (Nat.le_refl _)] at hr
          exact .inl ⟨hstart r hr, Opcode.spares_of_ne hne w r⟩
        · rw [splice_of_le hle] at hr
          exact .inl ⟨hR r hr, Opcode.spares_of_ne hne w r⟩
      · rcases hop with rfl | rfl <;> cases he
      · rcases hleads next hnext with rfl | rfl <;> omega
    · obtain ⟨w', op', hw, hop', hstep, hlead⟩ := hsteps ip hip hlt
      refine ⟨w', op', hw, hop', hstep.congr (fun r hr => ?_) (fun next hnext r hr => ?_),
        fun next hnext => ⟨Nat.le_trans (Nat.le_succ k) (hlead next hnext).1, (hlead next hnext).2⟩⟩
      · rwa [splice_of_le hip]
      · rwa [splice_of_le (hlead next hnext).1] at hr

/-- One stretch of code, and a jump over another one that is run in its place. -/
theorem Flow.choice (hbody : T.Flow k m P Q) (hend : T.Paired m w .jump) (hj : w.bx = j)
    (helse : T.Flow (m + 1) j P Q) :
    ∃ D : Nat → Nat → Prop, (∀ r, D k r → P r) ∧ (∀ r, D (m + 1) r → P r) ∧ D j = Q ∧
      ∀ ip, k ≤ ip → ip < j → ∃ w op, T.code[ip]? = some w ∧ w.opcode? = some op ∧
        T.Step D ip w op ∧ ∀ next, op.Leads w ip next → k ≤ next ∧ next ≤ j := by
  obtain ⟨hle, D, hstart, rfl, hsteps⟩ := hbody
  obtain ⟨hle', D', hstart', hlast, hsteps'⟩ := helse
  refine ⟨splice (m + 1) D D', fun r hr => hstart r ?_, fun r hr => hstart' r ?_,
    (splice_of_le hle').trans hlast, fun ip hip hlt => ?_⟩
  · rwa [splice_of_lt (by omega)] at hr
  · rwa [splice_of_le (Nat.le_refl _)] at hr
  rcases Nat.lt_trichotomy ip m with hipm | rfl | hipm
  · obtain ⟨w₁, op, hw, hop, hstep, hlead⟩ := hsteps ip hip hipm
    refine ⟨w₁, op, hw, hop, hstep.congr (fun r hr => ?_) (fun next hnext r hr => ?_),
      fun next hnext => ?_⟩
    · rwa [splice_of_lt (by omega)]
    · have := hlead next hnext
      rwa [splice_of_lt (by omega)] at hr
    · have := hlead next hnext
      omega
  · have hnext : ∀ next, Opcode.Leads .jump w ip next → next = j := fun next h => h.trans hj
    refine ⟨w, _, hend.here, hend.opcode, ⟨hend.twin, fun r hr => hr.elim, fun next h r hr => ?_,
      fun he => nomatch he⟩, fun next h => ?_⟩
    · rw [hnext next h, splice_of_le hle', hlast] at hr
      rw [splice_of_lt (by omega)]
      exact .inl ⟨hr, Opcode.spares_of_ne (by decide) w r⟩
    · rw [hnext next h]
      omega
  · obtain ⟨w₁, op, hw, hop, hstep, hlead⟩ := hsteps' ip hipm hlt
    refine ⟨w₁, op, hw, hop, hstep.congr (fun r hr => ?_) (fun next hnext r hr => ?_),
      fun next hnext => ?_⟩
    · rwa [splice_of_le hipm]
    · rwa [splice_of_le (hlead next hnext).1] at hr
    · have := hlead next hnext
      omega

/-- A test that chooses between two stretches of code. -/
theorem Flow.choose (h : T.Flow i k P Q) (htest : T.Paired k w .jumpIfFalse) (htarget : w.bx = m + 1)
    (hreads : Q w.a) (hbody : T.Flow (k + 1) m Q R) (hend : T.Paired m w' .jump) (hj : w'.bx = j)
    (helse : T.Flow (m + 1) j Q R) : T.Flow i j P R := by
  refine h.trans ?_
  have hle := hbody.1
  have hle' := helse.1
  obtain ⟨D, hstart, hstart', rfl, hsteps⟩ := hbody.choice hend hj helse
  refine ⟨by omega, splice (k + 1) (fun _ => Q) D, fun r hr => ?_, splice_of_le (by omega),
    fun ip hip hlt => ?_⟩
  · rwa [splice_of_lt (by omega)] at hr
  · rcases Nat.eq_or_lt_of_le hip with rfl | hip
    · refine ⟨w, _, htest.here, htest.opcode, ⟨htest.twin, fun r hr => ?_, fun next hnext r hr => ?_,
        fun he => nomatch he⟩, fun next hnext => ?_⟩
      · rw [splice_of_lt (by omega)]
        exact hr ▸ hreads
      · rw [splice_of_lt (by omega)]
        rcases hnext with rfl | rfl
        · rw [splice_of_le (Nat.le_refl _)] at hr
          exact .inl ⟨hstart r hr, Opcode.spares_of_ne (by decide) w r⟩
        · rw [htarget, splice_of_le (by omega)] at hr
          exact .inl ⟨hstart' r hr, Opcode.spares_of_ne (by decide) w r⟩
      · rcases hnext with rfl | rfl <;> omega
    · obtain ⟨w₁, op, hw, hop, hstep, hlead⟩ := hsteps ip hip hlt
      refine ⟨w₁, op, hw, hop, hstep.congr (fun r hr => ?_) (fun next hnext r hr => ?_),
        fun next hnext => ⟨Nat.le_trans (Nat.le_succ k) (hlead next hnext).1, (hlead next hnext).2⟩⟩
      · rwa [splice_of_le hip]
      · rwa [splice_of_le (hlead next hnext).1] at hr

/-- A loop: what has been written when it starts has been written when its body ends. -/
theorem Flow.loop (h : T.Flow i k P Q) (htest : T.Paired k w .jumpIfFalse) (htarget : w.bx = m + 1)
    (hreads : Q w.a) (hbody : T.Flow (k + 1) m Q R) (hback : T.Paired m w' .jump) (hi : w'.bx = i)
    (hPQ : ∀ r, P r → Q r) (hPR : ∀ r, P r → R r) : T.Flow i (m + 1) P P := by
  obtain ⟨hle, D, hstart, rfl, hsteps⟩ := h
  obtain ⟨hle', D', hstart', rfl, hsteps'⟩ := hbody
  refine ⟨by omega, splice (k + 1) D (splice (m + 1) D' fun _ => P), fun r hr => ?_, ?_,
    fun ip hip hlt => ?_⟩
  · rw [splice_of_lt (by omega)] at hr
    exact hstart r hr
  · rw [splice_of_le (by omega), splice_of_le (Nat.le_refl _)]
  · rcases Nat.lt_trichotomy ip k with hipk | rfl | hipk
    · obtain ⟨w₁, op, hw, hop, hstep, hlead⟩ := hsteps ip hip hipk
      refine ⟨w₁, op, hw, hop, hstep.congr (fun r hr => ?_) (fun next hnext r hr => ?_),
        fun next hnext => ?_⟩
      · rwa [splice_of_lt (by omega)]
      · have := hlead next hnext
        rwa [splice_of_lt (by omega)] at hr
      · have := hlead next hnext
        omega
    · refine ⟨w, _, htest.here, htest.opcode, ⟨htest.twin, fun r hr => ?_, fun next hnext r hr => ?_,
        fun he => nomatch he⟩, fun next hnext => ?_⟩
      · rw [splice_of_lt (by omega)]
        exact hr ▸ hreads
      · rw [splice_of_lt (by omega)]
        rcases hnext with rfl | rfl
        · rw [splice_of_le (Nat.le_refl _), splice_of_lt (by omega)] at hr
          exact .inl ⟨hstart' r hr, Opcode.spares_of_ne (by decide) w r⟩
        · rw [htarget, splice_of_le (by omega), splice_of_le (Nat.le_refl _)] at hr
          exact .inl ⟨hPQ r hr, Opcode.spares_of_ne (by decide) w r⟩
      · rcases hnext with rfl | rfl <;> omega
    · rcases Nat.lt_or_eq_of_le (Nat.le_of_lt_succ hlt) with hipm | rfl
      · obtain ⟨w₁, op, hw, hop, hstep, hlead⟩ := hsteps' ip hipk hipm
        refine ⟨w₁, op, hw, hop, hstep.congr (fun r hr => ?_) (fun next hnext r hr => ?_),
          fun next hnext => ?_⟩
        · rwa [splice_of_le hipk, splice_of_lt (by omega)]
        · have := hlead next hnext
          rwa [splice_of_le this.1, splice_of_lt (by omega)] at hr
        · have := hlead next hnext
          omega
      · have hnext : ∀ next, Opcode.Leads .jump w' ip next → next = i := fun next h => h.trans hi
        refine ⟨w', _, hback.here, hback.opcode, ⟨hback.twin, fun r hr => hr.elim,
          fun next h r hr => ?_, fun he => nomatch he⟩, fun next h => ?_⟩
        · rw [hnext next h, splice_of_lt (by omega)] at hr
          rw [splice_of_le hipk, splice_of_lt (by omega)]
          exact .inl ⟨hPR r (hstart r hr), Opcode.spares_of_ne (by decide) w' r⟩
        · rw [hnext next h]
          omega

end Twins

/-! ## Whole functions -/

/-- The code of a function with that many arguments has its twin from its start to its end. -/
structure Twins.Throughout (T : Twins) (arity : Nat) : Prop where
  size : T.other.size = T.code.size
  steps : ∃ D : Nat → Nat → Prop, (∀ r, D 0 r → r < arity) ∧
    ∀ (ip : Nat) (w : Word) (op : Opcode), T.code[ip]? = some w → w.opcode? = some op →
      T.Step D ip w op

/-- Code whose last instruction is inside a stretch has its twin throughout. -/
theorem Twins.Flow.throughout {T : Twins} {arity : Nat} {P Q : Nat → Prop}
    (h : T.Flow 0 T.code.size P Q) (hP : ∀ r, P r → r < arity)
    (hsize : T.other.size = T.code.size) : T.Throughout arity := by
  obtain ⟨-, D, hstart, -, hsteps⟩ := h
  refine ⟨hsize, D, fun r hr => hP r (hstart r hr), fun ip w op hw hop => ?_⟩
  obtain ⟨w', op', hw', hop', hstep, -⟩ :=
    hsteps ip (Nat.zero_le ip) (Array.getElem?_eq_some_iff.1 hw).1
  obtain rfl := Option.some.inj (hw.symm.trans hw')
  obtain rfl := Option.some.inj (hop.symm.trans hop')
  exact hstep

/-- Code that has a twin writes its registers before it reads them. -/
theorem Twins.Throughout.definite {T : Twins} {arity : Nat} (h : T.Throughout arity) :
    Definite arity T.code := by
  obtain ⟨D, hstart, hsteps⟩ := h.steps
  have hwritten : Written T.code D :=
    { reads := fun hw hop => (hsteps _ _ _ hw hop).reads _
      leads := fun hw hop hleads => (hsteps _ _ _ hw hop).writes _ hleads _ }
  exact hwritten.definite hstart

/-- Each word is its own twin, if the constant that it may load is. -/
theorem Twins.same_self {T : Twins} (hshift : T.shift = 0) {op : Opcode} {w : Word}
    (hconstants : op = .loadConst → T.constants w.bx w.bx) : T.Same op w w := by
  cases op <;> simp [Twins.Same, hshift, hconstants]

/-- Twins stay twins when more constants belong together. -/
theorem Twins.Same.mono {T T' : Twins} {op : Opcode} {w w' : Word} (h : T.Same op w w')
    (hshift : T'.shift = T.shift) (hconstants : ∀ i j, T.constants i j → T'.constants i j) :
    T'.Same op w w' := by
  cases op with
  | loadConst => exact ⟨h.1, hconstants _ _ h.2⟩
  | jump => exact Eq.trans h (by rw [hshift])
  | jumpIfFalse | jumpIfTrue => exact ⟨h.1, h.2.trans (by rw [hshift])⟩
  | _ => exact h

end ScriptMachine.Bytecode
