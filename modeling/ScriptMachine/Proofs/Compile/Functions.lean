import ScriptMachine.Proofs.Compile.Layout
import ScriptMachine.Proofs.Compile.LaidOut

/-!
# Compiled functions

A function is compiled beside the main body, which waits. Its parameters are the first locals, its body
is laid out in their scope, and what is finished is the code of its declaration.
-/

namespace ScriptMachine.Compile

open Source Bytecode Evaluation

/-! ## Finished bodies -/

/-- The tables of `b` are there in a later table of strings. -/
def StringsIn (xs ys : Array String) : Prop :=
  (∀ (i : Nat) (s : String), xs[i]? = some s → ys[i]? = some s) ∧ ys.size ≤ 2 ^ 32

theorem size_le_of_stringsIn {xs ys : Array String} (h : StringsIn xs ys) : xs.size ≤ ys.size := by
  rcases Nat.lt_or_ge ys.size xs.size with hlt | hge
  · have hget := h.1 ys.size xs[ys.size] (Array.getElem?_eq_getElem hlt)
    rw [Array.getElem?_eq_none (Nat.le_refl _)] at hget
    cases hget
  · exact hge

/-- A finished body keeps to the limits of the format. -/
structure SoundPrototype (strings prototypes : Nat) (p : Prototype) : Prop where
  constants_size : p.constants.size ≤ maxWide + 1
  constants : ∀ k ∈ p.constants, Link.constantOk strings prototypes k = true
  arity_le : p.arity.toNat ≤ p.slots.toNat
  slots_le : p.slots.toNat ≤ 255

theorem SoundPrototype.mono {s s' n n' : Nat} {p : Prototype} (h : SoundPrototype s n p)
    (hs : s ≤ s') (hn : n ≤ n') : SoundPrototype s' n' p :=
  { h with constants := fun k hk => constantOk_mono hs hn (h.constants k hk) }

theorem slots_toPrototype {f : Body} (h : f.maxSlots ≤ 255) :
    f.toPrototype.slots.toNat = max f.maxSlots 1 := by
  show (UInt16.ofNat (max f.maxSlots 1)).toNat = _
  rw [UInt16.toNat_ofNat', Nat.mod_eq_of_lt]
  have := Nat.max_le.2 ⟨h, show 1 ≤ 255 by decide⟩
  omega

theorem soundPrototype_of_body {s n : Nat} {f : Body} (h : f.Sound s n) (ha : f.arity ≤ f.maxSlots) :
    SoundPrototype s n f.toPrototype where
  constants_size := h.constants_size
  constants := h.constants
  arity_le := by
    rw [slots_toPrototype h.slots_le]
    show (UInt8.ofNat f.arity).toNat ≤ _
    rw [UInt8.toNat_ofNat']
    exact Nat.le_trans (Nat.mod_le _ _) (Nat.le_trans ha (Nat.le_max_left _ _))
  slots_le := by
    rw [slots_toPrototype h.slots_le]
    exact Nat.max_le.2 ⟨h.slots_le, by decide⟩

/-- The finished code of a body is what the builder holds. -/
theorem finishes_coding {b : Builder} {strings : Array String} (hb : b.Sound)
    (hs : StringsIn b.strings strings) (n : Nat) :
    Finishes (coding strings b.waiting.isSome b.body.toPrototype) n b where
  code _ _ _ := rfl
  slots := by
    show _ ≤ b.body.toPrototype.slots.toNat
    rw [slots_toPrototype (Body.Sound.slots_le hb)]
    exact Nat.le_max_left _ _
  int k m hk := ⟨_, hk, .int m⟩
  text k i s hk hi := ⟨_, hk, .text (hs.1 _ s hi)⟩
  strings := Nat.le_trans (size_le_of_stringsIn hs) hs.2
  returns := rfl

/-! ## From parameters to a finished body -/

/-- The parameters of a function become its first locals. -/
theorem declareParams_ok {params earlier : List String} {i : Nat} {b b' : Builder} {u : Unit}
    (h : declareParams i earlier params b = .ok (u, b')) (hb : b.context.top ≤ b.body.maxSlots) :
    Grows b.next b b' ∧ b'.next = b.next ∧
      b'.context = { b.context with
        locals := (params.zipIdx i).reverse.map (fun p => ⟨p.1, b.context.depth, p.2, false⟩) ++
          b.context.locals } ∧
      params.Nodup ∧ ∀ p ∈ params, p ∉ earlier := by
  induction params generalizing i earlier b with
  | nil =>
    obtain ⟨-, rfl⟩ := pure_eq_ok.1 h
    exact ⟨.refl _ _, rfl, rfl, List.nodup_nil, by simp⟩
  | cons param rest ih =>
    unfold declareParams at h
    split_ifs at h with hmem
    · obtain ⟨_, _, hthrow, -⟩ := bind_eq_ok.1 h
      exact (throw_eq_ok.1 hthrow).elim
    · obtain ⟨u₁, b₁, h₁, h₂⟩ := bind_eq_ok.1 h
      obtain ⟨hg₁, hn₁, hc₁⟩ := declare_ok (n := b.next) h₁ hb
      have htop : b₁.context.top ≤ b₁.body.maxSlots := by
        rw [hc₁]
        exact Nat.le_trans hb hg₁.slots
      obtain ⟨hg₂, hn₂, hc₂, hnodup, hfresh⟩ := ih h₂ htop
      refine ⟨hg₁.trans (hn₁ ▸ hg₂), hn₂.trans hn₁, ?_, List.nodup_cons.2 ⟨?_, hnodup⟩, ?_⟩
      · rw [hc₂, hc₁]
        simp [List.zipIdx_cons]
      · intro hin
        exact hfresh param hin List.mem_cons_self
      · intro p hp
        rcases List.mem_cons.1 hp with rfl | hp
        · simpa using hmem
        · exact fun hin => hfresh p hp (List.mem_cons_of_mem _ hin)

/-- The main body after a function was compiled beside it. -/
theorem expands_function {b b₁ : Builder} {f : Body} {p : Prototype} {n : Nat} {names : Names}
    {staged : List Definition} {waiting : Option Body}
    (hg : Grows 0 ⟨names, f, waiting, b.prototypes, b.strings, staged⟩ b₁) :
    Expands n b ⟨names, b.body, b.waiting, b.prototypes.push p, b₁.strings, staged⟩ := by
  refine ⟨rfl, rfl, rfl, hg.strings, hg.strings_size, fun _ _ h => h, Nat.le_refl _, Nat.le_refl _,
    fun _ _ => rfl, fun h => h.mono hg.strings_size ?_⟩
  rw [Array.size_push]
  exact Nat.le_succ _

/-- Makes the parameters of a function its first locals, and takes a register for its result. -/
def startFunction (params : List String) : Building Nat := do
  updateBody Body.beginScope
  declareParams 0 [] params
  takeReg

/-- Compiles all that a function does. -/
def functionCode (params : List String) (body : Block) : Building Unit := do
  let result ← startFunction params
  compileBlock body result
  emitABC .ret result 0 0

/-- Compiles a function beside the main body; its index. -/
def compileFunction (name : String) (params : List String) (body : Block) : Building Nat := do
  enterFunction name params.length
  functionCode params body
  leaveFunction

/-- The builder at the start of a function. -/
def Builder.entered (b : Builder) (name : String) (arity : Nat) : Builder :=
  ⟨b.names, .new name arity, some b.body, b.prototypes, b.strings, b.staged⟩

theorem Builder.sound_entered (b : Builder) (name : String) {arity : Nat} (h : arity ≤ 255) :
    (b.entered name arity).Sound :=
  ⟨Nat.zero_le _, fun k hk => (Array.not_mem_empty k hk).elim, Nat.le_refl _, h⟩

section

variable {b b' : Builder} {name : String} {params : List String} {body : Block} {u : Unit}

/-- The scope of a function's body is that of its parameters. -/
theorem startFunction_ok {result : Nat} (hcount : params.length ≤ maxArguments)
    (h : startFunction params (b.entered name params.length) = .ok (result, b')) :
    result = params.length ∧ Grows 0 (b.entered name params.length) b' ∧ b'.context.Nested ∧
      b'.scope = paramScope params ∧ b'.next = 0 ∧ params.Nodup ∧
      params.length < b'.body.maxSlots := by
  obtain ⟨u₁, b₁, h₁, h⟩ := bind_eq_ok.1 h
  obtain ⟨u₂, b₂, h₂, h₃⟩ := bind_eq_ok.1 h
  have hsound := b.sound_entered name (Nat.le_succ_of_le hcount)
  obtain ⟨hg₁, hc₁, hn₁⟩ := beginScope_ok (n := 0) h₁ hsound.top_le
  obtain ⟨hg₂, hn₂, hc₂, hnodup, -⟩ := declareParams_ok h₂ (hg₁.sound hsound).top_le
  obtain ⟨hr, -, hg₃, hc₃, hn₃, hslots⟩ := takeReg_ok (n := 0) h₃
  have hresult : result = params.length := by
    rw [hr, hc₂, hc₁]
    rfl
  refine ⟨hresult, hg₁.trans ((hg₂.weaken (Nat.zero_le _)).trans hg₃), ?_, ?_, ?_, hnodup,
    hresult ▸ hslots⟩
  · rw [hc₃, hc₂, hc₁]
    intro l hl
    simp only [Context.take, Context.deepen, List.mem_append, List.mem_map] at hl
    rcases hl with ⟨p, -, rfl⟩ | hl
    · exact Nat.le_refl _
    · cases hl
  · show b'.context.scope = _
    rw [hc₃, hc₂, hc₁]
    simp [Context.scope, Context.take, Context.deepen, Builder.context, Body.context, Body.new,
      Builder.entered, paramScope, Function.comp_def]
  · rw [hn₃, hn₂, hn₁]
    rfl

/-- The code of a function is that of its body, and an instruction that returns the result. -/
theorem functionCode_ok (hcount : params.length ≤ maxArguments)
    (h : functionCode params body (b.entered name params.length) = .ok (u, b')) :
    Grows 0 (b.entered name params.length) b' ∧ params.Nodup ∧
      params.length < b'.body.maxSlots ∧ ∀ C, Finishes C 0 b' →
        ∃ k, BlockAt C b.names body (paramScope params) params.length 0 k ∧
          C.At k (.abc .ret params.length 0 0) ∧ b'.next = k + 1 := by
  obtain ⟨result, b₁, h₁, h⟩ := bind_eq_ok.1 h
  obtain ⟨u₂, b₂, h₂, h₃⟩ := bind_eq_ok.1 h
  obtain ⟨rfl, hg₁, hnested, hscope, hstart, hnodup, hslots⟩ := startFunction_ok hcount h₁
  have hsound := hg₁.sound (b.sound_entered _ (Nat.le_succ_of_le hcount))
  have l := compiles_body body _ b₁ b₂ u₂ h₂ hsound hnested
  obtain ⟨hg₃, -, hn₃, hw₃⟩ := emitABC_ok h₃ (Nat.le_refl b₂.next)
  refine ⟨hg₁.trans ((l.grows.weaken (Nat.zero_le _)).trans (hg₃.weaken (Nat.zero_le _))), hnodup,
    ?_, fun C hC => ⟨b₂.next, ?_, hC.at_of_code (Nat.zero_le _) hw₃, hn₃⟩⟩
  · exact Nat.lt_of_lt_of_le hslots (Nat.le_trans l.grows.slots hg₃.slots)
  · have hlaid := l.laid C ((hC.later (Nat.zero_le _)).before hg₃)
    rwa [hg₁.names, hscope, hstart] at hlaid

end

/-- From `b` to `b'`, the function that `f` declares was compiled beside the main body, and finished
as `p`. -/
structure AddsFunction (b b' : Builder) (index : Nat) (f : Closure) (p : Prototype) : Prop where
  index : index = b.prototypes.size
  names : b'.names = b.names
  staged : b'.staged = b.staged
  context : b'.context = b.context
  next : b'.next = b.next
  expands : Expands b.next b b'
  prototypes : b'.prototypes = b.prototypes.push p
  sound : SoundPrototype b'.strings.size b.prototypes.size p
  laid : ∀ strings, StringsIn b'.strings strings → FunctionAt strings p f

/-- The body of a function that is compiled is laid out. -/
theorem lays_function {b b' : Builder} {f : Closure} {index : Nat} (hwaiting : b.waiting = none)
    (hcount : f.params.length ≤ maxArguments) (hnames : b.names = f.names)
    (h : compileFunction f.name f.params f.body b = .ok (index, b')) :
    ∃ p, AddsFunction b b' index f p := by
  obtain ⟨u₁, b₁, h₁, h⟩ := bind_eq_ok.1 h
  obtain ⟨u₂, b₂, h₂, h₃⟩ := bind_eq_ok.1 h
  cases h₁
  cases h₃
  obtain ⟨hg, hnodup, hslots, hlaid⟩ := functionCode_ok (b := b) hcount h₂
  have hsound : b₂.Sound := hg.sound (b.sound_entered _ (Nat.le_succ_of_le hcount))
  have harity : b₂.body.arity = f.params.length := hg.arity
  have hsize : b₂.prototypes = b.prototypes := hg.prototypes
  have hwait : b₂.waiting = some b.body := hg.waiting
  refine ⟨b₂.body.toPrototype, congrArg Array.size hsize, hg.names, hg.staged, ?_, ?_, ?_,
    congrArg (Array.push · _) hsize, ?_, fun strings hs => ?_⟩
  · show (b₂.waiting.getD b₂.body).context = _
    rw [hwait]
    rfl
  · show (b₂.waiting.getD b₂.body).here = _
    rw [hwait]
    rfl
  · have hexp := expands_function (p := b₂.body.toPrototype) (n := b.next) hg
    rw [hwaiting] at hexp
    simp only [hg.names, hg.staged, hwait, hsize, Option.getD_some]
    exact hexp
  · rw [← hsize]
    exact soundPrototype_of_body hsound (harity ▸ Nat.le_of_lt hslots)
  · have hfin := finishes_coding hsound hs 0
    have hreturns : b₂.waiting.isSome = true := by
      rw [hwait]
      rfl
    rw [hreturns] at hfin
    obtain ⟨k, hbody, hret, hend⟩ := hlaid _ hfin
    refine ⟨hg.name, ?_, hnodup, ⟨?_, ?_⟩, k, hnames ▸ hbody, hret, hend⟩
    · show (UInt8.ofNat b₂.body.arity).toNat = _
      rw [harity, UInt8.toNat_ofNat', Nat.mod_eq_of_lt]
      exact Nat.lt_of_le_of_lt hcount (by decide)
    · exact Nat.lt_of_le_of_lt hcount (by decide)
    · exact Nat.lt_of_lt_of_le hslots hfin.slots

end ScriptMachine.Compile
