import ScriptMachine.Proofs.Compile.Fragments
import ScriptMachine.Proofs.Scoping.Sites

/-!
# What a compilation looks at

A step of a compilation sees of its builder only the names, the locals and where it is. It *checks*
sites when, in whatever builder that looks like this, it comes to an end only if all of them are
allowed, and otherwise stops at the first offence or at a limit of the instruction format. Steps that
follow each other check their sites in a row.
-/

namespace ScriptMachine.Scoping

open Source Compile

/-- The limits of the instruction format. -/
def IsLimit : CompileError → Prop
  | .registerOverflow | .tooManyConstants | .tooManyArguments | .tooManyGlobals | .jumpTooFar => True
  | _ => False

/-- No offence is reported as a limit. -/
theorem Site.Offends.not_isLimit {s : Site} {e : CompileError} (h : s.Offends e) : ¬ IsLimit e := by
  cases h <;> exact id

theorem FirstOffence.not_isLimit {sites : List Site} {e : CompileError} (h : FirstOffence sites e) :
    ¬ IsLimit e := by
  obtain ⟨-, s, -, -, -, hs⟩ := h
  exact hs.not_isLimit

/-! ## Views -/

/-- What a step sees: the names, the locals and the depth of the scope, and the same of the main body
if that waits. -/
structure View where
  names : Names
  locals : List Local
  depth : Nat
  outer : Option (List Local × Nat)

/-- What is seen of a builder. -/
def view (b : Builder) : View :=
  ⟨b.names, b.body.locals, b.body.depth, b.waiting.map fun f => (f.locals, f.depth)⟩

namespace View

/-- Inside a scope. -/
def deepen (v : View) : View :=
  { v with depth := v.depth + 1 }

/-- After the end of a scope. -/
def surface (v : View) : View :=
  { v with
    depth := v.depth - 1
    locals := v.locals.dropWhile fun l => v.depth - 1 < l.depth }

/-- Inside a function. -/
def enter (v : View) : View :=
  ⟨v.names, [], 0, some (v.locals, v.depth)⟩

/-- Whether neither a function nor a block is around. -/
def atTopLevel (v : View) : Bool :=
  v.outer.isNone && v.depth == 0

/-- A view shows the surroundings of a place, and no local is deeper than the scope. -/
structure Shows (v : View) (s : Surroundings) : Prop where
  locals : v.locals.map (fun l => (l.name, l.mutable)) = s.locals
  globals : ∀ name, (v.names.global? name).map GlobalName.mutable =
    (s.staged.lookup name).or ((s.committed.global? name).map GlobalName.mutable)
  primitives : v.names.primitives = s.committed.primitives
  inFunction : v.outer.isSome = s.inFunction
  topLevel : v.atTopLevel = s.topLevel
  nested : ∀ l ∈ v.locals, l.depth ≤ v.depth

/-- From `v` to `w`, locals were added to the scope, or names at the top level. -/
structure Follows (v w : View) : Prop where
  depth : w.depth = v.depth
  outer : w.outer = v.outer
  locals : ∃ new, w.locals = new ++ v.locals ∧ ∀ l ∈ new, l.depth = v.depth
  names : v.atTopLevel = false → w.names = v.names

namespace Follows

variable {u v w : View}

theorem refl (v : View) : Follows v v :=
  ⟨rfl, rfl, ⟨[], rfl, fun _ h => absurd h List.not_mem_nil⟩, fun _ => rfl⟩

theorem atTopLevel (h : Follows v w) : w.atTopLevel = v.atTopLevel := by
  rw [View.atTopLevel, View.atTopLevel, h.outer, h.depth]

theorem trans (h : Follows u v) (h' : Follows v w) : Follows u w where
  depth := h'.depth.trans h.depth
  outer := h'.outer.trans h.outer
  locals := by
    obtain ⟨new, hnew, hdepth⟩ := h.locals
    obtain ⟨new', hnew', hdepth'⟩ := h'.locals
    refine ⟨new' ++ new, by rw [hnew', hnew, List.append_assoc], fun l hl => ?_⟩
    rcases List.mem_append.1 hl with hl | hl
    · rw [hdepth' l hl, h.depth]
    · exact hdepth l hl
  names htop := (h'.names (h.atTopLevel.trans htop)).trans (h.names htop)

/-- A scope that closes leaves what there was before. -/
theorem surface (hv : ∀ l ∈ v.locals, l.depth ≤ v.depth) (h : Follows v.deepen w) :
    w.surface = v := by
  obtain ⟨new, hnew, hdepth⟩ := h.locals
  have hdeep : w.depth - 1 = v.depth := by
    rw [h.depth]
    rfl
  have hgone : ∀ l ∈ new, decide (v.depth < l.depth) = true := by
    intro l hl
    rw [decide_eq_true_iff, hdepth l hl]
    exact Nat.lt_succ_self _
  have hstay : v.locals.dropWhile (fun l => decide (v.depth < l.depth)) = v.locals := by
    cases hl : v.locals with
    | nil => rfl
    | cons l rest =>
      have hle := hv l (hl ▸ List.mem_cons_self)
      exact List.dropWhile_cons_of_neg (by simpa using hle)
  have hlocals : w.locals.dropWhile (fun l => decide (w.depth - 1 < l.depth)) = v.locals := by
    rw [hnew, hdeep, List.dropWhile_append_of_pos hgone]
    exact hstay
  have houter : w.outer = v.outer := h.outer
  have hnames : w.names = v.names := h.names (by simp [View.atTopLevel, View.deepen])
  unfold View.surface
  rw [hlocals, hdeep, hnames, houter]

end Follows

end View

/-! ## Steps -/

/-- The literals among the sites are made of digits. -/
def Numeral (sites : List Site) : Prop :=
  ∀ s ∈ sites, ∀ digits, s.use = .literal digits → Text.areDigits digits.toList = true

/-- Where a builder looks like `v`, the step checks the sites, and its result and what it leaves look
like `Q`. -/
def Checks {α : Type} (v : View) (act : Building α) (sites : List Site) (Q : α → View → Prop) :
    Prop :=
  Numeral sites → ∀ b, view b = v →
    (∀ x b', act b = .ok (x, b') → (∀ s ∈ sites, s.Allowed) ∧ Q x (view b')) ∧
      ∀ e, act b = .error e → IsLimit e ∨ FirstOffence sites e

/-- A step that no rule speaks about and that changes nothing of what is seen. -/
def Neutral {α : Type} (act : Building α) : Prop :=
  ∀ v, Checks v act [] fun _ w => w = v

section

variable {α β : Type} {v : View} {act : Building α} {next : α → Building β}
  {sites others : List Site} {P : α → View → Prop} {Q : β → View → Prop}

theorem bind_eq_error {b : Builder} {e : CompileError} (h : (act >>= next) b = .error e) :
    act b = .error e ∨ ∃ x b', act b = .ok (x, b') ∧ next x b' = .error e := by
  have hbind : (act >>= next) b = StateT.bind act next b := rfl
  rw [hbind] at h
  unfold StateT.bind at h
  cases hact : act b with
  | error e' =>
    rw [hact] at h
    cases h
    exact .inl rfl
  | ok r =>
    obtain ⟨x, b'⟩ := r
    rw [hact] at h
    exact .inr ⟨x, b', rfl, h⟩

/-- One step after the other checks the sites of the first and then those of the second. -/
theorem Checks.bind (h : Checks v act sites P)
    (hnext : ∀ x w, P x w → Checks w (next x) others Q) :
    Checks v (act >>= next) (sites ++ others) Q := by
  intro hdigits b hb
  have hact := h (fun s hs => hdigits s (List.mem_append_left _ hs)) b hb
  have hothers : Numeral others := fun s hs => hdigits s (List.mem_append_right _ hs)
  refine ⟨?_, ?_⟩
  · intro y b' hok
    obtain ⟨x, b₁, hx, hy⟩ := bind_eq_ok.1 hok
    obtain ⟨hsites, hP⟩ := hact.1 x b₁ hx
    obtain ⟨hallowed, hQ⟩ := (hnext x _ hP hothers b₁ rfl).1 y b' hy
    refine ⟨fun s hs => ?_, hQ⟩
    rcases List.mem_append.1 hs with hs | hs
    · exact hsites s hs
    · exact hallowed s hs
  · intro e herror
    rcases bind_eq_error herror with he | ⟨x, b₁, hx, he⟩
    · exact (hact.2 e he).imp_right .append_right
    · obtain ⟨hsites, hP⟩ := hact.1 x b₁ hx
      exact ((hnext x _ hP hothers b₁ rfl).2 e he).imp_right (.append_left hsites)

/-- After a step that changes nothing of what is seen. -/
theorem Checks.before (h : Checks v act sites fun _ w => w = v)
    (hnext : ∀ x, Checks v (next x) others Q) : Checks v (act >>= next) (sites ++ others) Q :=
  h.bind fun x _ hw => hw ▸ hnext x

/-- Before a step that changes nothing of what is seen. -/
theorem Checks.after {R : View → Prop} (h : Checks v act sites fun _ w => R w)
    (hnext : ∀ x, Neutral (next x)) : Checks v (act >>= next) sites fun _ w => R w := by
  have hboth : Checks v (act >>= next) (sites ++ []) fun _ w => R w :=
    h.bind fun x w hw hdigits b hb =>
      ⟨fun y b' hok => ⟨fun _ hs => absurd hs List.not_mem_nil,
        (hnext x w hdigits b hb).1 y b' hok |>.2 ▸ hw⟩, (hnext x w hdigits b hb).2⟩
  rwa [List.append_nil] at hboth

theorem Neutral.bind (h : Neutral act) (hnext : ∀ x, Checks v (next x) sites Q) :
    Checks v (act >>= next) sites Q :=
  (h v).before hnext

theorem Neutral.seq (h : Neutral act) (hnext : ∀ x, Neutral (next x)) : Neutral (act >>= next) :=
  fun v => h.bind fun x => hnext x v

theorem Checks.mono {Q' : α → View → Prop} (h : Checks v act sites P) (hQ : ∀ x w, P x w → Q' x w) :
    Checks v act sites Q' := by
  intro hdigits b hb
  obtain ⟨hok, herror⟩ := h hdigits b hb
  exact ⟨fun x b' hx => (hok x b' hx).imp_right (hQ x _), herror⟩

/-- A step may look at its builder first. -/
theorem Checks.get {next : Builder → Building α}
    (h : ∀ b, view b = v → Checks v (next b) sites P) :
    Checks v ((get : Building Builder) >>= next) sites P :=
  fun hdigits b hb => h b hb hdigits b hb

/-- A site that is refused ends the compilation. -/
theorem Checks.refused {s : Site} {e : CompileError} (h : s.Offends e) :
    Checks v (throw e : Building α) (s :: others) P := by
  intro _ b _
  refine ⟨fun x b' hok => (throw_eq_ok.1 hok).elim, fun e' he => ?_⟩
  cases he
  exact .inr (.of_offends h)

/-- A limit ends the compilation. -/
theorem Checks.limited {e : CompileError} (h : IsLimit e) :
    Checks v (throw e : Building α) sites P := by
  intro _ b _
  refine ⟨fun x b' hok => (throw_eq_ok.1 hok).elim, fun e' he => ?_⟩
  cases he
  exact .inl h

theorem Checks.refused_bind {s : Site} {e : CompileError} (h : s.Offends e) :
    Checks v ((throw e : Building α) >>= next) (s :: others) Q := by
  show Checks v _ ([s] ++ others) Q
  exact (Checks.refused h).bind fun _ _ (hnever : False) => hnever.elim

theorem Checks.limited_bind {e : CompileError} (h : IsLimit e) :
    Checks v ((throw e : Building α) >>= next) others Q := by
  show Checks v _ ([] ++ others) Q
  exact (Checks.limited h).bind fun _ _ (hnever : False) => hnever.elim

/-- A site that is allowed is passed. -/
theorem Checks.allowed {s : Site} (hs : s.Allowed) (h : Checks v act sites P) :
    Checks v act (s :: sites) P := by
  intro hdigits b hb
  obtain ⟨hok, herror⟩ := h (fun t ht => hdigits t (List.mem_cons_of_mem _ ht)) b hb
  refine ⟨fun x b' hx => ?_, fun e he => ?_⟩
  · obtain ⟨hallowed, hP⟩ := hok x b' hx
    refine ⟨fun t ht => ?_, hP⟩
    rcases List.mem_cons.1 ht with rfl | ht
    · exact hs
    · exact hallowed t ht
  · exact (herror e he).imp_right fun h =>
      h.append_left fun t ht => (List.mem_singleton.1 ht).symm ▸ hs

theorem Checks.pure {x : α} (h : P x v) : Checks v (pure x : Building α) [] P := by
  intro _ b hb
  refine ⟨fun y b' hok => ?_, fun e he => ?_⟩
  · obtain ⟨rfl, rfl⟩ := pure_eq_ok.1 hok
    exact ⟨fun _ hs => absurd hs List.not_mem_nil, hb ▸ h⟩
  · cases he

end

theorem neutral_pure {α : Type} (x : α) : Neutral (pure x : Building α) :=
  fun _ => .pure rfl

/-! ## Steps of the builder -/

/-- A change of the body under construction. -/
theorem checks_updateBody {v w : View} {change : Body → Body}
    (h : ∀ b, view b = v → view { b with body := change b.body } = w) :
    Checks v (updateBody change) [] fun _ w' => w' = w := by
  intro _ b hb
  refine ⟨fun x b' hok => ⟨fun _ hs => absurd hs List.not_mem_nil, ?_⟩, fun e he => ?_⟩
  · rw [updateBody_ok hok, h b hb]
  · cases he

/-- A change that no locals and no scopes take part in. -/
theorem neutral_updateBody {change : Body → Body}
    (h : ∀ f, (change f).locals = f.locals ∧ (change f).depth = f.depth) :
    Neutral (updateBody change) := by
  refine fun v => checks_updateBody fun b hb => ?_
  rw [← hb]
  unfold view
  rw [(h b.body).1, (h b.body).2]

theorem neutral_updateBody? {change : Body → Except CompileError Body}
    (h : ∀ f g, change f = .ok g → g.locals = f.locals ∧ g.depth = f.depth)
    (hlimit : ∀ f e, change f = .error e → IsLimit e) : Neutral (updateBody? change) := by
  intro v _ b hb
  refine ⟨fun x b' hok => ⟨fun _ hs => absurd hs List.not_mem_nil, ?_⟩, fun e he => .inl ?_⟩
  · obtain ⟨f, hf, rfl⟩ := updateBody?_eq_ok.1 hok
    rw [← hb]
    unfold view
    rw [(h _ f hf).1, (h _ f hf).2]
  · unfold updateBody? at he
    cases hchange : change b.body with
    | ok f => simp only [hchange] at he; cases he
    | error e' =>
      simp only [hchange] at he
      cases he
      exact hlimit _ _ hchange

theorem neutral_takeFromBody {α : Type} {take : Body → Except CompileError (α × Body)}
    (h : ∀ f x g, take f = .ok (x, g) → g.locals = f.locals ∧ g.depth = f.depth)
    (hlimit : ∀ f e, take f = .error e → IsLimit e) : Neutral (takeFromBody take) := by
  intro v _ b hb
  refine ⟨fun x b' hok => ⟨fun _ hs => absurd hs List.not_mem_nil, ?_⟩, fun e he => .inl ?_⟩
  · obtain ⟨f, hf, rfl⟩ := takeFromBody_eq_ok.1 hok
    rw [← hb]
    unfold view
    rw [(h _ x f hf).1, (h _ x f hf).2]
  · unfold takeFromBody at he
    cases htake : take b.body with
    | ok r => simp only [htake] at he; cases he
    | error e' =>
      simp only [htake] at he
      cases he
      exact hlimit _ _ htake

theorem neutral_takeReg : Neutral takeReg := by
  refine neutral_takeFromBody (fun f x g h => ?_) fun f e h => ?_
  · unfold Body.takeReg at h
    split_ifs at h
    cases h
    exact ⟨rfl, rfl⟩
  · unfold Body.takeReg at h
    split_ifs at h
    cases h
    trivial

theorem neutral_giveBackReg : Neutral giveBackReg :=
  neutral_updateBody fun _ => ⟨rfl, rfl⟩

theorem neutral_giveBackRegs (n : Nat) : Neutral (giveBackRegs n) :=
  neutral_updateBody fun _ => ⟨rfl, rfl⟩

theorem neutral_emitABC (op : Bytecode.Opcode) (x y z : Nat) : Neutral (emitABC op x y z) :=
  neutral_updateBody fun _ => ⟨rfl, rfl⟩

theorem neutral_emitABx (op : Bytecode.Opcode) (x y : Nat) : Neutral (emitABx op x y) :=
  neutral_updateBody fun _ => ⟨rfl, rfl⟩

theorem neutral_here : Neutral here :=
  fun _ => .get fun _ _ => .pure rfl

theorem neutral_jumpAhead (op : Bytecode.Opcode) (x : Nat) : Neutral (jumpAhead op x) :=
  neutral_here.seq fun _ => (neutral_emitABx op x 0).seq fun _ => neutral_pure _

theorem neutral_aimJump (pos : Nat) : Neutral (aimJump pos) := by
  refine neutral_updateBody? (fun f g h => ?_) fun f e h => ?_
  · unfold Body.aimJump at h
    split_ifs at h
    cases h
    exact ⟨rfl, rfl⟩
  · unfold Body.aimJump at h
    split_ifs at h
    cases h
    trivial

theorem neutral_jumpBack (start : Nat) : Neutral (updateBody? fun f => f.jumpBack start) := by
  refine neutral_updateBody? (fun f g h => ?_) fun f e h => ?_
  · unfold Body.jumpBack at h
    split_ifs at h
    cases h
    exact ⟨rfl, rfl⟩
  · unfold Body.jumpBack at h
    split_ifs at h
    cases h
    trivial

theorem neutral_constantIndex (k : Bytecode.Constant) : Neutral (constantIndex k) := by
  refine neutral_takeFromBody (fun f x g h => ?_) fun f e h => ?_
  · unfold Body.constantIndex at h
    split at h
    · cases h
      exact ⟨rfl, rfl⟩
    · split_ifs at h
      cases h
      exact ⟨rfl, rfl⟩
  · unfold Body.constantIndex at h
    split at h
    · cases h
    · split_ifs at h
      cases h
      trivial

theorem neutral_stringIndex (s : String) : Neutral (stringIndex s) := by
  intro v _ b hb
  unfold stringIndex
  cases b.strings.idxOf? s with
  | some i =>
    refine ⟨fun x b' hok => ?_, fun e he => ?_⟩
    · cases hok
      exact ⟨fun _ hs => absurd hs List.not_mem_nil, hb⟩
    · cases he
  | none =>
    refine ⟨fun x b' hok => ?_, fun e he => ?_⟩
    · cases hok
      exact ⟨fun _ hs => absurd hs List.not_mem_nil, hb⟩
    · cases he

theorem neutral_wideOperand (n : Nat) : Neutral (wideOperand n) := by
  intro v
  unfold wideOperand
  split_ifs
  · exact .limited (show IsLimit .tooManyGlobals from trivial)
  · exact .pure rfl

theorem neutral_loadConstant (k : Bytecode.Constant) (target : Nat) :
    Neutral (loadConstant k target) :=
  (neutral_constantIndex k).seq fun _ => neutral_emitABx _ _ _

theorem neutral_storeFunction (slot index : Nat) : Neutral (storeFunction slot index) :=
  (neutral_constantIndex _).seq fun _ => neutral_takeReg.seq fun _ =>
    (neutral_emitABx _ _ _).seq fun _ => (neutral_emitABx _ _ _).seq fun _ => neutral_giveBackReg

theorem checks_beginScope (v : View) :
    Checks v (updateBody Body.beginScope) [] fun _ w => w = v.deepen :=
  checks_updateBody fun _ hb => hb ▸ rfl

theorem checks_endScope (v : View) :
    Checks v (updateBody Body.endScope) [] fun _ w => w = v.surface :=
  checks_updateBody fun _ hb => hb ▸ rfl

end ScriptMachine.Scoping
