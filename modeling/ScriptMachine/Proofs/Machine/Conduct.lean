import Mathlib.Tactic.SplitIfs

/-!
# Actions before and after

What an action does is said by a condition on the state before it, one on its result and the state
after it, and one on its error and the state that it leaves then. Conditions are passed along the
steps of an action.
-/

namespace ScriptMachine

/-- From a state where `P` holds, the action ends in a state where `Q` holds of its result, or fails
in a state where `E` holds of its error. -/
def Runs {ε σ α : Type} (P : σ → Prop) (act : EStateM ε σ α) (Q : α → σ → Prop)
    (E : ε → σ → Prop) : Prop :=
  ∀ s, P s →
    match act s with
    | .ok x s' => Q x s'
    | .error e s' => E e s'

namespace Runs

variable {ε σ α β : Type} {P P' : σ → Prop} {Q Q' : α → σ → Prop} {R : β → σ → Prop}
  {E : ε → σ → Prop} {act : EStateM ε σ α}

theorem ok (h : Runs P act Q E) {s s' : σ} {x : α} (hs : P s) (hx : act s = .ok x s') :
    Q x s' := by
  have := h s hs
  rwa [hx] at this

theorem error (h : Runs P act Q E) {s s' : σ} {e : ε} (hs : P s) (he : act s = .error e s') :
    E e s' := by
  have := h s hs
  rwa [he] at this

/-- The ends of an action may be looked at one by one. -/
theorem of_eq (hok : ∀ s x s', P s → act s = .ok x s' → Q x s')
    (herror : ∀ s e s', P s → act s = .error e s' → E e s') : Runs P act Q E := by
  intro s hs
  cases hx : act s with
  | ok x s' => exact hok s x s' hs hx
  | error e s' => exact herror s e s' hs hx

theorem pure (x : α) (h : ∀ s, P s → Q x s) : Runs P (pure x) Q E :=
  fun s hs => h s hs

theorem throw (e : ε) (h : ∀ s, P s → E e s) : Runs P (throw e) Q E :=
  fun s hs => h s hs

theorem bind {next : α → EStateM ε σ β} (h : Runs P act Q E)
    (hnext : ∀ x, Runs (Q x) (next x) R E) : Runs P (act >>= next) R E := by
  intro s hs
  have hact := h s hs
  show match EStateM.bind act next s with
    | .ok x s' => R x s'
    | .error e s' => E e s'
  unfold EStateM.bind
  cases hx : act s with
  | ok x s' =>
    rw [hx] at hact
    exact hnext x s' hact
  | error e s' =>
    rw [hx] at hact
    exact hact

theorem weaken (h : Runs P act Q E) (hP : ∀ s, P' s → P s) (hQ : ∀ x s, Q x s → Q' x s) :
    Runs P' act Q' E := by
  intro s hs
  have hact := h s (hP s hs)
  cases hx : act s with
  | ok x s' =>
    rw [hx] at hact
    exact hQ x s' hact
  | error e s' =>
    rw [hx] at hact
    exact hact

/-- A step that hands back the state as its result. -/
theorem get : Runs P (get : EStateM ε σ σ) (fun x s => P s ∧ x = s) E :=
  fun _ hs => ⟨hs, rfl⟩

/-- A condition that does not depend on the state can be assumed. -/
theorem assume {p : Prop} (h : p → Runs P act Q E) : Runs (fun s => p ∧ P s) act Q E :=
  fun s hs => h hs.1 s hs.2

end Runs

/-! ## Two actions side by side

Two actions run side by side when, from related states, both hand back results or both fail with one
error, in states that are related again. The second action may also be excused: it ends in a state
that is full, and then nothing is said of either.
-/

variable {ε σ α β : Type}

/-- The state that an action ends in. -/
def endState : EStateM.Result ε σ α → σ
  | .ok _ s => s
  | .error _ s => s

/-- Two ends that go together. -/
inductive Matched (full : σ → Prop) (Q : α → α → σ → σ → Prop) (E : σ → σ → Prop) :
    EStateM.Result ε σ α → EStateM.Result ε σ α → Prop
  | ok {x y : α} {s t : σ} (h : Q x y s t) : Matched full Q E (.ok x s) (.ok y t)
  | error {e : ε} {s t : σ} (h : E s t) : Matched full Q E (.error e s) (.error e t)
  | full {r r' : EStateM.Result ε σ α} (h : full (endState r')) : Matched full Q E r r'

/-- From states related by `P`, the actions end in states related by `Q` together with their
results, or both fail with one error in states related by `E`, or the second state is full. -/
def Alongside (full : σ → Prop) (P : σ → σ → Prop) (act act' : EStateM ε σ α)
    (Q : α → α → σ → σ → Prop) (E : σ → σ → Prop) : Prop :=
  ∀ s t, P s t → Matched full Q E (act s) (act' t)

/-- No state is full. -/
def never (_ : σ) : Prop :=
  False

namespace Alongside

variable {full : σ → Prop} {P P' : σ → σ → Prop} {Q Q' : α → α → σ → σ → Prop}
  {R : β → β → σ → σ → Prop} {E : σ → σ → Prop} {act act' : EStateM ε σ α}

theorem pure {x y : α} (h : ∀ s t, P s t → Q x y s t) :
    Alongside full P (pure x : EStateM ε σ α) (pure y) Q E :=
  fun s t hst => .ok (h s t hst)

theorem throw {e e' : ε} (he : e = e') (h : ∀ s t, P s t → E s t) :
    Alongside full P (throw e : EStateM ε σ α) (throw e') Q E := by
  intro s t hst
  subst he
  exact .error (h s t hst)

/-- What follows may depend on the states, once they have been looked at. -/
theorem bindGet {next next' : σ → EStateM ε σ α}
    (h : ∀ s t, P s t → Alongside full (fun s' t' => s' = s ∧ t' = t) (next s) (next' t) Q E) :
    Alongside full P (MonadState.get >>= next) (MonadState.get >>= next') Q E :=
  fun s t hst => h s t hst s t ⟨rfl, rfl⟩

/-- Where `full` states stay full, one action may follow another. -/
theorem bindFull {next next' : α → EStateM ε σ β} (h : Alongside full P act act' Q E)
    (hnext : ∀ x y, Alongside full (Q x y) (next x) (next' y) R E)
    (hfull : ∀ y t, full t → full (endState (next' y t))) :
    Alongside full P (act >>= next) (act' >>= next') R E := by
  intro s t hst
  have hact := h s t hst
  show Matched full R E (EStateM.bind act next s) (EStateM.bind act' next' t)
  unfold EStateM.bind
  generalize act s = r at hact
  generalize act' t = r' at hact
  cases hact with
  | ok hq => exact hnext _ _ _ _ hq
  | error he => exact .error he
  | full hf =>
    cases r' with
    | ok y t' => exact .full (hfull y t' hf)
    | error e t' => exact .full hf

/-- After actions that are never excused, others may follow. -/
theorem bind {next next' : α → EStateM ε σ β} (h : Alongside never P act act' Q E)
    (hnext : ∀ x y, Alongside full (Q x y) (next x) (next' y) R E) :
    Alongside full P (act >>= next) (act' >>= next') R E := by
  intro s t hst
  have hact := h s t hst
  show Matched full R E (EStateM.bind act next s) (EStateM.bind act' next' t)
  unfold EStateM.bind
  generalize act s = r at hact
  generalize act' t = r' at hact
  cases hact with
  | ok hq => exact hnext _ _ _ _ hq
  | error he => exact .error he
  | full hf => exact hf.elim

theorem weaken (h : Alongside full P act act' Q E) (hP : ∀ s t, P' s t → P s t)
    (hQ : ∀ x y s t, Q x y s t → Q' x y s t) : Alongside full P' act act' Q' E := by
  intro s t hst
  have hact := h s t (hP s t hst)
  generalize act s = r at hact ⊢
  generalize act' t = r' at hact ⊢
  cases hact with
  | ok hq => exact .ok (hQ _ _ _ _ hq)
  | error he => exact .error he
  | full hf => exact .full hf

/-- Actions that are never excused run side by side whatever counts as full. -/
theorem relax (h : Alongside never P act act' Q E) : Alongside full P act act' Q E := by
  intro s t hst
  have hact := h s t hst
  generalize act s = r at hact ⊢
  generalize act' t = r' at hact ⊢
  cases hact with
  | ok hq => exact .ok hq
  | error he => exact .error he
  | full hf => exact hf.elim

/-- A condition that does not depend on the states can be assumed. -/
theorem assume {p : Prop} (h : p → Alongside full P act act' Q E) :
    Alongside full (fun s t => p ∧ P s t) act act' Q E :=
  fun s t hst => h hst.1 s t hst.2

end Alongside

end ScriptMachine
