/-
  Outcomes of steps.

  Parsers, analysis and the machine are all steps on a state that end with a
  result or an error and keep the state either way.  A composite step succeeds
  exactly when its parts succeed one after the other (`bind_eq_ok`), and fails
  exactly when one part fails after those before it succeeded (`bind_eq_error`).
-/

namespace TinyScript

section
variable {ε σ α β : Type} {x : EStateM ε σ α} {f : α → EStateM ε σ β} {s s' : σ}

/-- A composite step after a first part that succeeds. -/
theorem bind_of_ok {a : α} (h : x s = .ok a s') : (x >>= f) s = f a s' := by
  show EStateM.bind x f s = _
  rw [EStateM.bind, h]

/-- A composite step after a first part that fails. -/
theorem bind_of_error {e : ε} (h : x s = .error e s') : (x >>= f) s = .error e s' := by
  show EStateM.bind x f s = _
  rw [EStateM.bind, h]

theorem bind_eq_ok {b : β} : (x >>= f) s = .ok b s' ↔ ∃ a t, x s = .ok a t ∧ f a t = .ok b s' := by
  constructor
  · intro h
    cases hx : x s with
    | ok a t => exact ⟨a, t, rfl, by rwa [bind_of_ok hx] at h⟩
    | error e t => rw [bind_of_error hx] at h; cases h
  · rintro ⟨a, t, hx, h⟩
    rw [bind_of_ok hx, h]

theorem bind_eq_error {e : ε} :
    (x >>= f) s = .error e s' ↔
      x s = .error e s' ∨ ∃ a t, x s = .ok a t ∧ f a t = .error e s' := by
  constructor
  · intro h
    cases hx : x s with
    | ok a t => exact Or.inr ⟨a, t, rfl, by rwa [bind_of_ok hx] at h⟩
    | error e' t =>
      rw [bind_of_error hx] at h
      cases h
      exact Or.inl rfl
  · rintro (hx | ⟨a, t, hx, h⟩)
    · exact bind_of_error hx
    · rw [bind_of_ok hx, h]

theorem map_eq_ok {g : α → β} {b : β} :
    (g <$> x) s = .ok b s' ↔ ∃ a, x s = .ok a s' ∧ g a = b := by
  show EStateM.map g x s = _ ↔ _
  unfold EStateM.map
  cases x s with
  | ok a t =>
    simp only [EStateM.Result.ok.injEq]
    constructor
    · rintro ⟨rfl, rfl⟩
      exact ⟨a, ⟨rfl, rfl⟩, rfl⟩
    · rintro ⟨_, ⟨rfl, rfl⟩, rfl⟩
      exact ⟨rfl, rfl⟩
  | error e t => simp

theorem map_eq_error {g : α → β} {e : ε} : (g <$> x) s = .error e s' ↔ x s = .error e s' := by
  show EStateM.map g x s = _ ↔ _
  unfold EStateM.map
  cases x s <;> simp

theorem eq_ok_of_toOption {y : Except ε α} {a : α} (h : y.toOption = some a) : y = .ok a := by
  cases y with
  | ok b => exact congrArg Except.ok (Option.some.inj h)
  | error e => cases h

theorem discard_eq_ok {u : PUnit} : discard x s = .ok u s' ↔ ∃ a, x s = .ok a s' := by
  show (Function.const α PUnit.unit <$> x) s = _ ↔ _
  rw [map_eq_ok]
  simp

theorem discard_eq_error {e : ε} : discard x s = .error e s' ↔ x s = .error e s' :=
  map_eq_error (g := Function.const α PUnit.unit)

@[simp] theorem pure_apply (a : α) (s : σ) : (pure a : EStateM ε σ α) s = .ok a s := rfl

@[simp] theorem get_apply (s : σ) : (get : EStateM ε σ σ) s = .ok s s := rfl

@[simp] theorem set_apply (s t : σ) : (set t : EStateM ε σ PUnit) s = .ok ⟨⟩ t := rfl

@[simp] theorem modify_apply (g : σ → σ) (s : σ) :
    (modify g : EStateM ε σ PUnit) s = .ok ⟨⟩ (g s) := rfl

@[simp] theorem modifyGet_apply (g : σ → α × σ) (s : σ) :
    (modifyGet g : EStateM ε σ α) s = .ok (g s).1 (g s).2 := rfl

@[simp] theorem throw_apply (e : ε) (s : σ) : (throw e : EStateM ε σ α) s = .error e s := rfl

@[simp] theorem get_bind (g : σ → EStateM ε σ β) (s : σ) :
    ((get : EStateM ε σ σ) >>= g) s = g s s := rfl

@[simp] theorem modify_bind (g : σ → σ) (k : PUnit → EStateM ε σ β) (s : σ) :
    ((modify g : EStateM ε σ PUnit) >>= k) s = k ⟨⟩ (g s) := rfl

/-! ## Outcomes that are given -/

theorem lift_eq_ok {y : Except ε α} {a : α} :
    (MonadExcept.ofExcept y : EStateM ε σ α) s = .ok a s' ↔ y = .ok a ∧ s' = s := by
  cases y with
  | ok b => simp [MonadExcept.ofExcept, eq_comm]
  | error e => simp [MonadExcept.ofExcept]

theorem lift_eq_error {y : Except ε α} {e : ε} :
    (MonadExcept.ofExcept y : EStateM ε σ α) s = .error e s' ↔ y = .error e ∧ s' = s := by
  cases y with
  | ok b => simp [MonadExcept.ofExcept]
  | error e => simp [MonadExcept.ofExcept, eq_comm]

end

end TinyScript
