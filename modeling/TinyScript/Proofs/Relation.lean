import Mathlib.Data.List.Forall2
import TinyScript.Proofs.Outcome

/-
  Two runs side by side.

  Two steps are related when they lead from related states to related outcomes: both
  succeed, with related results, or both fail, with related errors, and the states stay
  related either way.  What is related is left open, so that parsing, analysis and
  execution can each be compared with another run of themselves.

  * `Related`: two outcomes correspond;
  * `Relates`: two steps have corresponding outcomes on corresponding states;
  * `Relates.bind`, `Relates.forM`: composite steps are related if their parts are.
-/

namespace TinyScript

/-- Two outcomes correspond: `E` for errors, `S` for states, `R` for results. -/
inductive Related {ε σ α β : Type} (E : ε → ε → Prop) (S : σ → σ → Prop) (R : α → β → Prop) :
    EStateM.Result ε σ α → EStateM.Result ε σ β → Prop
  | ok {a b s t} : R a b → S s t → Related E S R (.ok a s) (.ok b t)
  | error {e f s t} : E e f → S s t → Related E S R (.error e s) (.error f t)

/-- Two steps lead from corresponding states to corresponding outcomes. -/
def Relates {ε σ α β : Type} (E : ε → ε → Prop) (S : σ → σ → Prop) (R : α → β → Prop)
    (x : EStateM ε σ α) (y : EStateM ε σ β) : Prop :=
  ∀ ⦃s t⦄, S s t → Related E S R (x s) (y t)

section
variable {ε σ α β γ δ : Type} {E : ε → ε → Prop} {S : σ → σ → Prop} {R : α → β → Prop}
  {Q : γ → δ → Prop} {x : EStateM ε σ α} {y : EStateM ε σ β}

theorem Related.mono {Q : α → β → Prop} (hRQ : ∀ a b, R a b → Q a b)
    {p : EStateM.Result ε σ α} {q : EStateM.Result ε σ β} (h : Related E S R p q) :
    Related E S Q p q := by
  cases h with
  | ok hr hs => exact .ok (hRQ _ _ hr) hs
  | error he hs => exact .error he hs

/-- Composite steps are related if their first parts are, and what follows on them is; what
    is related of the states may change on the way. -/
theorem Related.andThen {S' : σ → σ → Prop} {f : α → EStateM ε σ γ} {g : β → EStateM ε σ δ}
    {s t : σ} (h : Related E S R (x s) (y t)) (hS : ∀ s' t', S s' t' → S' s' t')
    (hfg : ∀ a b s' t', x s = .ok a s' → R a b → S s' t' → Related E S' Q (f a s') (g b t')) :
    Related E S' Q ((x >>= f) s) ((y >>= g) t) := by
  generalize hx : x s = p at h
  generalize hy : y t = q at h
  cases h with
  | ok hr hst =>
    rw [bind_of_ok hx, bind_of_ok hy]
    exact hfg _ _ _ _ hx hr hst
  | error he hst =>
    rw [bind_of_error hx, bind_of_error hy]
    exact .error he (hS _ _ hst)

theorem Related.bind {f : α → EStateM ε σ γ} {g : β → EStateM ε σ δ} {s t : σ}
    (h : Related E S R (x s) (y t)) (hfg : ∀ a b, R a b → Relates E S Q (f a) (g b)) :
    Related E S Q ((x >>= f) s) ((y >>= g) t) :=
  h.andThen (fun _ _ hst => hst) fun a b _ _ _ hr hst => hfg a b hr hst

namespace Relates

theorem pure {a : α} {b : β} (h : R a b) :
    Relates E S R (pure a : EStateM ε σ α) (pure b : EStateM ε σ β) :=
  fun _ _ hs => .ok h hs

theorem throw {e f : ε} (h : E e f) :
    Relates E S R (throw e : EStateM ε σ α) (throw f : EStateM ε σ β) :=
  fun _ _ hs => .error h hs

theorem mono {Q : α → β → Prop} (h : Relates E S R x y) (hRQ : ∀ a b, R a b → Q a b) :
    Relates E S Q x y :=
  fun _ _ hs => (h hs).mono hRQ

/-- Composite steps are related if their first parts are, and what follows is for all
    related results of them. -/
theorem bind {f : α → EStateM ε σ γ} {g : β → EStateM ε σ δ} (h : Relates E S R x y)
    (hfg : ∀ a b, R a b → Relates E S Q (f a) (g b)) : Relates E S Q (x >>= f) (y >>= g) :=
  fun _ _ hs => (h hs).bind hfg

/-- A step that begins by reading the state goes on from there. -/
theorem get_bind {f : σ → EStateM ε σ α} {g : σ → EStateM ε σ β}
    (h : ∀ s t, S s t → Related E S R (f s s) (g t t)) :
    Relates E S R ((MonadState.get : EStateM ε σ σ) >>= f) (MonadState.get >>= g) :=
  h

theorem discard (h : Relates E S R x y) :
    Relates E S (fun _ _ => True) (discard x) (discard y) := by
  intro s t hs
  have hxy : Related E S R (x s) (y t) := h hs
  generalize hx : x s = p at hxy
  generalize hy : y t = q at hxy
  cases hxy with
  | ok _ hst =>
    rw [discard_eq_ok (u := ⟨⟩).2 ⟨_, hx⟩, discard_eq_ok (u := ⟨⟩).2 ⟨_, hy⟩]
    exact .ok trivial hst
  | error he hst =>
    rw [discard_eq_error.2 hx, discard_eq_error.2 hy]
    exact .error he hst

/-- Steps for the elements of two lists are related if the elements are, one by one. -/
theorem forM {A : α → β → Prop} {Q P : PUnit → PUnit → Prop} {f : α → EStateM ε σ PUnit}
    {g : β → EStateM ε σ PUnit} {as : List α} {bs : List β} (hP : P ⟨⟩ ⟨⟩)
    (hab : List.Forall₂ A as bs) (hfg : ∀ a b, A a b → Relates E S Q (f a) (g b)) :
    Relates E S P (as.forM f) (bs.forM g) := by
  induction hab with
  | nil => exact pure hP
  | cons ha _ ih => exact bind (hfg _ _ ha) fun _ _ _ => ih

end Relates

end

end TinyScript
