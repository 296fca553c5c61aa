import TinyScript.Machine.Exec
import TinyScript.Proofs.Typing.Rules

/-
  How the scopes of a run correspond to the scopes of analysis.

  Frame by frame a run has the same names as analysis had at the same place of the
  program.  Every variable is bound to a cell whose type analysis knows, every
  function of the host to itself, and every method to one whose body obeys the
  rules in the scope that starts with its frame.  What else is known of the parts of
  methods is left open (`C`).

  The types of cells are a list that only grows; it is the invariant that survives
  the scopes through which the cells were bound.
-/

namespace TinyScript

/-- The callable is what analysis takes it for; `Γ` is the scope of analysis for the
    frame in which it stands. -/
def Callable.Implements (r : Registry) (a : Analysis) (C : Part → Prop)
    (Γ : Scope Ty Signature) : Callable → Signature → Prop
  | .native f, signature => f ∈ r.functions.map Prod.snd ∧ f.signature = signature
  | .declared d, signature =>
    d.Obeys r a signature ∧ (∀ p ∈ d.parts, C p) ∧ d.Scoped r a Γ signature

/-- A frame of a run has the names of a frame of analysis. -/
structure Frame.Matches (r : Registry) (a : Analysis) (C : Part → Prop) (Δ : List Ty)
    (Γ : Scope Ty Signature) (f : Frame Nat Callable) (g : Frame Ty Signature) : Prop where
  vars : ∀ x, Option.Rel (fun c t => Δ[c]? = some t) (f.vars x) (g.vars x)
  functions : ∀ x k, Option.Rel (fun callable signature =>
    callable.Implements r a C Γ signature ∧ signature.arity = k) (f.functions x k) (g.functions x k)

/-- The frames of a run have the names of the frames of analysis. -/
inductive Scope.Matches (r : Registry) (a : Analysis) (C : Part → Prop) (Δ : List Ty) :
    RunScope → Scope Ty Signature → Prop
  | nil : Scope.Matches r a C Δ [] []
  | cons {f g S Γ} : f.Matches r a C Δ (g :: Γ) g → Scope.Matches r a C Δ S Γ →
      Scope.Matches r a C Δ (f :: S) (g :: Γ)

/-- The innermost frame has no functions, so it is no closure of a method and may
    still get variables. -/
def Scope.Plain {V F : Type} (Γ : Scope V F) : Prop :=
  ∃ g Γ₀, Γ = g :: Γ₀ ∧ ∀ x k, g.functions x k = none

/-! ## Callables -/

section
variable {r : Registry} {a : Analysis} {C : Part → Prop} {Γ Γ' : Scope Ty Signature}
  {Δ Δ' : List Ty}

theorem Parameters.Scoped.length {ps : List Parameter} {ts : List Ty}
    (h : Parameters.Scoped Γ ps ts Γ') : ps.length = ts.length := by
  induction h with
  | nil => rfl
  | cons _ _ ih => simp [ih]

theorem Callable.Implements.arity {callable : Callable} {signature : Signature}
    (h : callable.Implements r a C Γ signature) : callable.arity = signature.arity := by
  cases callable with
  | native f => rw [← h.2]; rfl
  | declared d =>
    obtain ⟨-, -, Γ₁, Γ₂, hps, -⟩ := h
    exact hps.length

/-! ## Growth of the typing of cells -/

theorem getElem?_of_growth {c : Nat} {t : Ty} (h : Δ <+: Δ') (hc : Δ[c]? = some t) :
    Δ'[c]? = some t := by
  obtain ⟨rest, rfl⟩ := h
  have hlt : c < Δ.length := (List.getElem?_eq_some_iff.1 hc).1
  rw [List.getElem?_append_left hlt, hc]

theorem Frame.Matches.extend {f : Frame Nat Callable} {g : Frame Ty Signature} (h : Δ <+: Δ')
    (hf : f.Matches r a C Δ Γ g) : f.Matches r a C Δ' Γ g := by
  refine ⟨fun x => ?_, hf.functions⟩
  have hx := hf.vars x
  generalize f.vars x = c at hx ⊢
  generalize g.vars x = t at hx ⊢
  cases hx with
  | none => exact .none
  | some hc => exact .some (getElem?_of_growth h hc)

/-- Without functions it does not matter for which scope they would be meant. -/
theorem Frame.Matches.functions_of_none {f : Frame Nat Callable} {g : Frame Ty Signature}
    (h : f.Matches r a C Δ Γ g) (hg : ∀ x k, g.functions x k = none) (Γ' : Scope Ty Signature)
    (x : String) (k : Nat) :
    Option.Rel (fun callable signature => callable.Implements r a C Γ' signature ∧
      signature.arity = k) (f.functions x k) (g.functions x k) := by
  have hrel := h.functions x k
  rw [hg] at hrel ⊢
  generalize f.functions x k = callable at hrel ⊢
  cases hrel
  exact .none

namespace Scope.Matches

variable {S : RunScope}

theorem extend (h : Δ <+: Δ') (hS : S.Matches r a C Δ Γ) : S.Matches r a C Δ' Γ := by
  induction hS with
  | nil => exact .nil
  | cons hf _ ih => exact .cons (hf.extend h) ih

/-! ## Lookups -/

theorem lookup? (h : S.Matches r a C Δ Γ) (x : String) :
    Option.Rel (fun c t => Δ[c]? = some t) (S.lookup? x) (Γ.lookup? x) := by
  induction h with
  | nil => exact .none
  | @cons f g S Γ hf _ ih =>
    have hx := hf.vars x
    simp only [Scope.lookup?]
    generalize f.vars x = c at hx ⊢
    generalize g.vars x = t at hx ⊢
    cases hx with
    | none => exact ih
    | some hc => exact .some hc

/-- A function that analysis knows is found, in a scope that corresponds to the one
    in which analysis has it. -/
theorem findFunction? (h : S.Matches r a C Δ Γ) {x : String} {k : Nat} {signature : Signature}
    (hx : Γ.function? x k = some signature) :
    ∃ callable S' Γ', S.findFunction? x k = some (callable, S') ∧ S'.Matches r a C Δ Γ' ∧
      callable.Implements r a C Γ' signature ∧ signature.arity = k := by
  induction h with
  | nil => simp [Scope.function?, Scope.findFunction?] at hx
  | @cons f g S Γ hf hS ih =>
    have hfx := hf.functions x k
    simp only [Scope.function?, Scope.findFunction?] at hx ⊢
    cases hg : g.functions x k with
    | none =>
      rw [hg] at hfx hx
      cases hff : f.functions x k with
      | none => exact ih hx
      | some callable => rw [hff] at hfx; cases hfx
    | some signature' =>
      rw [hg] at hfx hx
      cases hff : f.functions x k with
      | none => rw [hff] at hfx; cases hfx
      | some callable =>
        rw [hff] at hfx
        obtain rfl := Option.some.inj hx
        cases hfx with
        | some himp => exact ⟨callable, f :: S, g :: Γ, rfl, .cons hf hS, himp.1, himp.2⟩

theorem hasLocalVariable (h : S.Matches r a C Δ Γ) (x : String) :
    S.hasLocalVariable x = Γ.hasLocalVariable x := by
  cases h with
  | nil => rfl
  | @cons f g S Γ hf _ =>
    have hx := hf.vars x
    simp only [Scope.hasLocalVariable]
    generalize f.vars x = c at hx ⊢
    generalize g.vars x = t at hx ⊢
    cases hx <;> rfl

/-! ## Definitions -/

theorem child (h : S.Matches r a C Δ Γ) : S.child.Matches r a C Δ Γ.child :=
  .cons ⟨fun _ => .none, fun _ _ => .none⟩ h

theorem defineVariable (h : S.Matches r a C Δ Γ) (hp : Γ.Plain) {c : Nat} {t : Ty}
    (hc : Δ[c]? = some t) (x : String) :
    (S.defineVariable x c).Matches r a C Δ (Γ.defineVariable x t) := by
  obtain ⟨g, Γ, rfl, hg⟩ := hp
  cases h with
  | @cons f _ S _ hf hS =>
    refine .cons ⟨fun y => ?_, hf.functions_of_none hg _⟩ hS
    simp only [Frame.vars_defineVariable]
    split
    · exact .some hc
    · exact hf.vars y

end Scope.Matches

/-! ## Plain scopes -/

theorem Scope.Plain.child {V F : Type} (Γ : Scope V F) : Γ.child.Plain :=
  ⟨{}, Γ, rfl, fun _ _ => rfl⟩

theorem Scope.Plain.defineVariable {V F : Type} {Γ : Scope V F} (h : Γ.Plain) (x : String) (v : V) :
    (Γ.defineVariable x v).Plain := by
  obtain ⟨g, Γ, rfl, hg⟩ := h
  exact ⟨g.defineVariable x v, Γ, rfl, hg⟩

end

/-! ## The functions of the host -/

/-- At the start a run and analysis have the same functions. -/
theorem matches_ofRegistry (r : Registry) (a : Analysis) (C : Part → Prop) (w : World) :
    (Machine.ofRegistry r w).scope.Matches r a C [] (CheckState.ofRegistry r).scope := by
  suffices h : ∀ (fs : List ((String × Nat) × NativeFunction)) (f : Frame Nat Callable)
      (g : Frame Ty Signature), (∀ e ∈ fs, e.2 ∈ r.functions.map Prod.snd) →
      (∀ Γ, f.Matches r a C [] Γ g) →
      Scope.Matches r a C []
        (fs.foldl (fun S f => S.defineFunction f.2.signature.name f.2.signature.arity (.native f.2))
          [f])
        (fs.foldl (fun Γ f => Γ.defineFunction f.2.signature.name f.2.signature.arity f.2.signature)
          [g]) from
    h r.functions {} {} (fun e he => List.mem_map_of_mem he)
      fun Γ => ⟨fun _ => .none, fun _ _ => .none⟩
  intro fs
  induction fs with
  | nil => exact fun f g _ hfg => .cons (hfg _) .nil
  | cons e fs ih =>
    intro f g hmem hfg
    refine ih _ _ (fun e' he' => hmem e' (by simp [he'])) fun Γ => ⟨(hfg Γ).vars, fun y k => ?_⟩
    simp only [Frame.functions_defineFunction]
    split
    · rename_i heq
      exact .some ⟨⟨hmem e (by simp), rfl⟩, heq.2.symm⟩
    · exact (hfg Γ).functions y k

end TinyScript
