import TinyScript.Proofs.Machine.Discipline

/-
  Runs of accepted programs respect every discipline.

  The induction follows the machine: over expressions and statements, then over
  the rounds of a loop, and over fuel for calls.  What a call does is assumed
  (`Invoke.Keeps`) until the last step closes the circle (`invoke_keeps`).

  Scopes come back after every expression, so only the types of cells and the world
  are carried along (`Machine.Moves`); a statement may add a variable, and leads to
  the scope that analysis has after it.
-/

namespace TinyScript

open Eval

variable {r : Registry} {a : Analysis}

/-- The value may stand for the type recorded for the expression. -/
def Discipline.Fits (D : Discipline r a) (w : World) (e : Expr) (v : Value) : Prop :=
  ∃ t, a.types[e.id]? = some t ∧ D.val w t v

/-- Calls respect the discipline. -/
def Invoke.Keeps (D : Discipline r a) (inv : Invoke) : Prop :=
  ∀ {callable : Callable} {S : RunScope} {Γ : Scope Ty Signature} {signature : Signature}
    {vs : List Value} {Δ : List Ty} {m m' : Machine} {v : Value},
    m.Typed D Δ → S.Matches r a D.Covers Δ Γ → callable.Implements r a D.Covers Γ signature →
    List.Forall₂ (D.val m.world) signature.parameters vs → inv callable S vs m = .ok v m' →
    ∃ Δ', m.Moves D Δ Δ' m' ∧ m'.scope = m.scope ∧ D.val m'.world signature.result v

section
variable {D : Discipline r a} {w w' : World}

theorem Discipline.Fits.later {e : Expr} {v : Value} (h : D.later w w') (hf : D.Fits w e v) :
    D.Fits w' e v := by
  obtain ⟨t, ht, hv⟩ := hf
  exact ⟨t, ht, D.val_later h hv⟩

theorem Discipline.Fits.val {e : Expr} {v : Value} {t : Ty} (hf : D.Fits w e v)
    (ht : a.types[e.id]? = some t) : D.val w t v := by
  obtain ⟨t', ht', hv⟩ := hf
  rw [ht] at ht'
  exact Option.some.inj ht' ▸ hv

theorem Discipline.Fits.accepts {e : Expr} {v : Value} {t : Ty} (hf : D.Fits w e v)
    (ha : a.Accepts t e) : D.val w t v := by
  obtain ⟨s, hs, hacc⟩ := ha
  exact D.val_accepts hacc (hf.val hs)

/-- Arguments that fit their recorded types fit the parameters that accept these. -/
theorem Discipline.arguments {ts : List Ty} {es : List Expr} {vs : List Value}
    (ha : List.Forall₂ a.Accepts ts es) (hf : List.Forall₂ (D.Fits w) es vs) :
    List.Forall₂ (D.val w) ts vs := by
  induction ha generalizing vs with
  | nil => cases hf; exact .nil
  | cons hacc _ ih =>
    cases hf with
    | cons hv hvs => exact .cons (hv.accepts hacc) (ih hvs)

theorem BinaryRule.logical_types {o : BinaryOperator} {s t u : Ty} (ho : o = .and ∨ o = .or)
    (h : BinaryRule o s t u) : s = .boolean ∧ t = .boolean ∧ u = .boolean := by
  cases h with
  | logical _ => exact ⟨rfl, rfl, rfl⟩
  | comparison hc _ => rcases ho with rfl | rfl <;> simp [BinaryOperator.isComparison] at hc
  | concatenation _ => simp at ho
  | arithmetic hm _ => rcases ho with rfl | rfl <;> simp at hm

/-! ## Expressions -/

mutual

/-- Evaluation respects the discipline. -/
theorem keeps_expr {inv : Invoke} (hinv : inv.Keeps D) : (e : Expr) →
    {Γ : Scope Ty Signature} → {Δ : List Ty} → {m m' : Machine} → {v : Value} → m.Typed D Δ →
    m.scope.Matches r a D.Covers Δ Γ → e.Sound r a Γ → expr r inv e m = .ok v m' →
    ∃ Δ', m.Moves D Δ Δ' m' ∧ m'.scope = m.scope ∧ D.Fits m'.world e v
  | .literal n l, _, Δ, m, m', v, hm, _, hs, h => by
    simp only [expr, pure_apply, EStateM.Result.ok.injEq] at h
    obtain ⟨rfl, rfl⟩ := h
    exact ⟨Δ, .refl hm, rfl, l.type, hs.obeys, D.val_literal _ l⟩
  | .group n e, _, Δ, m, m', v, hm, hS, hs, h => by
    simp only [expr] at h
    obtain ⟨Δ', hmoves, hscope, hf⟩ := keeps_expr hinv e hm hS hs.group h
    obtain ⟨-, t, ht, ht'⟩ := hs.obeys
    exact ⟨Δ', hmoves, hscope, t, ht', hf.val ht⟩
  | .binary n o left right, _, Δ, m, m', v, hm, hS, hs, h => by
    obtain ⟨s, t, u, hls, hrt, hrule, hu⟩ := hs.obeys
    by_cases ho : o = .and ∨ o = .or
    · obtain ⟨-, -, rfl⟩ := hrule.logical_types ho
      simp only [expr_logical ho, bind_eq_ok, boolean_eq_ok] at h
      obtain ⟨b, m₁, hl, h⟩ := h
      obtain ⟨Δ₁, hmoves, hscope, -⟩ := keeps_expr hinv left hm hS hs.left hl
      split at h
      · simp only [bind_eq_ok, boolean_eq_ok, pure_apply, EStateM.Result.ok.injEq] at h
        obtain ⟨b', m₂, hr, rfl, rfl⟩ := h
        rw [← hscope] at hS
        obtain ⟨Δ₂, hmoves', hscope', -⟩ :=
          keeps_expr hinv right hmoves.typed (hS.extend hmoves.typing) hs.right hr
        exact ⟨Δ₂, hmoves.trans hmoves', hscope'.trans hscope, .boolean, hu,
          D.val_literal _ (.boolean b')⟩
      · simp only [pure_apply, EStateM.Result.ok.injEq] at h
        obtain ⟨rfl, rfl⟩ := h
        exact ⟨Δ₁, hmoves, hscope, .boolean, hu, D.val_literal _ (.boolean b)⟩
    · simp only [expr_operator ho, bind_eq_ok, get_bind, lift_eq_ok] at h
      obtain ⟨x, m₁, hl, y, m₂, hr, hz, rfl⟩ := h
      obtain ⟨Δ₁, hmoves, hscope, hx⟩ := keeps_expr hinv left hm hS hs.left hl
      rw [← hscope] at hS
      obtain ⟨Δ₂, hmoves', hscope', hy⟩ :=
        keeps_expr hinv right hmoves.typed (hS.extend hmoves.typing) hs.right hr
      refine ⟨Δ₂, hmoves.trans hmoves', hscope'.trans hscope, u, hu, ?_⟩
      exact D.val_binary ho hrule ((hx.later hmoves'.later).val hls) (hy.val hrt) hz
  | .var n x, _, Δ, m, m', v, hm, hS, hs, h => by
    simp only [expr, bind_eq_ok, cell_eq_ok, load_apply, EStateM.Result.ok.injEq] at h
    obtain ⟨c, _, ⟨hc, rfl⟩, rfl, rfl⟩ := h
    obtain ⟨t, hb, ht⟩ := hs.obeys
    obtain ⟨t', hx, hb'⟩ := hs.resolves
    rw [hb] at hb'
    obtain rfl : t = t' := by simpa using hb'
    have hcell : Δ[c]? = some t := by
      have hrel := hS.lookup? x
      rw [Machine.cell?] at hc
      rw [hx, hc] at hrel
      cases hrel with
      | some h => exact h
    exact ⟨Δ, .refl hm, rfl, t, ht, hm.load hcell⟩
  | .field n e x, _, Δ, m, m', v, hm, hS, hs, h => by
    simp only [expr, bind_eq_ok, field, get_bind, ofExcept_eq_ok, asObject_eq_ok] at h
    obtain ⟨_, m₁, he, ref, _, ⟨rfl, rfl⟩, hv, rfl⟩ := h
    obtain ⟨Δ₁, hmoves, hscope, hf⟩ := keeps_expr hinv e hm hS hs.fieldOwner he
    obtain ⟨type, t, hty, hx, -, ht⟩ := hs.obeys
    exact ⟨Δ₁, hmoves, hscope, t, ht, D.val_field ⟨_, hty⟩ hmoves.typed.world (hf.val hty) hx hv⟩
  | .call n f es, _, Δ, m, m', v, hm, hS, hs, h => by
    simp only [expr, bind_eq_ok, call, get_bind] at h
    obtain ⟨vs, m₁, hes, h⟩ := h
    obtain ⟨Δ₁, hmoves, hscope, hfs⟩ := keeps_exprs hinv es hm hS hs.arguments hes
    obtain ⟨signature, -, hb, hacc, ht⟩ := hs.obeys
    obtain ⟨signature', hfun, hb'⟩ := hs.resolves
    rw [hb] at hb'
    obtain rfl : signature = signature' := by simpa using hb'
    rw [← hscope] at hS
    obtain ⟨callable, S', Γ', hfind, hS', himp, -⟩ :=
      (hS.extend hmoves.typing).findFunction? hfun
    rw [hfs.length_eq] at hfind
    simp only [hfind] at h
    obtain ⟨Δ₂, hmoves', hscope', hv⟩ :=
      hinv hmoves.typed hS' himp (D.arguments hacc hfs) h
    exact ⟨Δ₂, hmoves.trans hmoves', hscope'.trans hscope, signature.result, ht, hv⟩
  | .methodCall n e f es, _, Δ, m, m', v, hm, hS, hs, h => by
    simp only [expr, bind_eq_ok, method, ofExcept_eq_ok, asObject_eq_ok] at h
    obtain ⟨_, m₁, he, vs, m₂, hes, ref, _, ⟨rfl, rfl⟩, h⟩ := h
    obtain ⟨Δ₁, hmoves, hscope, hf⟩ := keeps_expr hinv e hm hS hs.methodOwner he
    rw [← hscope] at hS
    obtain ⟨Δ₂, hmoves', hscope', hfs⟩ :=
      keeps_exprs hinv es hmoves.typed (hS.extend hmoves.typing) hs.methodArguments hes
    obtain ⟨type, g, hty, hg, -, hacc, ht⟩ := hs.obeys
    obtain ⟨w, hw, rfl⟩ := native_eq_ok.1 h
    rw [hfs.length_eq] at hg
    cases hg' : (r.describe ref.type).method? f vs.length with
    | none => simp [Registry.callMethod, hg'] at hw
    | some g' =>
      simp only [Registry.callMethod, hg'] at hw
      obtain ⟨hv, hworld, hlater⟩ := D.method ⟨_, hty⟩ hg hg' hmoves'.typed.world
        ((hf.later hmoves'.later).val hty) (D.arguments hacc hfs) hw
      refine ⟨Δ₂, hmoves.trans (hmoves'.trans ⟨List.prefix_rfl, ?_, hlater⟩),
        hscope'.trans hscope, g.signature.result, ht, hv⟩
      exact hmoves'.typed.later hworld hlater
termination_by structural e => e

/-- Evaluation of arguments respects the discipline. -/
theorem keeps_exprs {inv : Invoke} (hinv : inv.Keeps D) : (es : List Expr) →
    {Γ : Scope Ty Signature} → {Δ : List Ty} → {m m' : Machine} → {vs : List Value} →
    m.Typed D Δ → m.scope.Matches r a D.Covers Δ Γ → (∀ e ∈ es, e.Sound r a Γ) →
    exprs r inv es m = .ok vs m' →
    ∃ Δ', m.Moves D Δ Δ' m' ∧ m'.scope = m.scope ∧ List.Forall₂ (D.Fits m'.world) es vs
  | [], _, Δ, m, m', vs, hm, _, _, h => by
    simp only [exprs, pure_apply, EStateM.Result.ok.injEq] at h
    obtain ⟨rfl, rfl⟩ := h
    exact ⟨Δ, .refl hm, rfl, .nil⟩
  | e :: es, _, Δ, m, m', vs, hm, hS, hs, h => by
    simp only [exprs, bind_eq_ok, pure_apply, EStateM.Result.ok.injEq] at h
    obtain ⟨v, m₁, he, vs, m₂, hes, rfl, rfl⟩ := h
    obtain ⟨Δ₁, hmoves, hscope, hf⟩ := keeps_expr hinv e hm hS (hs e (by simp)) he
    rw [← hscope] at hS
    obtain ⟨Δ₂, hmoves', hscope', hfs⟩ := keeps_exprs hinv es hmoves.typed (hS.extend hmoves.typing)
      (fun e' he' => hs e' (by simp [he'])) hes
    exact ⟨Δ₂, hmoves.trans hmoves', hscope'.trans hscope, .cons (hf.later hmoves'.later) hfs⟩
termination_by structural es => es

end

/-- The optional value of a declaration respects the discipline. -/
theorem keeps_optional {inv : Invoke} (hinv : inv.Keeps D) {value : Option Expr}
    {typeName : Option String} {t : Ty} {Γ : Scope Ty Signature} {Δ : List Ty} {m m' : Machine}
    {v : Value} (hm : m.Typed D Δ) (hS : m.scope.Matches r a D.Covers Δ Γ)
    (hs : ∀ e ∈ value, e.Sound r a Γ) (hr : DeclarationRule r a typeName value t)
    (hnil : value = none → D.AllowsNil t) (h : optionalExpr r inv value m = .ok v m') :
    ∃ Δ', m.Moves D Δ Δ' m' ∧ m'.scope = m.scope ∧ D.val m'.world t v := by
  cases value with
  | none =>
    simp only [optionalExpr, pure_apply, EStateM.Result.ok.injEq] at h
    obtain ⟨rfl, rfl⟩ := h
    exact ⟨Δ, .refl hm, rfl, hnil rfl _⟩
  | some e =>
    obtain ⟨Δ', hmoves, hscope, hf⟩ := keeps_expr hinv e hm hS (hs e rfl) h
    refine ⟨Δ', hmoves, hscope, ?_⟩
    cases typeName with
    | none =>
      obtain ⟨e', he', ht⟩ := hr
      obtain rfl := Option.some.inj he'
      exact hf.val ht
    | some name => exact hf.accepts (hr.2.2 e rfl)

/-! ## Statements -/

/-- What a completion of statements means: the scope that analysis has at their end,
    or a result of the right type. -/
def Completion.Keeps (D : Discipline r a) (result : Ty) (Γ : Scope Ty Signature)
    (Δ : List Ty) (m : Machine) : Completion → Prop
  | .normal => m.scope.Matches r a D.Covers Δ Γ ∧ Γ.Plain
  | .returned v => D.val m.world result v

/-- Statements respect the discipline. -/
def StmtsKeep (D : Discipline r a) (inv : Invoke) (F : Nat) (ss : List Stmt) : Prop :=
  ∀ {Γ Γ' : Scope Ty Signature} {Δ : List Ty} {m m' : Machine} {result : Ty}
    {completion : Completion}, m.Typed D Δ → m.scope.Matches r a D.Covers Δ Γ → Γ.Plain →
    (∀ p ∈ Stmt.partsList ss, D.Covers p) → Stmts.Scoped r a result Γ ss Γ' →
    stmts r inv F ss m = .ok completion m' →
    ∃ Δ', m.Moves D Δ Δ' m' ∧ completion.Keeps D result Γ' Δ' m'

section
variable {inv : Invoke} {F : Nat} {Γ Γ' : Scope Ty Signature} {Δ Δ' : List Ty} {m m' : Machine}
  {result : Ty} {completion : Completion}

/-- At the end of a block the scope is the outer one again. -/
theorem Completion.Keeps.leave (h : completion.Keeps D result Γ' Δ' m')
    (hS : m.scope.Matches r a D.Covers Δ' Γ) (hp : Γ.Plain) :
    completion.Keeps D result Γ Δ' { m' with scope := m.scope } := by
  cases completion with
  | normal => exact ⟨hS, hp⟩
  | returned v => exact h

/-- A block respects the discipline. -/
theorem keeps_block {ss : List Stmt} (hb : StmtsKeep D inv F ss) (hm : m.Typed D Δ)
    (hS : m.scope.Matches r a D.Covers Δ Γ) (hp : Γ.Plain)
    (hC : ∀ p ∈ Stmt.partsList ss, D.Covers p) (hs : Stmts.Scoped r a result Γ.child ss Γ')
    (h : inChild (stmts r inv F ss) m = .ok completion m') :
    ∃ Δ', m.Moves D Δ Δ' m' ∧ m'.scope = m.scope ∧ completion.Keeps D result Γ Δ' m' := by
  obtain ⟨m₁, hb₁, rfl⟩ := inChild_eq_ok.1 h
  obtain ⟨Δ', hmoves, hc⟩ := hb (hm.enter _) hS.child (.child Γ) hC hs hb₁
  exact ⟨Δ', hmoves.leave, rfl, hc.leave (hS.extend hmoves.typing) hp⟩

/-- The rounds of a loop over integers respect the discipline. -/
theorem keeps_rounds {x : String} {ss : List Stmt} (hb : StmtsKeep D inv F ss)
    (hp : Γ.Plain) (hC : ∀ p ∈ Stmt.partsList ss, D.Covers p)
    (hs : Stmts.Scoped r a result (Γ.child.defineVariable x .integer) ss Γ')
    {n : Nat} {i : Int} (hm : m.Typed D Δ) (hS : m.scope.Matches r a D.Covers Δ Γ)
    (h : forEach (fun i => inChild do
      define x (.integer i)
      stmts r inv F ss) n i m = .ok completion m') :
    ∃ Δ', m.Moves D Δ Δ' m' ∧ completion.Keeps D result Γ Δ' m' := by
  induction n generalizing i Δ m with
  | zero =>
    simp only [forEach, pure_apply, EStateM.Result.ok.injEq] at h
    obtain ⟨rfl, rfl⟩ := h
    exact ⟨Δ, .refl hm, hS, hp⟩
  | succ n ih =>
    simp only [forEach, bind_eq_ok, inChild_eq_ok, define_apply, EStateM.Result.ok.injEq] at h
    obtain ⟨c, _, ⟨m₁, ⟨_, _, ⟨-, rfl⟩, hb₁⟩, rfl⟩, h⟩ := h
    have hm₀ := hm.enter m.scope.child
    have hv := D.val_literal m.world (.integer i)
    obtain ⟨Δ₁, hmoves, hc⟩ := hb (hm₀.define hv x) (hS.child.define (.child Γ) hm₀ .integer _ x)
      ((Scope.Plain.child Γ).defineVariable x .integer) hC hs hb₁
    have hround : m.Moves D Δ Δ₁ { m₁ with scope := m.scope } :=
      ((Machine.Moves.define hm₀ hv x).trans hmoves).leave
    cases c with
    | normal =>
      obtain ⟨Δ₂, hmoves', hc'⟩ := ih hround.typed (hS.extend hround.typing) h
      exact ⟨Δ₂, hround.trans hmoves', hc'⟩
    | returned v =>
      simp only [pure_apply, EStateM.Result.ok.injEq] at h
      obtain ⟨rfl, rfl⟩ := h
      exact ⟨Δ₁, hround, hc⟩

/-- The rounds of a conditional loop respect the discipline. -/
theorem keeps_loop (hinv : inv.Keeps D) {e : Expr} {ss : List Stmt}
    (hb : StmtsKeep D inv F ss) (hp : Γ.Plain) (he : e.Sound r a Γ)
    (hC : ∀ p ∈ Stmt.partsList ss, D.Covers p) (hs : Stmts.Scoped r a result Γ.child ss Γ')
    {n : Nat} (hm : m.Typed D Δ) (hS : m.scope.Matches r a D.Covers Δ Γ)
    (h : loop (boolean (expr r inv e)) (inChild (stmts r inv F ss)) n m = .ok completion m') :
    ∃ Δ', m.Moves D Δ Δ' m' ∧ completion.Keeps D result Γ Δ' m' := by
  induction n generalizing Δ m with
  | zero => simp [loop] at h
  | succ n ih =>
    simp only [loop, bind_eq_ok, boolean_eq_ok] at h
    obtain ⟨b, m₁, he₁, h⟩ := h
    obtain ⟨Δ₁, hmoves, hscope, -⟩ := keeps_expr hinv e hm hS he he₁
    rw [← hscope] at hS
    have hS₁ := hS.extend hmoves.typing
    cases b with
    | false =>
      simp only [Bool.false_eq_true, ↓reduceIte, pure_apply, EStateM.Result.ok.injEq] at h
      obtain ⟨rfl, rfl⟩ := h
      exact ⟨Δ₁, hmoves, hS₁, hp⟩
    | true =>
      simp only [↓reduceIte, bind_eq_ok] at h
      obtain ⟨c, m₂, hb₁, h⟩ := h
      obtain ⟨Δ₂, hmoves₂, hscope₂, hc⟩ := keeps_block hb hmoves.typed hS₁ hp hC hs hb₁
      have hround := hmoves.trans hmoves₂
      cases c with
      | normal =>
        obtain ⟨Δ₃, hmoves₃, hc'⟩ := ih hround.typed hc.1 h
        exact ⟨Δ₃, hround.trans hmoves₃, hc'⟩
      | returned v =>
        simp only [pure_apply, EStateM.Result.ok.injEq] at h
        obtain ⟨rfl, rfl⟩ := h
        exact ⟨Δ₂, hround, hc⟩

/-- An assignment respects the discipline. -/
theorem keeps_assign (hinv : inv.Keeps D) {receiver value : Expr} {u : Unit} (hm : m.Typed D Δ)
    (hS : m.scope.Matches r a D.Covers Δ Γ) (ho : (Stmt.assign receiver value).Obeys r a result)
    (hs : receiver.Sound r a Γ) (hs' : value.Sound r a Γ)
    (h : assign r inv receiver value m = .ok u m') :
    ∃ Δ', m.Moves D Δ Δ' m' ∧ m'.scope = m.scope := by
  obtain ⟨-, t, ht, hacc⟩ := ho
  cases receiver with
  | var n x =>
    simp only [assign, bind_eq_ok, cell_eq_ok, store_apply, EStateM.Result.ok.injEq, true_and] at h
    obtain ⟨c, _, ⟨hc, rfl⟩, v, m₁, hv, rfl⟩ := h
    obtain ⟨Δ₁, hmoves, hscope, hf⟩ := keeps_expr hinv value hm hS hs' hv
    obtain ⟨t', hb, ht'⟩ := hs.obeys
    obtain ⟨t'', hx, hb'⟩ := hs.resolves
    rw [hb] at hb'
    obtain rfl : t' = t'' := by simpa using hb'
    obtain rfl : t = t' := Option.some.inj (ht.symm.trans ht')
    have hcell : Δ[c]? = some t := by
      have hrel := hS.lookup? x
      rw [Machine.cell?] at hc
      rw [hx, hc] at hrel
      cases hrel with
      | some h => exact h
    refine ⟨Δ₁, ⟨hmoves.typing, ?_, hmoves.later⟩, hscope⟩
    exact hmoves.typed.store (getElem?_of_growth hmoves.typing hcell) (hf.accepts hacc)
  | field n o x =>
    simp only [assign, bind_eq_ok, ofExcept_eq_ok, asObject_eq_ok, native_eq_ok] at h
    obtain ⟨_, m₁, ho, v, m₂, hv, ref, _, ⟨rfl, rfl⟩, w, hw, rfl⟩ := h
    obtain ⟨Δ₁, hmoves, hscope, hf⟩ := keeps_expr hinv o hm hS hs.fieldOwner ho
    rw [← hscope] at hS
    obtain ⟨Δ₂, hmoves', hscope', hf'⟩ :=
      keeps_expr hinv value hmoves.typed (hS.extend hmoves.typing) hs' hv
    obtain ⟨type, t', hty, hx, -, ht'⟩ := hs.obeys
    obtain rfl : t = t' := Option.some.inj (ht.symm.trans ht')
    obtain ⟨hworld, hlater⟩ := D.setField ⟨_, hty⟩ hmoves'.typed.world
      ((hf.later hmoves'.later).val hty) hx (hf'.accepts hacc) (Native.setField_eq_ok.1 hw)
    refine ⟨Δ₂, hmoves.trans (hmoves'.trans ⟨List.prefix_rfl, ?_, hlater⟩), hscope'.trans hscope⟩
    exact hmoves'.typed.later hworld hlater
  | _ => simp [assign, fail] at h

mutual

/-- Execution of a statement respects the discipline. -/
theorem keeps_stmt {inv : Invoke} (hinv : inv.Keeps D) {F : Nat} : (st : Stmt) →
    {Γ Γ' : Scope Ty Signature} → {Δ : List Ty} → {m m' : Machine} → {result : Ty} →
    {completion : Completion} → m.Typed D Δ → m.scope.Matches r a D.Covers Δ Γ → Γ.Plain →
    (∀ p ∈ st.parts, D.Covers p) → Stmt.Scoped r a result Γ st Γ' →
    stmt r inv F st m = .ok completion m' →
    ∃ Δ', m.Moves D Δ Δ' m' ∧ completion.Keeps D result Γ' Δ' m'
  | .expression e, _, _, Δ, m, m', _, _, hm, hS, hp, _, .expression _ hs, h => by
    simp only [stmt, bind_eq_ok, discard_eq_ok, pure_apply, EStateM.Result.ok.injEq] at h
    obtain ⟨_, _, ⟨v, he⟩, rfl, rfl⟩ := h
    obtain ⟨Δ', hmoves, hscope, -⟩ := keeps_expr hinv e hm hS hs he
    rw [← hscope] at hS
    exact ⟨Δ', hmoves, hS.extend hmoves.typing, hp⟩
  | .declare d, Γ, _, Δ, m, m', _, _, hm, hS, hp, hC,
    .declare ⟨t, ht, hr⟩ hs ht' _, h => by
    simp only [stmt, bind_eq_ok, define_apply, pure_apply, EStateM.Result.ok.injEq] at h
    obtain ⟨v, m₁, hv, _, _, ⟨-, rfl⟩, rfl, rfl⟩ := h
    have hnil : d.value = none → D.AllowsNil t := fun hv =>
      hC (.declaration d) (by simp [Stmt.parts]) hv t ht
    obtain ⟨Δ', hmoves, hscope, hval⟩ := keeps_optional hinv hm hS hs hr hnil hv
    rw [ht] at ht'
    obtain rfl := Option.some.inj ht'
    rw [← hscope] at hS
    exact ⟨Δ' ++ [t], hmoves.trans (.define hmoves.typed hval d.name),
      (hS.extend hmoves.typing).define hp hmoves.typed t v d.name, hp.defineVariable _ _⟩
  | .assign receiver value, _, _, Δ, m, m', _, _, hm, hS, hp, _, .assign ho hs hs', h => by
    simp only [stmt, bind_eq_ok, pure_apply, EStateM.Result.ok.injEq] at h
    obtain ⟨_, _, ha, rfl, rfl⟩ := h
    obtain ⟨Δ', hmoves, hscope⟩ := keeps_assign hinv hm hS ho hs hs' ha
    rw [← hscope] at hS
    exact ⟨Δ', hmoves, hS.extend hmoves.typing, hp⟩
  | .branch c ss ss', _, _, Δ, m, m', _, _, hm, hS, hp, hC, .branch _ hs hss hss', h => by
    simp only [stmt, bind_eq_ok, boolean_eq_ok] at h
    obtain ⟨b, m₁, hb, h⟩ := h
    obtain ⟨Δ₁, hmoves, hscope, -⟩ := keeps_expr hinv c hm hS hs hb
    rw [← hscope] at hS
    have hS₁ := hS.extend hmoves.typing
    cases b with
    | true =>
      obtain ⟨Δ₂, hmoves', -, hc⟩ :=
        keeps_block (keeps_stmts hinv ss) hmoves.typed hS₁ hp
          (fun p hp => hC p (by simp [Stmt.parts, hp])) hss h
      exact ⟨Δ₂, hmoves.trans hmoves', hc⟩
    | false =>
      obtain ⟨Δ₂, hmoves', -, hc⟩ :=
        keeps_block (keeps_stmts hinv ss') hmoves.typed hS₁ hp
          (fun p hp => hC p (by simp [Stmt.parts, hp])) hss' h
      exact ⟨Δ₂, hmoves.trans hmoves', hc⟩
  | .forEach x e ss, _, _, Δ, m, m', _, _, hm, hS, hp, hC, .forEach _ hs hss, h => by
    simp only [stmt, bind_eq_ok, ofExcept_eq_ok, asRange_eq_ok] at h
    obtain ⟨_, m₁, he, g, _, ⟨rfl, rfl⟩, h⟩ := h
    obtain ⟨Δ₁, hmoves, hscope, -⟩ := keeps_expr hinv e hm hS hs he
    rw [← hscope] at hS
    obtain ⟨Δ₂, hmoves', hc⟩ := keeps_rounds (keeps_stmts hinv ss) hp
      (fun p hp => hC p (by simp [Stmt.parts, hp])) hss hmoves.typed (hS.extend hmoves.typing) h
    exact ⟨Δ₂, hmoves.trans hmoves', hc⟩
  | .loop c ss, _, _, Δ, m, m', _, _, hm, hS, hp, hC, .loop _ hs hss, h => by
    simp only [stmt] at h
    exact keeps_loop hinv (keeps_stmts hinv ss) hp hs
      (fun p hp => hC p (by simp [Stmt.parts, hp])) hss hm hS h
  | .ret offset e, _, _, Δ, m, m', _, _, hm, hS, hp, _, .ret ho hs, h => by
    simp only [stmt, bind_eq_ok, pure_apply, EStateM.Result.ok.injEq] at h
    obtain ⟨v, _, he, rfl, rfl⟩ := h
    obtain ⟨Δ', hmoves, -, hf⟩ := keeps_expr hinv e hm hS hs he
    exact ⟨Δ', hmoves, hf.accepts ho⟩
termination_by structural st => st

/-- Execution of statements respects the discipline. -/
theorem keeps_stmts {inv : Invoke} (hinv : inv.Keeps D) {F : Nat} : (ss : List Stmt) →
    StmtsKeep D inv F ss
  | [], _, _, Δ, m, m', _, _, hm, hS, hp, _, .nil, h => by
    simp only [stmts, pure_apply, EStateM.Result.ok.injEq] at h
    obtain ⟨rfl, rfl⟩ := h
    exact ⟨Δ, .refl hm, hS, hp⟩
  | st :: ss, _, _, Δ, m, m', _, _, hm, hS, hp, hC, .cons hs hss, h => by
    simp only [stmts, bind_eq_ok] at h
    obtain ⟨c, m₁, hst, h⟩ := h
    have hC₁ : ∀ p ∈ st.parts, D.Covers p := fun p hp => hC p (by simp [Stmt.partsList, hp])
    have hC₂ : ∀ p ∈ Stmt.partsList ss, D.Covers p := fun p hp =>
      hC p (by simp [Stmt.partsList, hp])
    obtain ⟨Δ₁, hmoves, hc⟩ := keeps_stmt hinv st hm hS hp hC₁ hs hst
    cases c with
    | normal =>
      obtain ⟨Δ₂, hmoves', hc'⟩ := keeps_stmts hinv ss hmoves.typed hc.1 hc.2 hC₂ hss h
      exact ⟨Δ₂, hmoves.trans hmoves', hc'⟩
    | returned v =>
      simp only [pure_apply, EStateM.Result.ok.injEq] at h
      obtain ⟨rfl, rfl⟩ := h
      exact ⟨Δ₁, hmoves, hc⟩
termination_by structural ss => ss

end

/-! ## Calls -/

/-- Binding parameters to arguments respects the discipline. -/
theorem keeps_parameters {ps : List Parameter} {ts : List Ty} {vs : List Value} {u : Unit}
    (hs : Parameters.Scoped Γ ps ts Γ') (hm : m.Typed D Δ) (hS : m.scope.Matches r a D.Covers Δ Γ)
    (hp : Γ.Plain) (hv : List.Forall₂ (D.val m.world) ts vs)
    (h : defineParameters ps vs m = .ok u m') :
    ∃ Δ', m.Moves D Δ Δ' m' ∧ m'.scope.Matches r a D.Covers Δ' Γ' ∧ Γ'.Plain := by
  induction hs generalizing Δ m vs with
  | nil =>
    simp only [defineParameters, pure_apply, EStateM.Result.ok.injEq, true_and] at h
    subst h
    exact ⟨Δ, .refl hm, hS, hp⟩
  | @cons Γ Γ' p ps t ts _ _ ih =>
    cases hv with
    | @cons _ v _ vs hv hvs =>
      simp only [defineParameters, bind_eq_ok, define_apply, EStateM.Result.ok.injEq] at h
      obtain ⟨_, _, ⟨-, rfl⟩, h⟩ := h
      have hmoves := Machine.Moves.define hm hv p.name
      obtain ⟨Δ', hmoves', hS', hp'⟩ := ih hmoves.typed (hS.define hp hm t v p.name)
        (hp.defineVariable _ _) hvs h
      exact ⟨Δ', hmoves.trans hmoves', hS', hp'⟩

/-- Calls of native functions respect the discipline. -/
theorem keeps_native {f : NativeFunction} {S : RunScope} {vs : List Value} {v : Value}
    (hm : m.Typed D Δ) (hf : f ∈ r.functions.map Prod.snd)
    (hv : List.Forall₂ (D.val m.world) f.signature.parameters vs)
    (h : invoke r F (.native f) S vs m = .ok v m') :
    m.Moves D Δ Δ m' ∧ m'.scope = m.scope ∧ D.val m'.world f.signature.result v := by
  obtain ⟨w, hw, rfl⟩ := native_eq_ok.1 (invoke_native_eq_ok h).2
  obtain ⟨hval, hworld, hlater⟩ := D.function hf hm.world hv hw
  exact ⟨⟨List.prefix_rfl, hm.later hworld hlater, hlater⟩, rfl, hval⟩

/-- **Calls respect the discipline.** -/
theorem invoke_keeps (D : Discipline r a) (F : Nat) : (invoke r F).Keeps D := by
  induction F with
  | zero =>
    intro callable S Γ signature vs Δ m m' v hm hS himp hv h
    cases callable with
    | native f =>
      obtain ⟨hf, rfl⟩ := himp
      exact ⟨Δ, keeps_native hm hf hv h⟩
    | declared d =>
      obtain ⟨-, -, F', _, _, _, hF, -⟩ := invoke_declared_eq_ok h
      cases hF
  | succ F ih =>
    intro callable S Γ signature vs Δ m m' v hm hS himp hv h
    cases callable with
    | native f =>
      obtain ⟨hf, rfl⟩ := himp
      exact ⟨Δ, keeps_native hm hf hv h⟩
    | declared d =>
      obtain ⟨ho, hC, Γ₁, Γ₂, hps, hbody⟩ := himp
      obtain ⟨-, -, F', completion, m₁, m₂, hF, hp, hb, rfl, rfl⟩ := invoke_declared_eq_ok h
      obtain rfl : F = F' := by simpa using hF
      obtain ⟨Δ₁, hmoves, hS₁, hp₁⟩ := keeps_parameters hps (hm.call _ _) hS.child (.child Γ) hv hp
      obtain ⟨Δ₂, hmoves', hc⟩ := keeps_stmts ih d.body hmoves.typed hS₁ hp₁
        (fun p hp => hC p (by simp [Method.parts, hp])) hbody hb
      have hcall := hmoves.trans hmoves'
      refine ⟨Δ₂, ⟨hcall.typing, hcall.typed.call _ _, hcall.later⟩, rfl, ?_⟩
      cases completion with
      | normal =>
        -- the body has ended without a result, so it may
        rcases hC (.method d) (by simp [Method.parts]) signature ho.1 with hnil | hreturns
        · exact hnil _
        · obtain ⟨v, hv⟩ := stmts_returned d.body hreturns hb
          cases hv
      | returned v => exact hc

/-! ## Programs -/

theorem keeps_fields {fs : List Field} {u : Unit} (hs : Fields.Scoped r a Γ fs Γ')
    (hC : ∀ f ∈ fs, D.Covers (.field f)) (hm : m.Typed D Δ)
    (hS : m.scope.Matches r a D.Covers Δ Γ) (hp : Γ.Plain)
    (h : defineFields r F fs m = .ok u m') :
    ∃ Δ', m.Moves D Δ Δ' m' ∧ m'.scope.Matches r a D.Covers Δ' Γ' ∧ Γ'.Plain := by
  induction hs generalizing Δ m with
  | nil =>
    simp only [defineFields, pure_apply, EStateM.Result.ok.injEq, true_and] at h
    subst h
    exact ⟨Δ, .refl hm, hS, hp⟩
  | @cons Γ Γ' f fs t ho hsound ht _ _ ih =>
    simp only [defineFields, bind_eq_ok, define_apply, EStateM.Result.ok.injEq] at h
    obtain ⟨v, m₁, hv, _, _, ⟨-, rfl⟩, h⟩ := h
    obtain ⟨t', ht', hr⟩ := ho
    obtain rfl : t = t' := Option.some.inj (ht.symm.trans ht')
    obtain ⟨Δ₁, hmoves, hscope, hval⟩ := keeps_optional (invoke_keeps D F) hm hS hsound hr
      (fun hnone => hC f (by simp) hnone t ht) hv
    rw [← hscope] at hS
    have hmoves' := hmoves.trans (.define hmoves.typed hval f.name)
    obtain ⟨Δ₂, hmoves₂, hS₂, hp₂⟩ := ih (fun f' hf' => hC f' (by simp [hf'])) hmoves'.typed
      ((hS.extend hmoves.typing).define hp hmoves.typed t v f.name) (hp.defineVariable _ _) h
    exact ⟨Δ₂, hmoves'.trans hmoves₂, hS₂, hp₂⟩

/-- The scope while methods are being defined: the innermost frame has the methods so
    far, all of them meant for the scope `Γ'` in the end. -/
structure Scope.Defining (r : Registry) (a : Analysis) (C : Part → Prop) (Δ : List Ty)
    (S : RunScope) (Γ : Scope Ty Signature) (ds : List Method) (Γ' : Scope Ty Signature) :
    Prop where
  methods : Methods.Scoped r a Γ ds Γ'
  parts : ∀ d ∈ ds, ∀ p ∈ d.parts, C p
  bodies : ∀ d ∈ ds, ∃ signature, d.Obeys r a signature ∧ d.Scoped r a Γ' signature
  frames : ∃ f S' g Γ₀, S = f :: S' ∧ Γ = g :: Γ₀ ∧ f.Matches r a C Δ Γ' g ∧
    Scope.Matches r a C Δ S' Γ₀

theorem Scope.Defining.tail {C : Part → Prop} {S : RunScope} {d : Method} {ds : List Method}
    (h : S.Defining r a C Δ Γ (d :: ds) Γ') :
    S.hasLocalFunction d.name d.arity = false ∧
      ∃ Γ₁, (S.defineFunction d.name d.arity (.declared d)).Defining r a C Δ Γ₁ ds Γ' := by
  obtain ⟨hs, hC, hb, f, S', g, Γ₀, rfl, rfl, hf, hS'⟩ := h
  cases hs with
  | @cons _ _ _ _ signature ho hlocal hs =>
    obtain ⟨signature', ho', hbody⟩ := hb d (by simp)
    obtain rfl : signature = signature' := Option.some.inj (ho.1.symm.trans ho'.1)
    refine ⟨?_, _, hs, fun d' hd' => hC d' (by simp [hd']), fun d' hd' => hb d' (by simp [hd']),
      _, _, _, _, rfl, rfl, ⟨hf.vars, fun y k => ?_⟩, hS'⟩
    · have hrel := hf.functions d.name d.arity
      simp only [Scope.hasLocalFunction, Option.isSome_eq_false_iff,
        Option.isNone_iff_eq_none] at hlocal ⊢
      rw [hlocal] at hrel
      generalize f.functions d.name d.arity = o at hrel ⊢
      cases hrel
      rfl
    · simp only [Frame.functions_defineFunction]
      split
      · rename_i heq
        have himp : (Callable.declared d).Implements r a C Γ' signature :=
          ⟨ho, hC d (by simp), hbody⟩
        refine .some ⟨himp, ?_⟩
        rw [heq.2]
        exact himp.arity.symm
      · exact hf.functions y k

theorem keeps_methods {C : Part → Prop} {S : RunScope} {ds : List Method} {u : Unit}
    (hs : S.Defining r a C Δ Γ ds Γ') (hS : m.scope = S) (h : ds.forM defineMethod m = .ok u m') :
    m'.scope.Matches r a C Δ Γ' ∧ m' = { m with scope := m'.scope } := by
  induction ds generalizing S Γ m with
  | nil =>
    simp only [List.forM, pure_apply, EStateM.Result.ok.injEq, true_and] at h
    subst h
    obtain ⟨hs, -, -, f, S', g, Γ₀, rfl, rfl, hf, hS'⟩ := hs
    cases hs
    exact ⟨hS ▸ .cons hf hS', rfl⟩
  | cons d ds ih =>
    obtain ⟨-, Γ₁, hs₁⟩ := hs.tail
    simp only [List.forM, bind_eq_ok, defineMethod_apply, EStateM.Result.ok.injEq] at h
    obtain ⟨_, _, ⟨-, rfl⟩, h⟩ := h
    obtain ⟨hmatch, heq⟩ := ih hs₁ (by rw [hS]) h
    exact ⟨hmatch, by rw [heq]⟩

end

end

end TinyScript
