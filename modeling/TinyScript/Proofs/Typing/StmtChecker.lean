import TinyScript.Proofs.Typing.ExprChecker

/-
  Analysis of statements is sound.

  A step of analysis that succeeds records facts about its part of the tree only,
  and these facts put that part between the scopes before and after the step, in
  every later table that still has them (`Check.Passes`).  Steps are composed by
  `Passes.comp`; distinct identities keep the facts of the first step.
-/

namespace TinyScript

/-! ## Keyed scopes -/

namespace Scope.Keyed

variable {V : Type} {Γ : Scope V Signature}

theorem child (h : Γ.Keyed) : Γ.child.Keyed := by
  intro f hf name arity signature hs
  rcases List.mem_cons.1 hf with rfl | hf
  · simp at hs
  · exact h f hf name arity signature hs

/-- A change of the innermost frame keeps a scope keyed if the new frame is. -/
theorem modifyTop (h : Γ.Keyed) {g : Frame V Signature → Frame V Signature}
    (hg : ∀ f name arity signature, (g f).functions name arity = some signature →
      f.functions name arity = some signature ∨ signature.name = name ∧ signature.arity = arity) :
    (Γ.modifyTop g).Keyed := by
  intro f hf name arity signature hs
  cases Γ with
  | nil =>
    obtain rfl := List.mem_singleton.1 hf
    rcases hg _ _ _ _ hs with hs | hs
    · simp at hs
    · exact hs
  | cons f₀ Γ =>
    rcases List.mem_cons.1 hf with rfl | hf
    · rcases hg _ _ _ _ hs with hs | hs
      · exact h f₀ (by simp) name arity signature hs
      · exact hs
    · exact h f (by simp [hf]) name arity signature hs

theorem defineVariable (h : Γ.Keyed) (name : String) (v : V) : (Γ.defineVariable name v).Keyed :=
  h.modifyTop fun _ _ _ _ hs => Or.inl hs

theorem defineFunction (h : Γ.Keyed) {signature : Signature} {name : String} {arity : Nat}
    (hname : signature.name = name) (harity : signature.arity = arity) :
    (Γ.defineFunction name arity signature).Keyed := by
  refine h.modifyTop fun f n k g hs => ?_
  rw [Frame.functions_defineFunction] at hs
  split at hs
  · rename_i heq
    obtain rfl := Option.some.inj hs
    exact Or.inr ⟨hname.trans heq.1.symm, harity.trans heq.2.symm⟩
  · exact Or.inl hs

end Scope.Keyed

namespace Check

open Analysis

/-- What a successful step of analysis has done: it has recorded facts about the
    parts only, and as long as a table has these facts, `P` holds of it. -/
structure Passes (ps : List Part) (P : Analysis → Prop) (s s' : CheckState) : Prop where
  result : s'.result = s.result
  keyed : s'.scope.Keyed
  within : Within ps s.analysis s'.analysis
  sound : ∀ c, Agrees ps s'.analysis c → P c

namespace Passes

variable {ps qs : List Part} {P Q : Analysis → Prop} {s s₁ s' : CheckState}

theorem mono (h : Passes ps P s s') (hp : ∀ c, P c → Q c) : Passes ps Q s s' :=
  ⟨h.result, h.keyed, h.within, fun c hc => hp c (h.sound c hc)⟩

/-- Two steps one after the other. -/
theorem comp (hn : Part.Distinct (ps ++ qs)) (h : Passes ps P s s₁) (h' : Passes qs Q s₁ s') :
    Passes (ps ++ qs) (fun c => P c ∧ Q c) s s' :=
  ⟨h'.result.trans h.result, h'.keyed, h.within.trans h'.within, fun c hc =>
    ⟨h.sound c (hc.before hn h'.within), h'.sound c hc.append_right⟩⟩

/-- A step that records nothing. -/
theorem silent (hs : s'.scope.Keyed) (hr : s'.result = s.result) (ha : s'.analysis = s.analysis)
    (hp : ∀ c, P c) : Passes [] P s s' := by
  refine ⟨hr, hs, ?_, fun c _ => hp c⟩
  rw [ha]
  exact Within.refl _ _

/-- The end of a block: the scope is the outer one again. -/
theorem leave (h : Passes ps P { s with scope := s.scope.child } s') (hk : s.scope.Keyed) :
    Passes ps P s { s' with scope := s.scope } :=
  ⟨h.result, hk, h.within, h.sound⟩

end Passes

theorem Finds.passes {r : Registry} {e : Expr} {s s' : CheckState} {t : Ty}
    (h : Finds r e s t s') (hk : s.scope.Keyed) :
    Passes e.parts (fun c => c.types[e.id]? = some t ∧ e.Sound r c s.scope) s s' :=
  ⟨h.result, by rwa [h.scope], h.within, h.sound⟩

/-! ## Elementary steps -/

section
variable {α : Type} {s s' : CheckState} {a : α}

theorem inChild_eq_ok {step : Check α} : inChild step s = .ok a s' ↔
    ∃ s₁, step { s with scope := s.scope.child } = .ok a s₁ ∧
      s' = { s₁ with scope := s.scope } := by
  rw [inChild, get_bind, inScope]
  cases step { s with scope := s.scope.child } with
  | ok b s₁ => simp [eq_comm, and_assoc]
  | error e s₁ => simp

theorem withResult_eq_ok {step : Check α} {t : Ty} : withResult t step s = .ok a s' ↔
    ∃ s₁, step { s with result := t } = .ok a s₁ ∧ s' = { s₁ with result := s.result } := by
  rw [withResult]
  cases step { s with result := t } with
  | ok b s₁ => simp [eq_comm, and_assoc]
  | error e s₁ => simp

end

theorem defineVariable_eq_ok {x : String} {t : Ty} {s s' : CheckState} {u : Unit} :
    defineVariable x t s = .ok u s' ↔
      s.scope.hasLocalVariable x = false ∧ s' = { s with scope := s.scope.defineVariable x t } := by
  rw [defineVariable, get_bind]
  cases s.scope.hasLocalVariable x with
  | true => simp
  | false => simp [eq_comm]

theorem resolve_eq_ok {r : Registry} {name : String} {t : Ty} {s s' : CheckState}
    (h : resolve r name s = .ok t s') : r.resolve? name = some t ∧ s' = s := by
  rw [resolve] at h
  cases hn : r.resolve? name with
  | none => simp [hn] at h
  | some u =>
    simp only [hn, pure_apply, EStateM.Result.ok.injEq] at h
    exact ⟨by rw [h.1], h.2.symm⟩

theorem resolveConcrete_eq_ok {r : Registry} {declared name : String} {t : Ty}
    {s s' : CheckState} (h : resolveConcrete r declared name s = .ok t s') :
    r.resolve? name = some t ∧ t.isCapability = false ∧ s' = s := by
  simp only [resolveConcrete, bind_eq_ok] at h
  obtain ⟨u, s₁, hu, h⟩ := h
  obtain ⟨hres, rfl⟩ := resolve_eq_ok hu
  split at h
  · simp at h
  · rename_i hc
    simp only [pure_apply, EStateM.Result.ok.injEq] at h
    obtain ⟨rfl, rfl⟩ := h
    exact ⟨hres, by simpa using hc, rfl⟩

/-- The optional annotation of a declaration. -/
theorem annotation_eq_ok {r : Registry} {name : String} {o : Option String} {t : Option Ty}
    {s s' : CheckState} (h : o.mapM (resolveConcrete r name) s = .ok t s') :
    Option.Rel (fun n t => r.resolve? n = some t ∧ t.isCapability = false) o t ∧ s' = s := by
  cases o with
  | none =>
    simp only [Option.mapM_none, pure_apply, EStateM.Result.ok.injEq] at h
    obtain ⟨rfl, rfl⟩ := h
    exact ⟨.none, rfl⟩
  | some n =>
    simp only [Option.mapM_some, map_eq_ok] at h
    obtain ⟨u, hu, rfl⟩ := h
    obtain ⟨hres, hcap, rfl⟩ := resolveConcrete_eq_ok hu
    exact ⟨.some ⟨hres, hcap⟩, rfl⟩

theorem condition_eq_ok {r : Registry} {e : Expr} {s s' : CheckState} {u : Unit}
    (h : condition r e s = .ok u s') : expr r e s = .ok .boolean s' := by
  simp only [condition, bind_eq_ok, requireBoolean_eq_ok] at h
  obtain ⟨t, s₁, he, rfl, rfl⟩ := h
  exact he

/-- The optional value of a declaration. -/
theorem passes_optional {r : Registry} {v : Option Expr} {s s' : CheckState} {t : Option Ty}
    (hk : s.scope.Keyed) (hn : Part.Distinct (Expr.optionalParts v))
    (h : optionalExpr r v s = .ok t s') :
    s'.scope = s.scope ∧ Passes (Expr.optionalParts v) (fun c =>
      Option.Rel (fun e t => c.types[e.id]? = some t) v t ∧ ∀ e ∈ v, e.Sound r c s.scope) s s' := by
  cases v with
  | none =>
    simp only [optionalExpr, pure_apply, EStateM.Result.ok.injEq] at h
    obtain ⟨rfl, rfl⟩ := h
    exact ⟨rfl, .silent hk rfl rfl fun c => ⟨.none, by simp⟩⟩
  | some e =>
    simp only [optionalExpr, bind_eq_ok, pure_apply, EStateM.Result.ok.injEq] at h
    obtain ⟨u, s₁, he, rfl, rfl⟩ := h
    have hf := finds_expr r e hk hn he
    refine ⟨hf.scope, (hf.passes hk).mono fun c hc => ⟨.some hc.1, ?_⟩⟩
    rintro e' ⟨⟩
    exact hc.2

/-- The type of a declaration follows the rule. -/
theorem declarationRule_of_declaredType {r : Registry} {c : Analysis} {typeName : Option String}
    {value : Option Expr} {name : String} {declared found : Option Ty} {t : Ty} {s s' : CheckState}
    (h : declaredType name declared found s = .ok t s')
    (hd : Option.Rel (fun n t => r.resolve? n = some t ∧ t.isCapability = false) typeName declared)
    (hv : Option.Rel (fun e t => c.types[e.id]? = some t) value found) :
    DeclarationRule r c typeName value t := by
  cases hd with
  | none =>
    cases hv with
    | none => simp [declaredType] at h
    | @some e u hu =>
      simp only [declaredType, pure_apply, EStateM.Result.ok.injEq] at h
      exact ⟨e, rfl, by rw [hu, h.1]⟩
  | @some n d hd =>
    cases hv with
    | none =>
      simp only [declaredType, pure_apply, EStateM.Result.ok.injEq] at h
      obtain ⟨rfl, rfl⟩ := h
      exact ⟨hd.1, hd.2, by simp⟩
    | @some e u hu =>
      simp only [declaredType, bind_eq_ok, requireAssignable_eq_ok, pure_apply,
        EStateM.Result.ok.injEq] at h
      obtain ⟨_, _, ⟨hacc, rfl⟩, rfl, rfl⟩ := h
      refine ⟨hd.1, hd.2, ?_⟩
      rintro e' ⟨⟩
      exact ⟨u, hu, hacc⟩

theorem declaredType_state {name : String} {declared found : Option Ty} {t : Ty}
    {s s' : CheckState} (h : declaredType name declared found s = .ok t s') : s' = s := by
  cases declared <;> cases found <;>
    simp only [declaredType, bind_eq_ok, requireAssignable_eq_ok, pure_apply, throw_apply,
      EStateM.Result.ok.injEq, reduceCtorEq] at h
  · exact h.2.symm
  · exact h.2.symm
  · obtain ⟨_, _, ⟨_, rfl⟩, _, rfl⟩ := h
    rfl

/-- Analysis of a declaration is sound. -/
theorem passes_declaration {r : Registry} {d : Declaration} {s s' : CheckState} {u : Unit}
    (hk : s.scope.Keyed) (hn : Part.Distinct (Stmt.declare d).parts)
    (h : declaration r d s = .ok u s') :
    Passes (Stmt.declare d).parts (fun c => Stmt.Scoped r c s.result s.scope (.declare d) s'.scope)
      s s' := by
  simp only [Stmt.parts] at hn ⊢
  simp only [declaration, bind_eq_ok, record_apply, defineVariable_eq_ok,
    EStateM.Result.ok.injEq, true_and] at h
  obtain ⟨declared, s₀, hd, found, s₁, hv, t, s₂, ht, _, _, ⟨hlocal, rfl⟩, rfl⟩ := h
  obtain ⟨hrel, rfl⟩ := annotation_eq_ok hd
  obtain ⟨hscope, hpass⟩ := passes_optional hk hn.left hv
  obtain rfl := declaredType_state ht
  have hrec : Passes [.declaration d] (fun c => c.declarations[d.node.id]? = some t) s₂
      { s₂ with
        scope := s₂.scope.defineVariable d.name t
        analysis := s₂.analysis.recordDeclaration d.node.id t } :=
    ⟨rfl, hpass.keyed.defineVariable _ _,
      within_recordDeclaration (p := .declaration d) _ rfl t,
      fun c hc => (hc (.declaration d) (by simp)).declarations.trans (by simp [Part.id])⟩
  refine (hpass.comp hn hrec).mono fun c hc => ?_
  obtain ⟨⟨hty, hsound⟩, hdecl⟩ := hc
  rw [hscope] at hlocal ⊢
  exact .declare ⟨t, hdecl, declarationRule_of_declaredType ht hrel hty⟩ hsound hdecl hlocal

/-- Analysis of an assignment is sound. -/
theorem passes_assignment {r : Registry} {receiver value : Expr} {s s' : CheckState} {u : Unit}
    (hk : s.scope.Keyed) (hn : Part.Distinct (Stmt.assign receiver value).parts)
    (h : assignment r receiver value s = .ok u s') :
    Passes (Stmt.assign receiver value).parts
      (fun c => Stmt.Scoped r c s.result s.scope (.assign receiver value) s'.scope) s s' := by
  simp only [Stmt.parts] at hn ⊢
  simp only [assignment] at h
  split at h
  · rename_i hacc
    simp only [bind_eq_ok, requireAssignable_eq_ok] at h
    obtain ⟨t, s₁, h₁, t', s₂, h₂, hass, rfl⟩ := h
    have hf := finds_expr r receiver hk hn.left h₁
    have hk₁ := (hf.passes hk).keyed
    have hf' := finds_expr r value hk₁ hn.right h₂
    refine ((hf.passes hk).comp hn (hf'.passes hk₁)).mono fun c hc => ?_
    obtain ⟨⟨ht, hs⟩, ht', hs'⟩ := hc
    rw [hf.scope] at hs'
    rw [hf'.scope, hf.scope]
    exact .assign ⟨hacc, t, ht, t', ht', hass⟩ hs hs'
  · simp at h

/-! ## Statements -/

mutual

/-- Analysis of a statement is sound. -/
theorem passes_stmt (r : Registry) : (st : Stmt) → {s s' : CheckState} → {u : Unit} →
    s.scope.Keyed → Part.Distinct st.parts → stmt r st s = .ok u s' →
    Passes st.parts (fun c => Stmt.Scoped r c s.result s.scope st s'.scope) s s'
  | .expression e, s, s', _, hk, hn, h => by
    simp only [Stmt.parts] at hn ⊢
    simp only [stmt, bind_eq_ok, discard_eq_ok] at h
    obtain ⟨_, s₁, ⟨t, he⟩, h⟩ := h
    split at h
    · rename_i hcall
      simp only [pure_apply, EStateM.Result.ok.injEq, true_and] at h
      subst h
      have hf := finds_expr r e hk hn he
      refine (hf.passes hk).mono fun c hc => ?_
      rw [hf.scope]
      exact .expression hcall hc.2
    · simp at h
  | .declare d, s, s', _, hk, hn, h => passes_declaration hk hn h
  | .assign receiver value, s, s', _, hk, hn, h => passes_assignment hk hn h
  | .branch c thenBody elseBody, s, s', _, hk, hn, h => by
    simp only [Stmt.parts] at hn ⊢
    simp only [stmt, bind_eq_ok] at h
    obtain ⟨_, s₁, hc, h⟩ := h
    have hf := finds_expr r c hk hn.left.left (condition_eq_ok hc)
    cases hb : thenBody.isEmpty with
    | true => simp [hb, bind_eq_ok] at h
    | false =>
      simp only [hb, Bool.false_eq_true, ↓reduceIte, bind_eq_ok, inChild_eq_ok] at h
      obtain ⟨_, _, ⟨s₂, h₁, rfl⟩, s₃, h₂, rfl⟩ := h
      have hk₁ := (hf.passes hk).keyed
      have hthen := (passes_stmts r thenBody hk₁.child hn.left.right h₁).leave hk₁
      have helse := (passes_stmts r elseBody hk₁.child hn.right h₂).leave hk₁
      refine (((hf.passes hk).comp hn.left hthen).comp hn helse).mono
        fun c hc => ?_
      obtain ⟨⟨⟨ht, hs⟩, hs₁⟩, hs₂⟩ := hc
      have hr : s₂.result = s.result := hthen.result.trans hf.result
      simp only [hf.scope, hf.result, hr] at hs₁ hs₂ ⊢
      exact .branch ⟨ht, by simpa using hb⟩ hs hs₁ hs₂
  | .forEach x value body, s, s', _, hk, hn, h => by
    simp only [Stmt.parts] at hn ⊢
    simp only [stmt, bind_eq_ok] at h
    obtain ⟨t, s₁, hv, h⟩ := h
    split at h
    · rename_i ht
      subst ht
      simp only [inChild_eq_ok, bind_eq_ok, defineVariable_eq_ok] at h
      obtain ⟨s₂, ⟨_, _, ⟨_, rfl⟩, h⟩, rfl⟩ := h
      have hf := finds_expr r value hk hn.left hv
      have hk₁ := (hf.passes hk).keyed
      have hb := passes_stmts r body (hk₁.child.defineVariable x .integer) hn.right h
      have hbody : Passes (Stmt.partsList body) _ s₁ { s₂ with scope := s₁.scope } :=
        ⟨hb.result, hk₁, hb.within, hb.sound⟩
      refine ((hf.passes hk).comp hn hbody).mono fun c hc => ?_
      obtain ⟨⟨ht, hs⟩, hs'⟩ := hc
      simp only [hf.scope, hf.result] at hs' ⊢
      exact .forEach ht hs hs'
    · simp at h
  | .loop c body, s, s', _, hk, hn, h => by
    simp only [Stmt.parts] at hn ⊢
    simp only [stmt, bind_eq_ok, inChild_eq_ok] at h
    obtain ⟨_, s₁, hc, s₂, hb, rfl⟩ := h
    have hf := finds_expr r c hk hn.left (condition_eq_ok hc)
    have hk₁ := (hf.passes hk).keyed
    have hbody := (passes_stmts r body hk₁.child hn.right hb).leave hk₁
    refine ((hf.passes hk).comp hn hbody).mono fun c hc => ?_
    obtain ⟨⟨ht, hs⟩, hs'⟩ := hc
    simp only [hf.scope, hf.result] at hs' ⊢
    exact .loop ht hs hs'
  | .ret offset value, s, s', _, hk, hn, h => by
    simp only [Stmt.parts] at hn ⊢
    simp only [stmt, bind_eq_ok, get_apply, EStateM.Result.ok.injEq, requireAssignable_eq_ok] at h
    obtain ⟨t, s₁, hv, _, _, ⟨rfl, rfl⟩, hacc, rfl⟩ := h
    have hf := finds_expr r value hk hn hv
    refine (hf.passes hk).mono fun c hc => ?_
    rw [hf.result] at hacc
    rw [hf.scope]
    exact .ret ⟨t, hc.1, hacc⟩ hc.2
termination_by structural st => st

/-- Analysis of statements is sound. -/
theorem passes_stmts (r : Registry) : (ss : List Stmt) → {s s' : CheckState} → {u : Unit} →
    s.scope.Keyed → Part.Distinct (Stmt.partsList ss) → stmts r ss s = .ok u s' →
    Passes (Stmt.partsList ss) (fun c => Stmts.Scoped r c s.result s.scope ss s'.scope) s s'
  | [], s, s', _, hk, _, h => by
    simp only [stmts, pure_apply, EStateM.Result.ok.injEq, true_and] at h
    subst h
    exact .silent hk rfl rfl fun _ => .nil
  | st :: ss, s, s', _, hk, hn, h => by
    simp only [Stmt.partsList] at hn ⊢
    simp only [stmts, bind_eq_ok] at h
    obtain ⟨_, s₁, h₁, h₂⟩ := h
    have hp := passes_stmt r st hk hn.left h₁
    have hps := passes_stmts r ss hp.keyed hn.right h₂
    refine (hp.comp hn hps).mono fun c hc => ?_
    obtain ⟨hs, hss⟩ := hc
    rw [hp.result] at hss
    exact .cons hs hss
termination_by structural ss => ss

end

end Check

end TinyScript
