import TinyScript.Proofs.Typing.Growth

/-
  Analysis of expressions is sound.

  If analysis accepts an expression, it leaves the scope alone, records facts about
  the parts of the expression only, and the recorded facts obey the rules in every
  later table that still has them (`finds_expr`).
-/

namespace TinyScript

/-- Every function of the scope stands under its own name and number of
    parameters. -/
def Scope.Keyed {V : Type} (Γ : Scope V Signature) : Prop :=
  ∀ f ∈ Γ, ∀ name arity signature, f.functions name arity = some signature →
    signature.name = name ∧ signature.arity = arity

theorem Scope.Keyed.function? {V : Type} {Γ : Scope V Signature} (h : Γ.Keyed) {name : String}
    {arity : Nat} {signature : Signature} (hf : Γ.function? name arity = some signature) :
    signature.name = name ∧ signature.arity = arity := by
  induction Γ with
  | nil => simp [Scope.function?, findFunction?] at hf
  | cons f Γ ih =>
    simp only [Scope.function?, findFunction?] at hf
    cases hff : f.functions name arity with
    | some g =>
      simp only [hff, Option.map_some, Option.some.injEq] at hf
      subst hf
      exact h f (by simp) name arity g hff
    | none =>
      simp only [hff] at hf
      exact ih (fun g hg => h g (by simp [hg])) hf

namespace Check

open Analysis

/-- What a successful analysis of an expression has done. -/
structure Finds (r : Registry) (e : Expr) (s : CheckState) (t : Ty) (s' : CheckState) : Prop where
  scope : s'.scope = s.scope
  result : s'.result = s.result
  within : Within e.parts s.analysis s'.analysis
  sound : ∀ c, Agrees e.parts s'.analysis c → c.types[e.id]? = some t ∧ e.Sound r c s.scope

/-- What a successful analysis of arguments has done. -/
structure FindsAll (r : Registry) (es : List Expr) (s : CheckState) (ts : List Ty)
    (s' : CheckState) : Prop where
  scope : s'.scope = s.scope
  result : s'.result = s.result
  within : Within (es.flatMap Expr.parts) s.analysis s'.analysis
  sound : ∀ c, Agrees (es.flatMap Expr.parts) s'.analysis c →
    List.Forall₂ c.Accepts ts es ∧ ∀ e ∈ es, e.Sound r c s.scope

/-! ## Elementary steps -/

theorem record_apply (f : Analysis → Analysis) (s : CheckState) :
    record f s = .ok () { s with analysis := f s.analysis } := rfl

theorem record_bind {β : Type} (f : Analysis → Analysis) (k : Unit → Check β) (s : CheckState) :
    (record f >>= k) s = k () { s with analysis := f s.analysis } := rfl

theorem requireAssignable_eq_ok {target source : Ty} {s s' : CheckState} {u : Unit} :
    requireAssignable target source s = .ok u s' ↔ target.accepts source = true ∧ s' = s := by
  rw [requireAssignable]
  split
  · rename_i ht
    simp [ht, eq_comm]
  · rename_i ht
    simp [ht]

theorem requireBoolean_eq_ok {t : Ty} {offset : Nat} {s s' : CheckState} {u : Unit} :
    requireBoolean t offset s = .ok u s' ↔ t = .boolean ∧ s' = s := by
  rw [requireBoolean]
  split
  · rename_i ht
    simp [ht, eq_comm]
  · rename_i ht
    simp [ht]

theorem literal_eq_ok {offset : Nat} {value : Literal} {t : Ty} {s s' : CheckState}
    (h : literal offset value s = .ok t s') : t = value.type ∧ s' = s := by
  cases value <;> simp only [literal] at h
  case integer n =>
    split at h <;> simp_all [Literal.type]
  case decimal d =>
    split at h <;> simp_all [Literal.type]
  all_goals simp_all [Literal.type]

theorem requireObject_eq_ok {r : Registry} {t : Ty} {offset : Nat} {o : ObjectType}
    {s s' : CheckState} (h : requireObject r t offset s = .ok o s') :
    ∃ ref, t = .object ref ∧ o = r.describe ref ∧ s' = s := by
  cases t <;> simp [requireObject] at h
  case object ref => exact ⟨ref, rfl, h.1.symm, h.2.symm⟩

/-- The operators of analysis follow the rules. -/
theorem binaryRule_of_operatorType? {o : BinaryOperator} {s t u : Ty}
    (ho : ¬(o = .and ∨ o = .or)) (h : operatorType? o s t = some u) : BinaryRule o s t u := by
  unfold operatorType? at h
  split at h
  · rename_i hc
    split at h
    · rename_i hs
      simp only [Bool.and_eq_true] at hs
      obtain ⟨hs, ht⟩ := hs
      obtain rfl : s = t := by
        cases s <;> simp_all [Ty.isComparable, Ty.same]
      simp only [Option.some.injEq] at h
      subst h
      exact .comparison hc hs
    · simp at h
  · rename_i hc
    split at h
    · rename_i hadd
      simp only [Option.some.injEq] at h
      subst h
      rw [hadd.1]
      exact .concatenation hadd.2
    · have harith : o ∈ [BinaryOperator.add, .sub, .mul, .div] := by
        revert hc ho
        cases o <;> decide
      split at h
      · obtain rfl := Option.some.inj h
        exact .arithmetic harith (Or.inl rfl)
      · obtain rfl := Option.some.inj h
        exact .arithmetic harith (Or.inr rfl)
      · cases h

/-- Analysis of a binary operation: both operands, then the rule. -/
theorem binary_eq_ok {r : Registry} {n : Node} {o : BinaryOperator} {left right : Expr}
    {s s' : CheckState} {t : Ty} (h : expr r (.binary n o left right) s = .ok t s') :
    ∃ t₁ t₂ s₁ s₂, expr r left s = .ok t₁ s₁ ∧ expr r right s₁ = .ok t₂ s₂ ∧
      BinaryRule o t₁ t₂ t ∧ s' = { s₂ with analysis := s₂.analysis.recordType n.id t } := by
  simp only [expr, bind_eq_ok] at h
  obtain ⟨t₁, s₁, h₁, h⟩ := h
  split at h
  · rename_i ho
    simp only [bind_eq_ok, requireBoolean_eq_ok, record_bind, pure_apply,
      EStateM.Result.ok.injEq] at h
    obtain ⟨_, _, ⟨rfl, rfl⟩, t₂, s₂, h₂, _, _, ⟨rfl, rfl⟩, rfl, rfl⟩ := h
    exact ⟨_, _, _, _, h₁, h₂, .logical ho, rfl⟩
  · rename_i ho
    simp only [bind_eq_ok] at h
    obtain ⟨t₂, s₂, h₂, h⟩ := h
    cases hu : operatorType? o t₁ t₂ with
    | none => simp [hu] at h
    | some u =>
      simp only [hu, record_bind, pure_apply, EStateM.Result.ok.injEq] at h
      obtain ⟨rfl, rfl⟩ := h
      exact ⟨_, _, _, _, h₁, h₂, binaryRule_of_operatorType? ho hu, rfl⟩

/-- The facts about a node complete those about its children. -/
theorem Finds.of_children {r : Registry} {e : Expr} (ps : List Part) (es : List Expr)
    {s s₁ s' : CheckState} {t : Ty} (hparts : e.parts = ps ++ [.expr e])
    (hsubs : e.subs = es ++ [e]) (hn : Part.Distinct e.parts) (hscope : s'.scope = s.scope)
    (hresult : s'.result = s.result) (hchildren : Within ps s.analysis s₁.analysis)
    (hself : Within [.expr e] s₁.analysis s'.analysis) (ht : s'.analysis.types[e.id]? = some t)
    (hsound : ∀ c, Agrees ps s₁.analysis c → SameAt e.id s'.analysis c →
      (∀ e' ∈ es, e'.Obeys r c ∧ e'.Resolves c s.scope) ∧
        e.Obeys r c ∧ e.Resolves c s.scope) : Finds r e s t s' := by
  rw [hparts] at hn
  refine ⟨hscope, hresult, ?_, fun c hc => ?_⟩
  · rw [hparts]
    exact hchildren.trans hself
  · rw [hparts] at hc
    have hat : SameAt e.id s'.analysis c := hc.append_right (.expr e) (by simp)
    obtain ⟨hes, he⟩ := hsound c (hc.before hn hself) hat
    refine ⟨hat.types.trans ht, fun e' he' => ?_⟩
    rw [hsubs, List.mem_append, List.mem_singleton] at he'
    rcases he' with he' | rfl
    · exact hes e' he'
    · exact he

theorem within_name (a : Analysis) {e : Expr} (he : Part.isName (.expr e) = true)
    (binding : Binding) (t : Ty) :
    Within [.expr e] a ((a.recordBinding e.id binding).recordType e.id t) :=
  ((within_recordBinding a he binding).trans (within_recordType _ e t)).mono (by simp)

/-! ## Expressions -/

mutual

/-- Analysis of an expression is sound. -/
theorem finds_expr (r : Registry) : (e : Expr) → {s s' : CheckState} → {t : Ty} →
    s.scope.Keyed → Part.Distinct e.parts → expr r e s = .ok t s' → Finds r e s t s'
  | .literal n v, s, s', t, _, hn, h => by
    simp only [expr, bind_eq_ok, record_bind, pure_apply, EStateM.Result.ok.injEq] at h
    obtain ⟨t', s₁, hv, rfl, rfl⟩ := h
    obtain ⟨rfl, rfl⟩ := literal_eq_ok hv
    refine .of_children [] [] rfl rfl hn rfl rfl (Within.refl _ _)
      (within_recordType _ _ _) (types_recordType _ _ _) fun c _ hc => ⟨by simp, ?_, trivial⟩
    exact hc.types.trans (types_recordType _ _ _)
  | .group n inner, s, s', t, hk, hn, h => by
    simp only [expr] at h
    split at h
    · rename_i hb
      simp only [bind_eq_ok, record_bind, pure_apply, EStateM.Result.ok.injEq] at h
      obtain ⟨t', s₁, hi, rfl, rfl⟩ := h
      have hp := Expr.parts_group n inner
      have hn' := hn
      rw [hp] at hn'
      have hf := finds_expr r inner hk hn'.left hi
      refine .of_children _ inner.subs hp (by simp [Expr.subs]) hn hf.scope hf.result hf.within
        (within_recordType _ _ _) (types_recordType _ _ _) fun c hc hat => ?_
      obtain ⟨hty, hsub⟩ := hf.sound c hc
      exact ⟨hsub, ⟨hb, t', hty, hat.types.trans (types_recordType _ _ _)⟩, trivial⟩
    · simp at h
  | .binary n o left right, s, s', t, hk, hn, h => by
    obtain ⟨t₁, t₂, s₁, s₂, h₁, h₂, hrule, rfl⟩ := binary_eq_ok h
    have hp := Expr.parts_binary n o left right
    have hn' := hn
    rw [hp] at hn'
    have hl := finds_expr r left hk hn'.left.left h₁
    rw [← hl.scope] at hk
    have hr := finds_expr r right hk hn'.left.right h₂
    refine .of_children _ (left.subs ++ right.subs) hp (by simp [Expr.subs]) hn
      (hr.scope.trans hl.scope) (hr.result.trans hl.result) (hl.within.trans hr.within)
      (within_recordType _ _ _) (types_recordType _ _ _) fun c hc hat => ?_
    obtain ⟨hty₁, hsub₁⟩ := hl.sound c (hc.before hn'.left hr.within)
    obtain ⟨hty₂, hsub₂⟩ := hr.sound c hc.append_right
    rw [hl.scope] at hsub₂
    refine ⟨fun e' he' => ?_, ⟨t₁, t₂, t, hty₁, hty₂, hrule, ?_⟩, trivial⟩
    · rcases List.mem_append.1 he' with he' | he'
      · exact hsub₁ e' he'
      · exact hsub₂ e' he'
    · exact hat.types.trans (types_recordType _ _ _)
  | .var n x, s, s', t, _, hn, h => by
    simp only [expr, get_bind] at h
    cases hx : s.scope.lookup? x with
    | none => simp [hx] at h
    | some u =>
      simp only [hx, record_bind, pure_apply, EStateM.Result.ok.injEq] at h
      obtain ⟨rfl, rfl⟩ := h
      have hw := within_name s.analysis (e := .var n x) rfl (.var x u) u
      refine .of_children [] [] rfl rfl hn rfl rfl (Within.refl _ _) hw
        (types_recordType _ _ _) fun c _ hc => ⟨by simp, ?_⟩
      have hb : c.bindings[n.id]? = some (.var x u) :=
        hc.bindings.trans (by simp [Expr.id, Expr.node])
      exact ⟨⟨u, hb, hc.types.trans (types_recordType _ _ _)⟩, ⟨u, hx, hb⟩⟩
  | .field n receiver x, s, s', t, hk, hn, h => by
    simp only [expr, bind_eq_ok] at h
    obtain ⟨owner, s₁, hr, o, s₂, ho, h⟩ := h
    obtain ⟨ref, rfl, rfl, rfl⟩ := requireObject_eq_ok ho
    cases hx : (r.describe ref).fieldType? x with
    | none => simp [hx] at h
    | some u =>
      simp only [hx, record_bind, pure_apply, EStateM.Result.ok.injEq] at h
      obtain ⟨rfl, rfl⟩ := h
      have hp := Expr.parts_field n receiver x
      have hn' := hn
      rw [hp] at hn'
      have hf := finds_expr r receiver hk hn'.left hr
      have hw := within_name s₂.analysis (e := .field n receiver x) rfl (.field (.object ref) x u) u
      refine .of_children _ receiver.subs hp (by simp [Expr.subs]) hn hf.scope hf.result
        hf.within hw (types_recordType _ _ _) fun c hc hat => ?_
      obtain ⟨hty, hsub⟩ := hf.sound c hc
      have hb : c.bindings[n.id]? = some (.field (.object ref) x u) :=
        hat.bindings.trans (by simp [Expr.id, Expr.node])
      exact ⟨hsub, ⟨ref, u, hty, hx, hb, hat.types.trans (types_recordType _ _ _)⟩, trivial⟩
  | .call n f es, s, s', t, hk, hn, h => by
    simp only [expr, get_bind] at h
    cases hf : s.scope.function? f es.length with
    | none => simp [hf] at h
    | some signature =>
      simp only [hf, called, bind_eq_ok, bind_assoc, record_bind, pure_bind, pure_apply,
        EStateM.Result.ok.injEq] at h
      obtain ⟨_, s₁, hes, rfl, rfl⟩ := h
      obtain ⟨hname, harity⟩ := hk.function? hf
      have hp := Expr.parts_call n f es
      have hn' := hn
      rw [hp] at hn'
      have hfs := finds_exprs r es signature.parameters hk hn'.left harity hes
      have hw := within_name s₁.analysis (e := .call n f es) rfl (.function signature)
        signature.result
      refine .of_children _ (Expr.subsList es) hp (by simp [Expr.subs]) hn hfs.scope hfs.result
        hfs.within hw (types_recordType _ _ _) fun c hc hat => ?_
      obtain ⟨hall, hsub⟩ := hfs.sound c hc
      have hb : c.bindings[n.id]? = some (.function signature) :=
        hat.bindings.trans (by simp [Expr.id, Expr.node])
      refine ⟨fun e' he' => ?_, ⟨signature, hname, hb, hall, ?_⟩, ⟨signature, hf, hb⟩⟩
      · obtain ⟨e, he, he'⟩ := Expr.mem_subsList he'
        exact hsub e he e' he'
      · exact hat.types.trans (types_recordType _ _ _)
  | .methodCall n receiver f es, s, s', t, hk, hn, h => by
    simp only [expr, bind_eq_ok] at h
    obtain ⟨owner, s₁, hr, o, s₂, ho, h⟩ := h
    obtain ⟨ref, rfl, rfl, rfl⟩ := requireObject_eq_ok ho
    cases hf : (r.describe ref).method? f es.length with
    | none => simp [hf] at h
    | some method =>
      simp only [hf, called, bind_eq_ok, bind_assoc, record_bind, pure_bind, pure_apply,
        EStateM.Result.ok.injEq] at h
      obtain ⟨_, s₃, hes, rfl, rfl⟩ := h
      have harity := ObjectType.arity_of_method? hf
      have hp := Expr.parts_methodCall n receiver f es
      have hn' := hn
      rw [hp] at hn'
      have hl := finds_expr r receiver hk hn'.left.left hr
      rw [← hl.scope] at hk
      have hfs := finds_exprs r es method.signature.parameters hk hn'.left.right harity hes
      have hw := within_name s₃.analysis (e := .methodCall n receiver f es) rfl
        (.method (.object ref) method.signature) method.signature.result
      refine .of_children _ (receiver.subs ++ Expr.subsList es) hp (by simp [Expr.subs]) hn
        (hfs.scope.trans hl.scope) (hfs.result.trans hl.result) (hl.within.trans hfs.within) hw
        (types_recordType _ _ _) fun c hc hat => ?_
      obtain ⟨hty, hsub⟩ := hl.sound c (hc.before hn'.left hfs.within)
      obtain ⟨hall, hsubs⟩ := hfs.sound c hc.append_right
      rw [hl.scope] at hsubs
      have hb : c.bindings[n.id]? = some (.method (.object ref) method.signature) :=
        hat.bindings.trans (by simp [Expr.id, Expr.node])
      refine ⟨fun e' he' => ?_, ⟨ref, method, hty, hf, hb, hall, ?_⟩, trivial⟩
      · rcases List.mem_append.1 he' with he' | he'
        · exact hsub e' he'
        · obtain ⟨e, he, he'⟩ := Expr.mem_subsList he'
          exact hsubs e he e' he'
      · exact hat.types.trans (types_recordType _ _ _)
termination_by structural e => e

/-- Analysis of arguments is sound, if there are as many as parameters. -/
theorem finds_exprs (r : Registry) : (es : List Expr) → (ts : List Ty) → {s s' : CheckState} →
    {u : Unit} → s.scope.Keyed → Part.Distinct (es.flatMap Expr.parts) →
    ts.length = es.length → exprs r es ts s = .ok u s' → FindsAll r es s ts s'
  | [], [], s, s', _, _, _, _, h => by
    simp only [exprs, pure_apply, EStateM.Result.ok.injEq, true_and] at h
    subst h
    exact ⟨rfl, rfl, Within.refl _ _, fun c _ => ⟨.nil, by simp⟩⟩
  | e :: es, t :: ts, s, s', _, hk, hn, hl, h => by
    simp only [exprs, bind_eq_ok] at h
    obtain ⟨u, s₁, he, _, s₂, ha, hes⟩ := h
    obtain ⟨hacc, rfl⟩ := requireAssignable_eq_ok.1 ha
    rw [List.flatMap_cons] at hn
    have hf := finds_expr r e hk hn.left he
    rw [← hf.scope] at hk
    have hfs := finds_exprs r es ts hk hn.right (by simpa using hl) hes
    refine ⟨hfs.scope.trans hf.scope, hfs.result.trans hf.result, hf.within.trans hfs.within,
      fun c hc => ?_⟩
    obtain ⟨hty, hsound⟩ := hf.sound c (hc.before hn hfs.within)
    obtain ⟨hall, hsounds⟩ := hfs.sound c hc.append_right
    refine ⟨.cons ⟨u, hty, hacc⟩ hall, fun e' he' => ?_⟩
    rw [hf.scope] at hsounds
    rcases List.mem_cons.1 he' with rfl | he'
    · exact hsound
    · exact hsounds e' he'
  | [], t :: ts, _, _, _, _, _, hl, _ => by simp at hl
  | e :: es, [], _, _, _, _, _, hl, _ => by simp at hl
termination_by structural es => es

end

end Check

end TinyScript
