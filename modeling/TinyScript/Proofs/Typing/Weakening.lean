import TinyScript.Proofs.Typing.Universe

/-
  Analysis elsewhere.

  What analysis accepts, it accepts under a host that provides more, in a scope that has more
  functions, and whatever has been recorded before: with the same result and the same records.

  * `Scope.ExtendedBy`, `Registry.ExtendedBy`: the second has all that the first has;
  * `Analysis.Pointwise`: a change of the table that treats every identity by itself;
  * `Check.Carries`: where one step of analysis succeeds, another does so elsewhere;
  * `Check.carries_expr`, `Check.carries_stmts`: analysis of syntax does.
-/

namespace TinyScript

/-! ## Larger scopes and hosts -/

/-- What has a meaning in the first scope has the same in the second one, which may have
    further functions in its outer frames. -/
structure Scope.ExtendedBy {V F : Type} (Γ Γ' : Scope V F) : Prop where
  lookup? : ∀ x, Γ'.lookup? x = Γ.lookup? x
  function? : ∀ f k g, Γ.function? f k = some g → Γ'.function? f k = some g
  hasLocalVariable : ∀ x, Γ'.hasLocalVariable x = Γ.hasLocalVariable x
  hasLocalFunction : ∀ f k, Γ'.hasLocalFunction f k = Γ.hasLocalFunction f k

/-- What has a meaning for the first host has the same for the second one. -/
structure Registry.ExtendedBy (r r' : Registry) : Prop where
  resolve? : ∀ x t, r.resolve? x = some t → r'.resolve? x = some t
  describe : ∀ ref : TypeRef, ref.index < r.types.size → r'.describe ref = r.describe ref

theorem Registry.ExtendedBy.refl (r : Registry) : r.ExtendedBy r :=
  ⟨fun _ _ h => h, fun _ _ => rfl⟩

/-- A type that the host does not describe has neither fields nor methods. -/
theorem Registry.describe_of_size_le {r : Registry} {ref : TypeRef}
    (h : r.types.size ≤ ref.index) : r.describe ref = { name := ref.name } := by
  rw [describe, Array.getElem?_eq_none h, Option.getD_none]

namespace Registry.ExtendedBy

variable {r r' : Registry} (h : r.ExtendedBy r')
include h

theorem describe_of_fieldType? {ref : TypeRef} {x : String} {t : Ty}
    (ht : (r.describe ref).fieldType? x = some t) : r'.describe ref = r.describe ref := by
  refine h.describe ref (Nat.lt_of_not_le fun hle => ?_)
  rw [describe_of_size_le hle] at ht
  cases ht

theorem describe_of_method? {ref : TypeRef} {x : String} {k : Nat} {f : NativeFunction}
    (hf : (r.describe ref).method? x k = some f) : r'.describe ref = r.describe ref := by
  refine h.describe ref (Nat.lt_of_not_le fun hle => ?_)
  rw [describe_of_size_le hle] at hf
  cases hf

end Registry.ExtendedBy

namespace Scope

variable {V F : Type} {Γ Γ' : Scope V F}

theorem hasLocalVariable_defineVariable (Γ : Scope V F) (x y : String) (v : V) :
    (Γ.defineVariable x v).hasLocalVariable y = (decide (y = x) || Γ.hasLocalVariable y) := by
  cases Γ <;> by_cases h : y = x <;> simp [defineVariable, modifyTop, hasLocalVariable, h]

theorem hasLocalFunction_defineVariable (Γ : Scope V F) (x f : String) (v : V) (k : Nat) :
    (Γ.defineVariable x v).hasLocalFunction f k = Γ.hasLocalFunction f k := by
  cases Γ <;> rfl

theorem hasLocalVariable_defineFunction (Γ : Scope V F) (f x : String) (k : Nat) (g : F) :
    (Γ.defineFunction f k g).hasLocalVariable x = Γ.hasLocalVariable x := by
  cases Γ <;> rfl

theorem hasLocalFunction_defineFunction (Γ : Scope V F) (f f' : String) (k k' : Nat) (g : F) :
    (Γ.defineFunction f k g).hasLocalFunction f' k' =
      (decide (f' = f ∧ k' = k) || Γ.hasLocalFunction f' k') := by
  cases Γ <;> by_cases h : f' = f ∧ k' = k <;>
    simp [defineFunction, modifyTop, hasLocalFunction, h]

namespace ExtendedBy

theorem refl (Γ : Scope V F) : Γ.ExtendedBy Γ :=
  ⟨fun _ => rfl, fun _ _ _ h => h, fun _ => rfl, fun _ _ => rfl⟩

theorem child (h : Γ.ExtendedBy Γ') : Γ.child.ExtendedBy Γ'.child :=
  ⟨h.lookup?, h.function?, fun _ => rfl, fun _ _ => rfl⟩

theorem defineVariable (h : Γ.ExtendedBy Γ') (x : String) (v : V) :
    (Γ.defineVariable x v).ExtendedBy (Γ'.defineVariable x v) where
  lookup? y := by rw [lookup?_defineVariable, lookup?_defineVariable, h.lookup?]
  function? f k g hg := by
    rw [function?_defineVariable] at hg ⊢
    exact h.function? f k g hg
  hasLocalVariable y := by
    rw [hasLocalVariable_defineVariable, hasLocalVariable_defineVariable, h.hasLocalVariable]
  hasLocalFunction f k := by
    rw [hasLocalFunction_defineVariable, hasLocalFunction_defineVariable, h.hasLocalFunction]

theorem defineFunction (h : Γ.ExtendedBy Γ') (f : String) (k : Nat) (g : F) :
    (Γ.defineFunction f k g).ExtendedBy (Γ'.defineFunction f k g) where
  lookup? y := by rw [lookup?_defineFunction, lookup?_defineFunction, h.lookup?]
  function? f' k' g' hg := by
    rw [function?_defineFunction] at hg ⊢
    split
    · rename_i heq
      rwa [if_pos heq] at hg
    · rename_i hne
      rw [if_neg hne] at hg
      exact h.function? f' k' g' hg
  hasLocalVariable y := by
    rw [hasLocalVariable_defineFunction, hasLocalVariable_defineFunction, h.hasLocalVariable]
  hasLocalFunction f' k' := by
    rw [hasLocalFunction_defineFunction, hasLocalFunction_defineFunction, h.hasLocalFunction]

end ExtendedBy

end Scope

/-! ## Records -/

namespace Analysis

/-- Two tables with the same facts everywhere are the same. -/
theorem ext_sameAt {a b : Analysis} (h : ∀ id, SameAt id a b) : a = b := by
  obtain ⟨t, u, v, w⟩ := a
  obtain ⟨t', u', v', w'⟩ := b
  congr 1
  · exact Std.ExtTreeMap.ext_getElem? fun {id} => (h id).types.symm
  · exact Std.ExtTreeMap.ext_getElem? fun {id} => (h id).bindings.symm
  · exact Std.ExtTreeMap.ext_getElem? fun {id} => (h id).declarations.symm
  · exact Std.ExtTreeMap.ext_getElem? fun {id} => (h id).signatures.symm

/-- The change treats every identity by itself: the facts there afterwards depend on those
    there before only. -/
def Pointwise (g : Analysis → Analysis) : Prop :=
  ∀ ⦃id a b⦄, SameAt id a b → SameAt id (g a) (g b)

theorem Pointwise.comp {f g : Analysis → Analysis} (hf : Pointwise f) (hg : Pointwise g) :
    Pointwise (f ∘ g) :=
  fun _ _ _ h => hf (hg h)

theorem pointwise_id : Pointwise id := fun _ _ _ h => h

theorem pointwise_recordType (id : Nat) (t : Ty) : Pointwise (·.recordType id t) := by
  intro id' a b h
  refine ⟨?_, h.bindings, h.declarations, h.signatures⟩
  simp only [recordType, Std.ExtTreeMap.getElem?_insert, h.types]

theorem pointwise_recordBinding (id : Nat) (binding : Binding) :
    Pointwise (·.recordBinding id binding) := by
  intro id' a b h
  refine ⟨h.types, ?_, h.declarations, h.signatures⟩
  simp only [recordBinding, Std.ExtTreeMap.getElem?_insert, h.bindings]

theorem pointwise_recordDeclaration (id : Nat) (t : Ty) :
    Pointwise (·.recordDeclaration id t) := by
  intro id' a b h
  refine ⟨h.types, h.bindings, ?_, h.signatures⟩
  simp only [recordDeclaration, Std.ExtTreeMap.getElem?_insert, h.declarations]

theorem pointwise_recordSignature (id : Nat) (signature : Signature) :
    Pointwise (·.recordSignature id signature) := by
  intro id' a b h
  refine ⟨h.types, h.bindings, h.declarations, ?_⟩
  simp only [recordSignature, Std.ExtTreeMap.getElem?_insert, h.signatures]

end Analysis

namespace Check

open Analysis

/-- Where `x` succeeds, `y` succeeds with the same result in every larger scope, and makes the
    same records in every table that has the same facts at the identities `I`. -/
def Carries (I : Nat → Prop) {α : Type} (x y : Check α) : Prop :=
  ∀ ⦃s a t⦄, x s = .ok a t → ∀ ⦃Γ⦄, s.scope.ExtendedBy Γ → ∃ g Γ', Pointwise g ∧
    t.analysis = g s.analysis ∧ t.scope.ExtendedBy Γ' ∧
    ∀ b, (∀ id, I id → SameAt id s.analysis b) →
      y { scope := Γ, analysis := b, result := s.result } =
        .ok a { scope := Γ', analysis := g b, result := t.result }

section
variable {I : Nat → Prop} {α β : Type} {x y : Check α}

namespace Carries

theorem bind {f h : α → Check β} (hx : Carries I x y) (hf : ∀ a, Carries I (f a) (h a)) :
    Carries I (x >>= f) (y >>= h) := by
  intro s b t hok Γ hΓ
  obtain ⟨a, s₁, hx₁, hf₁⟩ := bind_eq_ok.1 hok
  obtain ⟨g, Γ₁, hg, hs₁, hΓ₁, hy⟩ := hx hx₁ hΓ
  obtain ⟨g', Γ', hg', ht, hΓ', hh⟩ := hf a hf₁ hΓ₁
  refine ⟨g' ∘ g, Γ', hg'.comp hg, by rw [ht, hs₁]; rfl, hΓ', fun c hc => ?_⟩
  rw [bind_of_ok (hy c hc)]
  exact hh (g c) fun id hid => hs₁ ▸ hg (hc id hid)

theorem pure (a : α) : Carries I (pure a) (pure a) := by
  intro s b t hok Γ hΓ
  cases hok
  exact ⟨id, Γ, pointwise_id, rfl, hΓ, fun _ _ => rfl⟩

/-- A step that fails carries over to any other. -/
theorem throw (e : TypeError) : Carries I (throw e) y := fun _ _ _ hok => nomatch hok

theorem discard (h : Carries I x y) : Carries I (discard x) (discard y) :=
  h.bind fun _ => .pure _

theorem record {g : Analysis → Analysis} (hg : Pointwise g) : Carries I (record g) (record g) := by
  intro s a t hok Γ hΓ
  cases hok
  exact ⟨g, Γ, hg, rfl, hΓ, fun _ _ => rfl⟩

theorem inChild (h : Carries I x y) : Carries I (inChild x) (inChild y) := by
  intro s a t hok Γ hΓ
  obtain ⟨t₁, hx, rfl⟩ := inChild_eq_ok.1 hok
  obtain ⟨g, Γ', hg, ht, -, hy⟩ := h hx hΓ.child
  exact ⟨g, Γ, hg, ht, hΓ, fun b hb => inChild_eq_ok.2 ⟨_, hy b hb, rfl⟩⟩

theorem withResult (h : Carries I x y) (t : Ty) :
    Carries I (withResult t x) (withResult t y) := by
  intro s a s' hok Γ hΓ
  obtain ⟨s₁, hx, rfl⟩ := withResult_eq_ok.1 hok
  obtain ⟨g, Γ', hg, ht, hΓ', hy⟩ := h hx hΓ
  exact ⟨g, Γ', hg, ht, hΓ', fun b hb => withResult_eq_ok.2 ⟨_, hy b hb, rfl⟩⟩

theorem forM {f h : α → Check PUnit} : {as : List α} → (∀ a ∈ as, Carries I (f a) (h a)) →
    Carries I (as.forM f) (as.forM h)
  | [], _ => .pure _
  | _ :: _, hf => by
    obtain ⟨ha, has⟩ := List.forall_mem_cons.1 hf
    exact ha.bind fun _ => forM has

end Carries

/-! ## Elementary steps -/

theorem carries_defineVariable (x : String) (t : Ty) :
    Carries I (defineVariable x t) (defineVariable x t) := by
  intro s u s' hok Γ hΓ
  obtain ⟨hlocal, rfl⟩ := defineVariable_eq_ok.1 hok
  rw [← hΓ.hasLocalVariable] at hlocal
  exact ⟨id, Γ.defineVariable x t, pointwise_id, rfl, hΓ.defineVariable x t,
    fun b _ => defineVariable_eq_ok.2 ⟨hlocal, rfl⟩⟩

theorem carries_requireAssignable (target source : Ty) :
    Carries I (requireAssignable target source) (requireAssignable target source) := by
  unfold requireAssignable
  split
  · exact .pure _
  · exact .throw _

theorem carries_requireBoolean (t : Ty) (offset : Nat) :
    Carries I (requireBoolean t offset) (requireBoolean t offset) := by
  unfold requireBoolean
  split
  · exact .pure _
  · exact .throw _

theorem carries_literal (offset : Nat) (value : Literal) :
    Carries I (literal offset value) (literal offset value) := by
  cases value <;> rw [literal]
  case integer n =>
    split
    · exact .pure _
    · exact .throw _
  case decimal d =>
    split
    · exact .pure _
    · exact .throw _
  all_goals exact .pure _

variable {r r' : Registry}

theorem carries_resolve (h : r.ExtendedBy r') (name : String) :
    Carries I (resolve r name) (resolve r' name) := by
  unfold resolve
  cases ht : r.resolve? name with
  | none => exact .throw _
  | some t =>
    rw [h.resolve? name t ht]
    exact .pure t

theorem carries_resolveConcrete (h : r.ExtendedBy r') (declared name : String) :
    Carries I (resolveConcrete r declared name) (resolveConcrete r' declared name) := by
  refine (carries_resolve h name).bind fun t => ?_
  split
  · exact .throw _
  · exact .pure _

/-- A type recorded at a node and given as the result. -/
theorem carries_typed (id : Nat) (t : Ty) :
    Carries I (do record (·.recordType id t); return t) (do record (·.recordType id t); return t) :=
  (Carries.record (pointwise_recordType id t)).bind fun _ => .pure t

/-- A meaning and a type recorded at a node. -/
theorem carries_bound (id : Nat) (binding : Binding) (t : Ty) :
    Carries I (do record (·.recordBinding id binding); record (·.recordType id t); return t)
      (do record (·.recordBinding id binding); record (·.recordType id t); return t) :=
  (Carries.record (pointwise_recordBinding id binding)).bind fun _ => carries_typed id t

/-! ## Expressions -/

mutual

/-- Analysis of an expression carries over. -/
theorem carries_expr (h : r.ExtendedBy r') : (e : Expr) → Carries I (expr r e) (expr r' e)
  | .literal n value => (carries_literal n.offset value).bind fun t => carries_typed n.id t
  | .group n inner => by
    rw [expr, expr]
    split
    · exact (carries_expr h inner).bind fun t => carries_typed n.id t
    · exact .throw _
  | .binary n o left right => by
    rw [expr, expr]
    refine (carries_expr h left).bind fun t => ?_
    split
    · refine (carries_requireBoolean t left.offset).bind fun _ => ?_
      refine (carries_expr h right).bind fun u => ?_
      exact (carries_requireBoolean u right.offset).bind fun _ => carries_typed n.id .boolean
    · refine (carries_expr h right).bind fun u => ?_
      split
      · exact carries_typed n.id _
      · exact .throw _
  | .var n x => by
    intro s a t hok Γ hΓ
    rw [expr, get_bind] at hok
    cases hx : s.scope.lookup? x with
    | none =>
      rw [hx] at hok
      cases hok
    | some u =>
      rw [hx] at hok
      obtain ⟨g, Γ', hg, ht, hΓ', hy⟩ := carries_bound (I := I) n.id (.var x u) u hok hΓ
      refine ⟨g, Γ', hg, ht, hΓ', fun b hb => ?_⟩
      rw [expr, get_bind, hΓ.lookup?, hx]
      exact hy b hb
  | .field n receiver x => by
    rw [expr, expr]
    refine (carries_expr h receiver).bind fun owner => ?_
    cases owner with
    | object ref =>
      simp only [requireObject, pure_bind]
      cases ht : (r.describe ref).fieldType? x with
      | none => exact .throw _
      | some t =>
        rw [h.describe_of_fieldType? ht, ht]
        exact carries_bound n.id _ t
    | _ => exact .throw _
  | .call n f es => by
    intro s a t hok Γ hΓ
    rw [expr, get_bind] at hok
    cases hf : s.scope.function? f es.length with
    | none =>
      rw [hf] at hok
      cases hok
    | some signature =>
      rw [hf] at hok
      have hcall := (carries_exprs h es signature.parameters).bind fun _ =>
        carries_bound n.id (.function signature) signature.result
      obtain ⟨g, Γ', hg, ht, hΓ', hy⟩ := hcall hok hΓ
      refine ⟨g, Γ', hg, ht, hΓ', fun b hb => ?_⟩
      rw [expr, get_bind, hΓ.function? f es.length signature hf]
      exact hy b hb
  | .methodCall n receiver f es => by
    rw [expr, expr]
    refine (carries_expr h receiver).bind fun owner => ?_
    cases owner with
    | object ref =>
      simp only [requireObject, pure_bind]
      cases hm : (r.describe ref).method? f es.length with
      | none => exact .throw _
      | some method =>
        rw [h.describe_of_method? hm, hm]
        exact (carries_exprs h es method.signature.parameters).bind fun _ =>
          carries_bound n.id (.method _ method.signature) method.signature.result
    | _ => exact .throw _
termination_by structural e => e

theorem carries_exprs (h : r.ExtendedBy r') : (es : List Expr) → (ts : List Ty) →
    Carries I (exprs r es ts) (exprs r' es ts)
  | [], _ => .pure _
  | _ :: _, [] => .pure _
  | e :: es, t :: ts => (carries_expr h e).bind fun u =>
      (carries_requireAssignable t u).bind fun _ => carries_exprs h es ts
termination_by structural es => es

end

theorem carries_optionalExpr (h : r.ExtendedBy r') (value : Option Expr) :
    Carries I (optionalExpr r value) (optionalExpr r' value) := by
  cases value with
  | none => exact .pure _
  | some e => exact (carries_expr h e).bind fun _ => .pure _

/-! ## Statements -/

theorem carries_condition (h : r.ExtendedBy r') (e : Expr) :
    Carries I (condition r e) (condition r' e) :=
  (carries_expr h e).bind fun t => carries_requireBoolean t e.offset

theorem carries_declaredType (name : String) (declared value : Option Ty) :
    Carries I (declaredType name declared value) (declaredType name declared value) := by
  cases declared with
  | none =>
    cases value with
    | none => exact .throw _
    | some t => exact .pure t
  | some t =>
    cases value with
    | none => exact .pure t
    | some u => exact (carries_requireAssignable t u).bind fun _ => .pure t

/-- A variable that is defined and whose type is recorded. -/
theorem carries_declared (x : String) (id : Nat) (t : Ty) :
    Carries I (do defineVariable x t; record (·.recordDeclaration id t))
      (do defineVariable x t; record (·.recordDeclaration id t)) :=
  (carries_defineVariable x t).bind fun _ => .record (pointwise_recordDeclaration id t)

theorem carries_declaration (h : r.ExtendedBy r') (d : Declaration) :
    Carries I (declaration r d) (declaration r' d) := by
  unfold declaration
  have hannotation : Carries I (d.typeName.mapM (resolveConcrete r d.name))
      (d.typeName.mapM (resolveConcrete r' d.name)) := by
    cases d.typeName with
    | none => exact .pure none
    | some name => exact (carries_resolveConcrete h d.name name).bind fun _ => .pure _
  refine hannotation.bind fun declared => (carries_optionalExpr h d.value).bind fun value => ?_
  exact (carries_declaredType d.name declared value).bind fun t =>
    carries_declared d.name d.node.id t

theorem carries_assignment (h : r.ExtendedBy r') (receiver value : Expr) :
    Carries I (assignment r receiver value) (assignment r' receiver value) := by
  unfold assignment
  split
  · exact (carries_expr h receiver).bind fun target => (carries_expr h value).bind fun t =>
      carries_requireAssignable target t
  · exact .throw _

mutual

/-- Analysis of a statement carries over. -/
theorem carries_stmt (h : r.ExtendedBy r') : (st : Stmt) → Carries I (stmt r st) (stmt r' st)
  | .expression e => by
    rw [stmt, stmt]
    refine (carries_expr h e).discard.bind fun _ => ?_
    split
    · exact .pure _
    · exact .throw _
  | .declare d => carries_declaration h d
  | .assign receiver value => carries_assignment h receiver value
  | .branch c thenBody elseBody => by
    rw [stmt, stmt]
    refine (carries_condition h c).bind fun _ => ?_
    split
    · exact Carries.bind (.throw _) fun _ => (carries_stmts h thenBody).inChild.bind fun _ =>
        (carries_stmts h elseBody).inChild
    · exact (carries_stmts h thenBody).inChild.bind fun _ => (carries_stmts h elseBody).inChild
  | .forEach x value body => by
    rw [stmt, stmt]
    refine (carries_expr h value).bind fun t => ?_
    split
    · exact ((carries_defineVariable x .integer).bind fun _ => carries_stmts h body).inChild
    · exact .throw _
  | .loop c body => (carries_condition h c).bind fun _ => (carries_stmts h body).inChild
  | .ret _ value => by
    rw [stmt, stmt]
    refine (carries_expr h value).bind fun t => ?_
    intro s u s' hok Γ hΓ
    exact carries_requireAssignable s.result t hok hΓ
termination_by structural st => st

theorem carries_stmts (h : r.ExtendedBy r') : (ss : List Stmt) →
    Carries I (stmts r ss) (stmts r' ss)
  | [] => .pure _
  | st :: ss => (carries_stmt h st).bind fun _ => carries_stmts h ss
termination_by structural ss => ss

end

/-! ## Programs -/

theorem carries_field (h : r.ExtendedBy r') (f : Field) : Carries I (field r f) (field r' f) := by
  unfold field
  refine (carries_resolveConcrete h f.name f.typeName).bind fun t => ?_
  refine (carries_optionalExpr h f.value).bind fun value => ?_
  cases value with
  | none => exact carries_declared f.name f.node.id t
  | some u =>
    exact (carries_requireAssignable t u).bind fun _ => carries_declared f.name f.node.id t

theorem carries_parameterTypes (h : r.ExtendedBy r') (ps : List Parameter) :
    Carries I (ps.mapM (parameterType r)) (ps.mapM (parameterType r')) := by
  induction ps with
  | nil => exact .pure []
  | cons p ps ih =>
    rw [List.mapM_cons, List.mapM_cons]
    have hp : Carries I (parameterType r p) (parameterType r' p) := by
      unfold parameterType
      cases p.typeName with
      | none => exact .pure _
      | some name => exact carries_resolve h name
    exact hp.bind fun _ => ih.bind fun _ => .pure _

theorem carries_resultType (h : r.ExtendedBy r') (m : Method) :
    Carries I (resultType r m) (resultType r' m) := by
  unfold resultType
  cases m.resultName with
  | none => exact .pure _
  | some name => exact carries_resolveConcrete h m.name name

theorem carries_registerMethod (h : r.ExtendedBy r') (m : Method) :
    Carries I (registerMethod r m) (registerMethod r' m) := by
  refine (carries_parameterTypes h m.parameters).bind fun ts => ?_
  refine (carries_resultType h m).bind fun t => ?_
  intro s u s' hok Γ hΓ
  rw [get_bind] at hok
  split at hok
  · cases hok
  · rename_i hlocal
    cases hok
    refine ⟨_, Γ.defineFunction m.name _ ⟨m.name, ts, t⟩,
      pointwise_recordSignature m.node.id ⟨m.name, ts, t⟩, rfl, hΓ.defineFunction .., fun b _ => ?_⟩
    rw [get_bind, if_neg (by rwa [hΓ.hasLocalFunction])]
    rfl

theorem carries_defineParameters : (ps : List Parameter) → (ts : List Ty) →
    Carries I (defineParameters ps ts) (defineParameters ps ts)
  | [], _ => .pure _
  | _ :: _, [] => .pure _
  | p :: ps, t :: ts =>
    (carries_defineVariable p.name t).bind fun _ => carries_defineParameters ps ts

/-- Analysis of a body carries over to tables that have the signature of the method. -/
theorem carries_methodBody (h : r.ExtendedBy r') {m : Method} (hm : I m.node.id) :
    Carries I (methodBody r m) (methodBody r' m) := by
  intro s u s' hok Γ hΓ
  rw [methodBody, get_bind] at hok
  cases hsignature : s.analysis.signatures[m.node.id]? with
  | none =>
    rw [hsignature] at hok
    cases hok
  | some signature =>
    rw [hsignature] at hok
    have hbody : Carries I (do defineParameters m.parameters signature.parameters; stmts r m.body)
        (do defineParameters m.parameters signature.parameters; stmts r' m.body) :=
      (carries_defineParameters _ _).bind fun _ => carries_stmts h m.body
    obtain ⟨g, Γ', hg, ht, hΓ', hy⟩ := (hbody.inChild.withResult signature.result) hok hΓ
    refine ⟨g, Γ', hg, ht, hΓ', fun b hb => ?_⟩
    rw [methodBody, get_bind, (hb _ hm).signatures, hsignature]
    exact hy b hb

theorem carries_requireMain : Carries I requireMain requireMain := by
  intro s u s' hok Γ hΓ
  rw [requireMain, get_bind] at hok
  cases hmain : s.scope.function? "main" 0 with
  | none =>
    rw [hmain] at hok
    cases hok
  | some main =>
    simp only [hmain] at hok
    split at hok
    · rename_i hresult
      cases hok
      refine ⟨id, Γ, pointwise_id, rfl, hΓ, fun b _ => ?_⟩
      rw [requireMain, get_bind, hΓ.function? "main" 0 main hmain]
      exact congrFun (if_pos hresult) _
    · cases hok

/-- A program that is accepted is accepted in every outermost scope that is larger from one
    level further in, with the same records. -/
theorem source_of_extendedBy (h : r.ExtendedBy r') {s : Source} {u : Unit} {σ τ : CheckState}
    {Γ : Scope Ty Signature} (hΓ : σ.scope.child.ExtendedBy Γ.child) (hok : source r s σ = .ok u τ) :
    source r' s { σ with scope := Γ } = .ok u { τ with scope := Γ } := by
  have hcarries : Carries (fun _ => True)
      (do s.fields.forM (field r); s.methods.forM (registerMethod r); requireMain
          s.methods.forM (methodBody r))
      (do s.fields.forM (field r'); s.methods.forM (registerMethod r'); requireMain
          s.methods.forM (methodBody r')) := by
    refine (Carries.forM fun f _ => carries_field h f).bind fun _ => ?_
    refine (Carries.forM fun m _ => carries_registerMethod h m).bind fun _ => ?_
    refine carries_requireMain.bind fun _ => ?_
    exact Carries.forM fun m _ => carries_methodBody h trivial
  obtain ⟨τ₁, hbody, rfl⟩ := inChild_eq_ok.1 hok
  obtain ⟨g, Γ', -, hτ₁, -, hbody'⟩ := hcarries hbody hΓ
  refine inChild_eq_ok.2 ⟨_, hbody' σ.analysis fun _ _ => .refl _ _, ?_⟩
  rw [hτ₁]

end

end Check

theorem analyze_eq_ok {r : Registry} {s : Source} {a : Analysis} :
    analyze r s = .ok a ↔
      ∃ σ, Check.source r s (.ofRegistry r) = .ok () σ ∧ σ.analysis = a := by
  rw [analyze, EStateM.run]
  cases Check.source r s (.ofRegistry r) with
  | ok u σ => simp
  | error e σ => simp

end TinyScript
