import TinyScript.Proofs.Relation
import TinyScript.Proofs.Typing.Weakening

/-
  Analysis leaves things as they were.

  Whether a step succeeds or fails, it comes back to the scope it started in and to the expected
  result type; only a declaration that succeeds has added its variable.  What is left besides
  are records, and no step ever looks at the records that it or another step has made about
  expressions and variables.  So the steps after one that failed cannot tell that it was there.

  * `CheckState.Alike`: two states that differ in such records at most;
  * `CheckState.Declares`: so many variables are declared in the innermost frame, each new to it;
  * `Check.Blind`: a step that does the same in states that are alike, and leaves behind what is
    related to the state before;
  * `Check.blind_expr`, `Check.blind_stmt`, `Check.blind_stmts`: analysis of syntax;
  * `Check.verdicts`: the outcomes of analyses one after another;
  * `analysis_restores`: what analysis leaves, and the outcomes after a step that failed.
-/

namespace TinyScript

/-! ## States -/

/-- The scopes, the expected result types and the signatures of the methods are the same. -/
structure CheckState.Alike (s t : CheckState) : Prop where
  scope : t.scope = s.scope
  result : t.result = s.result
  signatures : t.analysis.signatures = s.analysis.signatures

namespace CheckState.Alike

variable {s t u : CheckState}

theorem refl (s : CheckState) : s.Alike s := ⟨rfl, rfl, rfl⟩

theorem symm (h : s.Alike t) : t.Alike s := ⟨h.scope.symm, h.result.symm, h.signatures.symm⟩

theorem trans (h : s.Alike t) (h' : t.Alike u) : s.Alike u :=
  ⟨h'.scope.trans h.scope, h'.result.trans h.result, h'.signatures.trans h.signatures⟩

theorem withScope (h : s.Alike t) (Γ : Scope Ty Signature) :
    Alike { s with scope := Γ } { t with scope := Γ } :=
  ⟨rfl, h.result, h.signatures⟩

theorem withResult (h : s.Alike t) (type : Ty) :
    Alike { s with result := type } { t with result := type } :=
  ⟨h.scope, rfl, h.signatures⟩

end CheckState.Alike

/-- Variables have been declared in the innermost frame one after the other, each when the
    frame had no variable of its name. -/
inductive Scope.Declares : Scope Ty Signature → Scope Ty Signature → Prop
  | refl (Γ) : Declares Γ Γ
  | step {Γ Γ' x t} : Declares Γ Γ' → Γ'.hasLocalVariable x = false →
    Declares Γ (Γ'.defineVariable x t)

namespace Scope.Declares

variable {Γ Γ' Γ'' : Scope Ty Signature}

theorem trans (h : Declares Γ Γ') (h' : Declares Γ' Γ'') : Declares Γ Γ'' := by
  induction h' with
  | refl => exact h
  | step _ hfresh ih => exact .step ih hfresh

/-- The frames further out are the same ones. -/
theorem tail (h : Declares Γ Γ') : Γ'.tail = Γ.tail := by
  induction h with
  | refl => rfl
  | @step Γ₁ x t _ _ ih => rw [← ih]; cases Γ₁ <;> rfl

/-- A variable that the innermost frame has is the same one still. -/
theorem of_hasLocalVariable (h : Declares Γ Γ') {x : String} (hx : Γ.hasLocalVariable x = true) :
    Γ'.hasLocalVariable x = true ∧ Γ'.lookup? x = Γ.lookup? x := by
  induction h with
  | refl => exact ⟨hx, rfl⟩
  | @step Γ₁ y t _ hfresh ih =>
    obtain ⟨hlocal, hlookup⟩ := ih
    have hne : x ≠ y := fun heq => by rw [heq, hfresh] at hlocal; cases hlocal
    rw [hasLocalVariable_defineVariable, lookup?_defineVariable, if_neg hne, hlocal]
    exact ⟨Bool.or_true _, hlookup⟩

theorem function? (h : Declares Γ Γ') (f : String) (k : Nat) :
    Γ'.function? f k = Γ.function? f k := by
  induction h with
  | refl => rfl
  | step _ _ ih => rw [function?_defineVariable, ih]

end Scope.Declares

/-- Nothing but variables in the innermost frame has been added. -/
structure CheckState.Declares (s t : CheckState) : Prop where
  scope : s.scope.Declares t.scope
  result : t.result = s.result
  signatures : t.analysis.signatures = s.analysis.signatures

namespace CheckState.Declares

variable {s t u : CheckState}

theorem of_alike (h : s.Alike t) : s.Declares t := ⟨h.scope ▸ .refl _, h.result, h.signatures⟩

theorem trans (h : s.Declares t) (h' : t.Declares u) : s.Declares u :=
  ⟨h.scope.trans h'.scope, h'.result.trans h.result, h'.signatures.trans h.signatures⟩

end CheckState.Declares

/-- Whether a statement is a declaration. -/
def Stmt.isDeclaration : Stmt → Bool
  | .declare _ => true
  | _ => false

namespace Check

/-! ## Blind steps -/

/-- The step does the same in all states that are alike, and what it leaves behind, whether it
    succeeds or fails, is related to the state before. -/
def Blind (S : CheckState → CheckState → Prop) {α : Type} (x : Check α) : Prop :=
  ∀ ⦃s t⦄, s.Alike t → Related Eq (fun s' t' => s'.Alike t' ∧ S s s') Eq (x s) (x t)

/-- The step comes back to the state before, but for records. -/
abbrev Restores {α : Type} (x : Check α) : Prop := Blind CheckState.Alike x

/-- The state after a step, whether the step succeeds or fails. -/
def after {α : Type} (x : Check α) (s : CheckState) : CheckState :=
  match x s with
  | .ok _ s' => s'
  | .error _ s' => s'

section
variable {α β : Type} {S : CheckState → CheckState → Prop} {x : Check α} {s s' : CheckState}

theorem Blind.relates (h : Blind S x) : Relates Eq CheckState.Alike Eq x x := by
  intro s t hst
  have hrun := h hst
  generalize x s = p at hrun
  generalize x t = q at hrun
  cases hrun with
  | ok ha hs => exact .ok ha hs.1
  | error he hs => exact .error he hs.1

theorem Blind.of_ok (h : Blind S x) {a : α} (hx : x s = .ok a s') : S s s' := by
  have hrun := h (.refl s)
  rw [hx] at hrun
  cases hrun with
  | ok _ hs => exact hs.2

theorem Blind.of_error (h : Blind S x) {e : TypeError} (hx : x s = .error e s') : S s s' := by
  have hrun := h (.refl s)
  rw [hx] at hrun
  cases hrun with
  | error _ hs => exact hs.2

theorem Blind.after (h : Blind S x) (s : CheckState) : S s (after x s) := by
  unfold Check.after
  split
  · exact h.of_ok ‹_›
  · exact h.of_error ‹_›

/-- A step that does the same in states that are alike is blind to the rest. -/
theorem Blind.of_relates (h : Relates Eq CheckState.Alike Eq x x)
    (hok : ∀ ⦃s a s'⦄, x s = .ok a s' → S s s')
    (herror : ∀ ⦃s e s'⦄, x s = .error e s' → S s s') : Blind S x := by
  intro s t hst
  have hrun := h hst
  generalize hx : x s = p at hrun
  generalize x t = q at hrun
  cases hrun with
  | ok ha hs => exact .ok ha ⟨hs, hok hx⟩
  | error he hs => exact .error he ⟨hs, herror hx⟩

/-- Blind steps one after the other. -/
theorem Blind.bind (htrans : ∀ s t u, S s t → S t u → S s u) {f : α → Check β}
    (hx : Blind S x) (hf : ∀ a, Blind S (f a)) : Blind S (x >>= f) := by
  refine .of_relates (hx.relates.bind ?_) ?_ ?_
  · rintro a _ rfl
    exact (hf a).relates
  · intro s b s' h
    obtain ⟨a, s₁, h₁, h₂⟩ := bind_eq_ok.1 h
    exact htrans _ _ _ (hx.of_ok h₁) ((hf a).of_ok h₂)
  · intro s e s' h
    obtain h₁ | ⟨a, s₁, h₁, h₂⟩ := bind_eq_error.1 h
    · exact hx.of_error h₁
    · exact htrans _ _ _ (hx.of_ok h₁) ((hf a).of_error h₂)

/-- Steps that declare variables, one after the other. -/
theorem Blind.declares_bind {f : α → Check β} (hx : Blind CheckState.Declares x)
    (hf : ∀ a, Blind CheckState.Declares (f a)) : Blind CheckState.Declares (x >>= f) :=
  hx.bind (fun _ _ _ => .trans) hf

end

namespace Restores

variable {α β : Type} {x : Check α} {S : CheckState → CheckState → Prop}

theorem pure (a : α) : Restores (pure a) := fun s _ h => .ok rfl ⟨h, .refl s⟩

theorem throw (e : TypeError) : Restores (throw e : Check α) := fun s _ h => .error rfl ⟨h, .refl s⟩

theorem bind {f : α → Check β} (hx : Restores x) (hf : ∀ a, Restores (f a)) :
    Restores (x >>= f) :=
  Blind.bind (fun _ _ _ => .trans) hx hf

/-- What comes after a look at the scope and the expected result type. -/
theorem get_bind {f : CheckState → Check α} (hf : ∀ s, Restores (f s))
    (hcongr : ∀ s t, s.Alike t → f s = f t) : Restores (MonadState.get >>= f) := by
  intro s t h
  show Related _ _ _ (f s s) (f t t)
  rw [← hcongr s t h]
  exact hf s h

theorem discard (hx : Restores x) : Restores (discard x) := hx.bind fun _ => .pure _

theorem forM {f : α → Check PUnit} (hf : ∀ a, Restores (f a)) :
    (as : List α) → Restores (as.forM f)
  | [] => .pure _
  | a :: as => (hf a).bind fun _ => forM hf as

theorem declares (hx : Restores x) : Blind CheckState.Declares x :=
  .of_relates hx.relates (fun _ _ _ h => .of_alike (hx.of_ok h))
    fun _ _ _ h => .of_alike (hx.of_error h)

/-- A scope that is left again is forgotten, with all that was declared in it. -/
theorem inChild (hx : Blind CheckState.Declares x) : Restores (inChild x) := by
  intro s t h
  have hrun := hx (h.withScope s.scope.child)
  rw [Check.inChild, TinyScript.get_bind, TinyScript.get_bind, inScope, inScope, h.scope]
  generalize x { s with scope := s.scope.child } = p at hrun ⊢
  generalize x { t with scope := s.scope.child } = q at hrun ⊢
  cases hrun with
  | ok ha hs => exact .ok ha ⟨h.scope ▸ hs.1.withScope _, rfl, hs.2.result, hs.2.signatures⟩
  | error he hs => exact .error he ⟨h.scope ▸ hs.1.withScope _, rfl, hs.2.result, hs.2.signatures⟩

theorem withResult (hx : Restores x) (type : Ty) : Restores (withResult type x) := by
  intro s t h
  have hrun := hx (h.withResult type)
  rw [Check.withResult, Check.withResult]
  generalize x { s with result := type } = p at hrun ⊢
  generalize x { t with result := type } = q at hrun ⊢
  cases hrun with
  | ok ha hs => exact .ok ha ⟨h.result ▸ hs.1.withResult _, hs.2.scope, rfl, hs.2.signatures⟩
  | error he hs => exact .error he ⟨h.result ▸ hs.1.withResult _, hs.2.scope, rfl, hs.2.signatures⟩

end Restores

/-! ## Elementary steps -/

/-- Records other than signatures are not looked at. -/
theorem restores_record (f : Analysis → Analysis) (hf : ∀ a, (f a).signatures = a.signatures) :
    Restores (record f) := by
  intro s t h
  refine .ok rfl ⟨⟨h.scope, h.result, ?_⟩, ⟨rfl, rfl, hf _⟩⟩
  exact (hf _).trans (h.signatures.trans (hf _).symm)

theorem restores_typed (id : Nat) (t : Ty) :
    Restores (do record (·.recordType id t); return t) :=
  (restores_record (·.recordType id t) fun _ => rfl).bind fun _ => .pure t

theorem restores_bound (id : Nat) (binding : Binding) (t : Ty) :
    Restores (do record (·.recordBinding id binding); record (·.recordType id t); return t) :=
  (restores_record (·.recordBinding id binding) fun _ => rfl).bind fun _ => restores_typed id t

theorem restores_requireAssignable (target source : Ty) :
    Restores (requireAssignable target source) := by
  unfold requireAssignable
  split
  · exact .pure _
  · exact .throw _

theorem restores_requireBoolean (t : Ty) (offset : Nat) : Restores (requireBoolean t offset) := by
  unfold requireBoolean
  split
  · exact .pure _
  · exact .throw _

theorem restores_requireObject (r : Registry) (t : Ty) (offset : Nat) :
    Restores (requireObject r t offset) := by
  unfold requireObject
  split
  · exact .pure _
  · exact .throw _

theorem restores_resolve (r : Registry) (name : String) : Restores (resolve r name) := by
  unfold resolve
  split
  · exact .pure _
  · exact .throw _

theorem restores_resolveConcrete (r : Registry) (declared name : String) :
    Restores (resolveConcrete r declared name) := by
  refine (restores_resolve r name).bind fun t => ?_
  split
  · exact .throw _
  · exact .pure _

theorem restores_literal (offset : Nat) (value : Literal) : Restores (literal offset value) := by
  unfold literal
  split
  case h_3 | h_4 =>
    split
    · exact .pure _
    · exact .throw _
  all_goals exact .pure _

/-! ## Expressions -/

mutual

/-- Analysis of an expression comes back to the state before, and does not look at records. -/
theorem restores_expr (r : Registry) : (e : Expr) → Restores (expr r e)
  | .literal n value => (restores_literal n.offset value).bind fun t => restores_typed n.id t
  | .group n inner => by
    rw [expr]
    split
    · exact (restores_expr r inner).bind fun t => restores_typed n.id t
    · exact .throw _
  | .binary n o left right => by
    rw [expr]
    refine (restores_expr r left).bind fun t => ?_
    split
    · refine (restores_requireBoolean t left.offset).bind fun _ => ?_
      refine (restores_expr r right).bind fun u => ?_
      exact (restores_requireBoolean u right.offset).bind fun _ => restores_typed n.id .boolean
    · refine (restores_expr r right).bind fun u => ?_
      split
      · exact restores_typed n.id _
      · exact .throw _
  | .var n x => by
    rw [expr]
    refine .get_bind (fun s => ?_) fun s t h => by simp only [h.scope]
    cases s.scope.lookup? x with
    | some t => exact restores_bound n.id (.var x t) t
    | none => exact .throw _
  | .field n receiver x => by
    rw [expr]
    refine (restores_expr r receiver).bind fun owner => ?_
    refine (restores_requireObject r owner _).bind fun type => ?_
    cases type.fieldType? x with
    | some t => exact restores_bound n.id (.field owner x t) t
    | none => exact .throw _
  | .call n f es => by
    rw [expr]
    refine .get_bind (fun s => ?_) fun s t h => by simp only [h.scope]
    cases s.scope.function? f es.length with
    | some signature =>
      exact (restores_exprs r es signature.parameters).bind fun _ =>
        restores_bound n.id (.function signature) signature.result
    | none => exact .throw _
  | .methodCall n receiver f es => by
    rw [expr]
    refine (restores_expr r receiver).bind fun owner => ?_
    refine (restores_requireObject r owner _).bind fun type => ?_
    cases type.method? f es.length with
    | some method =>
      exact (restores_exprs r es method.signature.parameters).bind fun _ =>
        restores_bound n.id (.method owner method.signature) method.signature.result
    | none => exact .throw _
termination_by structural e => e

theorem restores_exprs (r : Registry) : (es : List Expr) → (ts : List Ty) →
    Restores (exprs r es ts)
  | [], _ => .pure _
  | _ :: _, [] => .pure _
  | e :: es, t :: ts => (restores_expr r e).bind fun u =>
      (restores_requireAssignable t u).bind fun _ => restores_exprs r es ts
termination_by structural es => es

end

/-! ## Statements -/

theorem restores_condition (r : Registry) (e : Expr) : Restores (condition r e) :=
  (restores_expr r e).bind fun t => restores_requireBoolean t e.offset

theorem restores_optionalExpr (r : Registry) : (value : Option Expr) →
    Restores (optionalExpr r value)
  | none => .pure none
  | some e => (restores_expr r e).bind fun t => .pure (some t)

/-- The type that a declaration gives its variable. -/
def declarationType (r : Registry) (d : Declaration) : Check Ty := do
  let declared ← d.typeName.mapM (resolveConcrete r d.name)
  let value ← optionalExpr r d.value
  declaredType d.name declared value

theorem declaration_eq (r : Registry) (d : Declaration) :
    declaration r d = (do
      let t ← declarationType r d
      defineVariable d.name t
      record (·.recordDeclaration d.node.id t)) := by
  simp only [declaration, declarationType, bind_assoc]

theorem restores_declarationType (r : Registry) (d : Declaration) :
    Restores (declarationType r d) := by
  have hannotation : Restores (d.typeName.mapM (resolveConcrete r d.name)) := by
    cases d.typeName with
    | none => exact .pure _
    | some name => exact (restores_resolveConcrete r d.name name).bind fun _ => .pure _
  refine hannotation.bind fun declared => ?_
  refine (restores_optionalExpr r d.value).bind fun value => ?_
  rcases declared with _ | t <;> rcases value with _ | u
  · exact .throw _
  · exact .pure _
  · exact .pure _
  · exact (restores_requireAssignable t u).bind fun _ => .pure _

theorem defineVariable_of_error {x : String} {t : Ty} {s s' : CheckState} {e : TypeError}
    (h : defineVariable x t s = .error e s') : s' = s := by
  rw [defineVariable, get_bind] at h
  split at h <;> cases h
  rfl

/-- A declaration that succeeds adds its variable, which is new to the innermost frame. -/
theorem declaration_of_ok {r : Registry} {d : Declaration} {s s' : CheckState} {u : Unit}
    (h : declaration r d s = .ok u s') :
    ∃ t, s.scope.hasLocalVariable d.name = false ∧
      CheckState.Alike { s with scope := s.scope.defineVariable d.name t } s' := by
  rw [declaration_eq] at h
  obtain ⟨t, s₁, ht, h⟩ := bind_eq_ok.1 h
  obtain ⟨⟨⟩, s₂, hdefine, hrecord⟩ := bind_eq_ok.1 h
  obtain ⟨hfresh, rfl⟩ := defineVariable_eq_ok.1 hdefine
  cases hrecord
  have hs := (restores_declarationType r d).of_ok ht
  rw [hs.scope] at hfresh
  exact ⟨t, hfresh, by rw [hs.scope], hs.result, hs.signatures⟩

/-- A declaration that fails adds nothing. -/
theorem declaration_of_error {r : Registry} {d : Declaration} {s s' : CheckState} {e : TypeError}
    (h : declaration r d s = .error e s') : s.Alike s' := by
  rw [declaration_eq] at h
  obtain ht | ⟨t, s₁, ht, h⟩ := bind_eq_error.1 h
  · exact (restores_declarationType r d).of_error ht
  · -- the definition is the last thing that can fail
    have hs := (restores_declarationType r d).of_ok ht
    obtain hdefine | ⟨⟨⟩, s₂, -, hrecord⟩ := bind_eq_error.1 h
    · exact defineVariable_of_error hdefine ▸ hs
    · cases hrecord

theorem relates_defineVariable (x : String) (t : Ty) :
    Relates Eq CheckState.Alike Eq (defineVariable x t) (defineVariable x t) := by
  intro s s' h
  rw [defineVariable, get_bind, get_bind, h.scope]
  split
  · exact .error rfl h
  · exact .ok rfl ⟨by simp only [h.scope], h.result, h.signatures⟩

theorem blind_defineVariable (x : String) (t : Ty) :
    Blind CheckState.Declares (defineVariable x t) := by
  refine .of_relates (relates_defineVariable x t) (fun s _ s' h => ?_) fun s e s' h => ?_
  · obtain ⟨hfresh, rfl⟩ := defineVariable_eq_ok.1 h
    exact ⟨.step (.refl _) hfresh, rfl, rfl⟩
  · exact defineVariable_of_error h ▸ .of_alike (.refl _)

theorem blind_declaration (r : Registry) (d : Declaration) :
    Blind CheckState.Declares (declaration r d) := by
  rw [declaration_eq]
  refine (restores_declarationType r d).declares.declares_bind fun t => ?_
  refine (blind_defineVariable d.name t).declares_bind fun _ => ?_
  exact (restores_record (·.recordDeclaration d.node.id t) fun _ => rfl).declares

theorem restores_assignment (r : Registry) (receiver value : Expr) :
    Restores (assignment r receiver value) := by
  unfold assignment
  split
  · exact (restores_expr r receiver).bind fun t => (restores_expr r value).bind fun u =>
      restores_requireAssignable t u
  · exact .throw _

/-- A declaration is the only statement that leaves something in the scope. -/
theorem blind_of_restores {r : Registry} {st : Stmt}
    (h : st.isDeclaration = false → Restores (stmt r st)) :
    Blind CheckState.Declares (stmt r st) := by
  cases hst : st.isDeclaration with
  | false => exact (h hst).declares
  | true =>
    cases st with
    | declare d => exact blind_declaration r d
    | _ => cases hst

mutual

/-- Analysis of a statement that declares nothing comes back to the state before. -/
theorem restores_stmt (r : Registry) : (st : Stmt) → st.isDeclaration = false →
    Restores (stmt r st)
  | .expression e, _ => by
    refine (restores_expr r e).discard.bind fun _ => ?_
    split
    · exact .pure _
    · exact .throw _
  | .assign receiver value, _ => restores_assignment r receiver value
  | .branch c ss ss', _ => by
    rw [stmt]
    refine (restores_condition r c).bind fun _ => ?_
    have hblocks : Restores (do inChild (stmts r ss); inChild (stmts r ss')) :=
      (Restores.inChild (blind_stmts r ss)).bind fun _ => .inChild (blind_stmts r ss')
    split
    · exact .bind (.throw _) fun _ => hblocks
    · exact hblocks
  | .forEach x e ss, _ => by
    rw [stmt]
    refine (restores_expr r e).bind fun t => ?_
    split
    · exact .inChild ((blind_defineVariable x .integer).declares_bind fun _ =>
        blind_stmts r ss)
    · exact .throw _
  | .loop c ss, _ => (restores_condition r c).bind fun _ => .inChild (blind_stmts r ss)
  | .ret _ e, _ => by
    rw [stmt]
    refine (restores_expr r e).bind fun t => ?_
    exact .get_bind (fun s => restores_requireAssignable s.result t) fun s u h => by
      simp only [h.result]
termination_by structural st => st

/-- Analysis of statements declares variables in the innermost frame and leaves the frames
    further out alone. -/
theorem blind_stmts (r : Registry) : (ss : List Stmt) →
    Blind CheckState.Declares (stmts r ss)
  | [] => (Restores.pure ()).declares
  | s :: ss => (blind_of_restores (restores_stmt r s)).declares_bind fun _ =>
      blind_stmts r ss
termination_by structural ss => ss

end

theorem blind_stmt (r : Registry) (st : Stmt) : Blind CheckState.Declares (stmt r st) :=
  blind_of_restores (restores_stmt r st)

/-- A statement that fails adds nothing. -/
theorem stmt_of_error {r : Registry} {st : Stmt} {s s' : CheckState} {e : TypeError}
    (h : stmt r st s = .error e s') : s.Alike s' := by
  cases hst : st.isDeclaration with
  | false => exact (restores_stmt r st hst).of_error h
  | true =>
    cases st with
    | declare d => exact declaration_of_error h
    | _ => cases hst

/-! ## Programs -/

theorem blind_field (r : Registry) (f : Field) : Blind CheckState.Declares (field r f) := by
  refine (restores_resolveConcrete r f.name f.typeName).declares.declares_bind fun t => ?_
  refine (restores_optionalExpr r f.value).declares.declares_bind fun value => ?_
  have hdefine : Blind CheckState.Declares (do
      defineVariable f.name t
      record (·.recordDeclaration f.node.id t)) :=
    (blind_defineVariable f.name t).declares_bind fun _ =>
      (restores_record (·.recordDeclaration f.node.id t) fun _ => rfl).declares
  cases value with
  | none => exact hdefine
  | some u =>
    exact (restores_requireAssignable t u).declares.declares_bind fun _ => hdefine

theorem restores_parameterTypes (r : Registry) (ps : List Parameter) :
    Restores (ps.mapM (parameterType r)) := by
  induction ps with
  | nil => exact .pure []
  | cons p ps ih =>
    rw [List.mapM_cons]
    have htype : Restores (parameterType r p) := by
      unfold parameterType
      split
      · exact restores_resolve r _
      · exact .pure Ty.any
    exact htype.bind fun t => ih.bind fun ts => .pure (t :: ts)

theorem restores_resultType (r : Registry) (m : Method) : Restores (resultType r m) := by
  unfold resultType
  split
  · exact restores_resolveConcrete r m.name _
  · exact .pure Ty.nil

/-- Registration looks at scopes only. -/
theorem relates_registerMethod (r : Registry) (m : Method) :
    Relates Eq CheckState.Alike Eq (registerMethod r m) (registerMethod r m) := by
  refine (restores_parameterTypes r m.parameters).relates.bind ?_
  rintro ts _ rfl
  refine (restores_resultType r m).relates.bind ?_
  rintro t _ rfl
  refine Relates.get_bind fun s s' h => ?_
  rw [h.scope]
  split
  · exact .error rfl h
  · refine .ok rfl ⟨by simp only [h.scope], h.result, ?_⟩
    simp only [Analysis.recordSignature, h.signatures]

theorem blind_defineParameters : (ps : List Parameter) → (ts : List Ty) →
    Blind CheckState.Declares (defineParameters ps ts)
  | [], _ => (Restores.pure ()).declares
  | _ :: _, [] => (Restores.pure ()).declares
  | p :: ps, t :: ts => (blind_defineVariable p.name t).declares_bind fun _ =>
      blind_defineParameters ps ts

/-- Analysis of a body comes back to the state before. -/
theorem restores_methodBody (r : Registry) (m : Method) : Restores (methodBody r m) := by
  refine .get_bind (fun s => ?_) fun s t h => by simp only [h.signatures]
  cases s.analysis.signatures[m.node.id]? with
  | none => exact .throw _
  | some signature =>
    refine .withResult (.inChild ?_) signature.result
    exact (blind_defineParameters m.parameters signature.parameters).declares_bind fun _ =>
      blind_stmts r m.body

theorem restores_requireMain : Restores requireMain := by
  refine .get_bind (fun s => ?_) fun s t h => by simp only [h.scope]
  cases s.scope.function? "main" 0 with
  | none => exact .throw _
  | some main =>
    simp only
    split
    · exact .pure ()
    · exact .throw _

theorem relates_forM {α : Type} {f : α → Check Unit} {as : List α}
    (h : ∀ a, Relates Eq CheckState.Alike Eq (f a) (f a)) :
    Relates Eq CheckState.Alike Eq (as.forM f) (as.forM f) := by
  refine Relates.forM (Q := Eq) rfl (List.forall₂_same.2 fun _ _ => rfl) ?_
  rintro a _ rfl
  exact h a

theorem relates_inChild {α : Type} {x : Check α} (h : Relates Eq CheckState.Alike Eq x x) :
    Relates Eq CheckState.Alike Eq (inChild x) (inChild x) := by
  intro s t hst
  have hrun := h (hst.withScope s.scope.child)
  rw [inChild, get_bind, get_bind, inScope, inScope, hst.scope]
  generalize x { s with scope := s.scope.child } = p at hrun ⊢
  generalize x { t with scope := s.scope.child } = q at hrun ⊢
  cases hrun with
  | ok ha hs => exact .ok ha (hs.withScope _)
  | error he hs => exact .error he (hs.withScope _)

/-- Whether a program is accepted, and which error is found first, does not depend on what has
    been recorded before. -/
theorem relates_source (r : Registry) (p : Source) :
    Relates Eq CheckState.Alike Eq (source r p) (source r p) := by
  refine relates_inChild ?_
  refine (relates_forM fun f => (blind_field r f).relates).bind fun _ _ _ => ?_
  refine (relates_forM (relates_registerMethod r)).bind fun _ _ _ => ?_
  refine restores_requireMain.relates.bind fun _ _ _ => ?_
  exact (Restores.forM (restores_methodBody r) p.methods).relates

/-! ## One analysis after another -/

/-- Something to analyse. -/
inductive Query where
  | expression (e : Expr)
  | statement (st : Stmt)
  | program (p : Source)

/-- The analysis that is asked for; an expression has a type. -/
def Query.check (r : Registry) : Query → Check (Option Ty)
  | .expression e => do return some (← expr r e)
  | .statement st => do
    stmt r st
    return none
  | .program p => do
    source r p
    return none

/-- The outcomes of analyses one after another, which all go on in the state that the one
    before left, whether that succeeded or failed. -/
def verdicts (r : Registry) : List Query → CheckState → List (Except TypeError (Option Ty))
  | [], _ => []
  | q :: qs, s =>
    match q.check r s with
    | .ok t s' => .ok t :: verdicts r qs s'
    | .error e s' => .error e :: verdicts r qs s'

theorem Query.relates_check (r : Registry) (q : Query) :
    Relates Eq CheckState.Alike Eq (q.check r) (q.check r) := by
  cases q with
  | expression e =>
    refine (restores_expr r e).relates.bind ?_
    rintro t _ rfl
    exact .pure rfl
  | statement st => exact (blind_stmt r st).relates.bind fun _ _ _ => .pure rfl
  | program p => exact (relates_source r p).bind fun _ _ _ => .pure rfl

/-- Analyses in states that are alike have the same outcomes. -/
theorem verdicts_congr (r : Registry) (qs : List Query) {s t : CheckState} (h : s.Alike t) :
    verdicts r qs s = verdicts r qs t := by
  induction qs generalizing s t with
  | nil => rfl
  | cons q qs ih =>
    have hrun := q.relates_check r h
    rw [verdicts, verdicts]
    generalize q.check r s = p at hrun ⊢
    generalize q.check r t = p' at hrun ⊢
    cases hrun with
    | ok ha hs => simp only [ha, ih hs]
    | error he hs => simp only [he, ih hs]

/-- After a query that fails and leaves no more than records, analysis goes on as if it had not
    been made. -/
theorem verdicts_of_error {r : Registry} {q : Query} {s s' : CheckState} {e : TypeError}
    (h : q.check r s = .error e s') (hs : s.Alike s') (qs : List Query) :
    verdicts r (q :: qs) s = .error e :: verdicts r qs s := by
  rw [verdicts, h]
  exact congrArg _ (verdicts_congr r qs hs.symm)

end Check

open Check in
/-- **Analysis comes back to where it was.**  An expression leaves the scope, the expected result
    type and the signatures of the methods as they are, whether it has a type or an error; so
    does a statement, except that a declaration that succeeds adds its variable to the innermost
    frame, where there was none of its name.  The statements of a block change nothing but the
    frame they are in, not even for the time being, so to leave a block is to drop that frame.
    And after an expression or a statement with an error all further analyses, of whatever and
    however many, have the outcomes that they have without it. -/
theorem analysis_restores (r : Registry) :
    (∀ (e : Expr) (s : CheckState), s.Alike (after (expr r e) s)) ∧
    (∀ (st : Stmt) (s : CheckState), st.isDeclaration = false → s.Alike (after (stmt r st) s)) ∧
    (∀ d s error s', stmt r (.declare d) s = .error error s' → s.Alike s') ∧
    (∀ d s s', stmt r (.declare d) s = .ok () s' →
      ∃ t, s.scope.hasLocalVariable d.name = false ∧
        CheckState.Alike { s with scope := s.scope.defineVariable d.name t } s') ∧
    (∀ ss s, (after (stmts r ss) s).scope.tail = s.scope.tail) ∧
    (∀ e s error s', expr r e s = .error error s' → ∀ qs,
      verdicts r (.expression e :: qs) s = .error error :: verdicts r qs s) ∧
    ∀ st s error s', stmt r st s = .error error s' → ∀ qs,
      verdicts r (.statement st :: qs) s = .error error :: verdicts r qs s := by
  refine ⟨fun e => (restores_expr r e).after, fun st s h => (restores_stmt r st h).after s,
    fun d s error s' => declaration_of_error, fun d s s' => declaration_of_ok,
    fun ss s => ((blind_stmts r ss).after s).scope.tail, ?_, ?_⟩
  · intro e s error s' h
    exact verdicts_of_error (bind_of_error h) ((restores_expr r e).of_error h)
  · intro st s error s' h
    exact verdicts_of_error (bind_of_error h) (stmt_of_error h)

end TinyScript
