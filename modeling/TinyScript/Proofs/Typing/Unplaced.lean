import TinyScript.Proofs.Tree.Unplaced
import TinyScript.Typing.Source

/-
  Analysis of trees without offsets.

  Analysis puts offsets into errors and nowhere else: what it records stands under
  identities.  So a program without offsets has the same facts, or the same first error but
  for its offset.

  * `TypeError.unplaced`: an error without its offset;
  * `Check.Forgets`: a step does on a tree without offsets what another does on the tree;
  * `unplaced_analyze`: so does analysis.
-/

namespace TinyScript

/-- The error without its offset. -/
def TypeError.unplaced : TypeError → TypeError
  | unknownVariable name _ => unknownVariable name 0
  | unknownFunction name arity _ => unknownFunction name arity 0
  | unknownField owner name _ => unknownField owner name 0
  | unknownMethod owner name arity _ => unknownMethod owner name arity 0
  | notAnObject found _ => notAnObject found 0
  | invalidAssignmentReceiver _ => invalidAssignmentReceiver 0
  | expectedBoolean found _ => expectedBoolean found 0
  | expectedIterable found _ => expectedIterable found 0
  | emptyThenBranch _ => emptyThenBranch 0
  | invalidOperands operator left right _ => invalidOperands operator left right 0
  | integerOutOfRange _ => integerOutOfRange 0
  | decimalOutOfRange _ => decimalOutOfRange 0
  | groupNotBinary _ => groupNotBinary 0
  | expressionNotCall _ => expressionNotCall 0
  | e => e

/-! ## Trees -/

@[simp] theorem Expr.offset_unplaced (e : Expr) : e.unplaced.offset = 0 := by
  rw [Expr.offset, Expr.node_unplaced]
  rfl

@[simp] theorem Expr.isBinary_unplaced (e : Expr) : e.unplaced.isBinary = e.isBinary := by
  cases e <;> rfl

@[simp] theorem Expr.isCall_unplaced (e : Expr) : e.unplaced.isCall = e.isCall := by
  cases e <;> rfl

@[simp] theorem Expr.isAccess_unplaced (e : Expr) : e.unplaced.isAccess = e.isAccess := by
  cases e <;> rfl

@[simp] theorem Expr.length_unplacedList (es : List Expr) :
    (Expr.unplacedList es).length = es.length := by
  rw [Expr.unplacedList_eq_map, List.length_map]

@[simp] theorem Stmt.isEmpty_unplacedList (ss : List Stmt) :
    (Stmt.unplacedList ss).isEmpty = ss.isEmpty := by
  cases ss <;> rfl

namespace Check

/-- The second step does what the first one does, and fails with its error without the
    offset. -/
abbrev Forgets {α : Type} (p q : Check α) : Prop :=
  Relates (fun e e' => e' = e.unplaced) Eq Eq p q

/-! ## Elementary steps -/

section
variable {α : Type} {p q : Check α}

theorem forgets_record (f : Analysis → Analysis) : Forgets (record f) (record f) := by
  rintro s _ rfl
  exact .ok rfl rfl

theorem forgets_requireAssignable (target source : Ty) :
    Forgets (requireAssignable target source) (requireAssignable target source) := by
  unfold requireAssignable
  split
  · exact Relates.pure rfl
  · exact Relates.throw rfl

theorem forgets_requireBoolean (type : Ty) (offset : Nat) :
    Forgets (requireBoolean type offset) (requireBoolean type 0) := by
  unfold requireBoolean
  split
  · exact Relates.pure rfl
  · exact Relates.throw rfl

theorem forgets_requireObject (r : Registry) (type : Ty) (offset : Nat) :
    Forgets (requireObject r type offset) (requireObject r type 0) := by
  unfold requireObject
  split
  · exact Relates.pure rfl
  · exact Relates.throw rfl

theorem forgets_resolve (r : Registry) (name : String) :
    Forgets (resolve r name) (resolve r name) := by
  unfold resolve
  split
  · exact Relates.pure rfl
  · exact Relates.throw rfl

theorem forgets_resolveConcrete (r : Registry) (declared name : String) :
    Forgets (resolveConcrete r declared name) (resolveConcrete r declared name) := by
  refine Relates.bind (forgets_resolve r name) ?_
  rintro t _ rfl
  split
  · exact Relates.throw rfl
  · exact Relates.pure rfl

theorem forgets_defineVariable (x : String) (t : Ty) :
    Forgets (defineVariable x t) (defineVariable x t) := by
  refine Relates.get_bind ?_
  rintro s _ rfl
  split
  · exact .error rfl rfl
  · exact .ok rfl rfl

theorem forgets_literal (offset : Nat) (value : Literal) :
    Forgets (literal offset value) (literal 0 value) := by
  cases value with
  | integer n =>
    simp only [literal]
    split
    · exact Relates.pure rfl
    · exact Relates.throw rfl
  | decimal d =>
    simp only [literal]
    split
    · exact Relates.pure rfl
    · exact Relates.throw rfl
  | _ => exact Relates.pure rfl

theorem forgets_called (id : Nat) (signature : Signature) (binding : Binding) :
    Forgets (called id signature binding) (called id signature binding) :=
  Relates.bind (forgets_record _) fun _ _ _ => Relates.pure rfl

theorem forgets_inScope (h : Forgets p q) (T : Scope Ty Signature) :
    Forgets (inScope T p) (inScope T q) := by
  rintro s _ rfl
  have hrun := h (s := { s with scope := T }) rfl
  rw [inScope, inScope]
  generalize p { s with scope := T } = o at hrun
  generalize q { s with scope := T } = o' at hrun
  cases hrun with
  | ok ha hs => exact .ok ha (by rw [hs])
  | error he hs => exact .error he (by rw [hs])

theorem forgets_inChild (h : Forgets p q) : Forgets (inChild p) (inChild q) := by
  refine Relates.get_bind ?_
  rintro s _ rfl
  exact forgets_inScope h _ rfl

theorem forgets_withResult (h : Forgets p q) (t : Ty) :
    Forgets (withResult t p) (withResult t q) := by
  rintro s _ rfl
  have hrun := h (s := { s with result := t }) rfl
  rw [withResult, withResult]
  generalize p { s with result := t } = o at hrun
  generalize q { s with result := t } = o' at hrun
  cases hrun with
  | ok ha hs => exact .ok ha (by rw [hs])
  | error he hs => exact .error he (by rw [hs])

/-- A type is recorded and returned. -/
theorem forgets_typed (id : Nat) (t : Ty) :
    Forgets (do record (·.recordType id t); return t) (do record (·.recordType id t); return t) :=
  Relates.bind (forgets_record _) fun _ _ _ => Relates.pure rfl

end

/-! ## Expressions -/

mutual

theorem forgets_expr (r : Registry) : (e : Expr) → Forgets (expr r e) (expr r e.unplaced)
  | .literal n value => by
    refine Relates.bind (forgets_literal n.offset value) ?_
    rintro t _ rfl
    exact forgets_typed n.id t
  | .group n e => by
    simp only [Expr.unplaced, expr, Expr.isBinary_unplaced]
    split
    · refine Relates.bind (forgets_expr r e) ?_
      rintro t _ rfl
      exact forgets_typed n.id t
    · exact Relates.throw rfl
  | .binary n o left right => by
    simp only [Expr.unplaced, expr, Expr.offset_unplaced]
    refine Relates.bind (forgets_expr r left) ?_
    rintro t _ rfl
    split
    · refine Relates.bind (forgets_requireBoolean t _) fun _ _ _ => ?_
      refine Relates.bind (forgets_expr r right) ?_
      rintro u _ rfl
      exact Relates.bind (forgets_requireBoolean u _) fun _ _ _ => forgets_typed n.id .boolean
    · refine Relates.bind (forgets_expr r right) ?_
      rintro u _ rfl
      cases operatorType? o t u with
      | some type => exact forgets_typed n.id type
      | none => exact Relates.throw rfl
  | .var n x => by
    refine Relates.get_bind ?_
    rintro s _ rfl
    cases s.scope.lookup? x with
    | some t =>
      exact Relates.bind (forgets_record _) (fun _ _ _ => forgets_typed n.id t) rfl
    | none => exact .error rfl rfl
  | .field n e x => by
    simp only [Expr.unplaced, expr, Expr.offset_unplaced]
    refine Relates.bind (forgets_expr r e) ?_
    rintro owner _ rfl
    refine Relates.bind (forgets_requireObject r owner _) ?_
    rintro type _ rfl
    cases type.fieldType? x with
    | some t => exact Relates.bind (forgets_record _) fun _ _ _ => forgets_typed n.id t
    | none => exact Relates.throw rfl
  | .call n x es => by
    simp only [Expr.unplaced, expr, Expr.length_unplacedList]
    refine Relates.get_bind ?_
    rintro s _ rfl
    cases s.scope.function? x es.length with
    | none => exact .error rfl rfl
    | some signature =>
      refine Relates.bind (forgets_exprs r es signature.parameters) (fun _ _ _ => ?_) rfl
      refine Relates.bind (forgets_called _ _ _) ?_
      rintro t _ rfl
      exact forgets_typed n.id t
  | .methodCall n e x es => by
    simp only [Expr.unplaced, expr, Expr.offset_unplaced, Expr.length_unplacedList]
    refine Relates.bind (forgets_expr r e) ?_
    rintro owner _ rfl
    refine Relates.bind (forgets_requireObject r owner _) ?_
    rintro type _ rfl
    cases type.method? x es.length with
    | none => exact Relates.throw rfl
    | some f =>
      refine Relates.bind (forgets_exprs r es f.signature.parameters) fun _ _ _ => ?_
      refine Relates.bind (forgets_called _ _ _) ?_
      rintro t _ rfl
      exact forgets_typed n.id t
termination_by structural e => e

theorem forgets_exprs (r : Registry) : (es : List Expr) → (ts : List Ty) →
    Forgets (exprs r es ts) (exprs r (Expr.unplacedList es) ts)
  | [], _ => Relates.pure rfl
  | _ :: _, [] => Relates.pure rfl
  | e :: es, t :: ts => by
    refine Relates.bind (forgets_expr r e) ?_
    rintro u _ rfl
    exact Relates.bind (forgets_requireAssignable t u) fun _ _ _ => forgets_exprs r es ts
termination_by structural es => es

end

/-! ## Statements -/

theorem forgets_condition (r : Registry) (e : Expr) :
    Forgets (condition r e) (condition r e.unplaced) := by
  unfold condition
  rw [Expr.offset_unplaced]
  refine Relates.bind (forgets_expr r e) ?_
  rintro t _ rfl
  exact forgets_requireBoolean t _

theorem forgets_optionalExpr (r : Registry) (value : Option Expr) :
    Forgets (optionalExpr r value) (optionalExpr r (value.map Expr.unplaced)) := by
  cases value with
  | none => exact Relates.pure rfl
  | some e =>
    refine Relates.bind (forgets_expr r e) ?_
    rintro t _ rfl
    exact Relates.pure rfl

theorem forgets_declaredType (x : String) (declared value : Option Ty) :
    Forgets (declaredType x declared value) (declaredType x declared value) := by
  cases declared with
  | none =>
    cases value with
    | none => exact Relates.throw rfl
    | some u => exact Relates.pure rfl
  | some t =>
    cases value with
    | none => exact Relates.pure rfl
    | some u =>
      exact Relates.bind (forgets_requireAssignable t u) fun _ _ _ => Relates.pure rfl

theorem forgets_declaration (r : Registry) (d : Declaration) :
    Forgets (declaration r d) (declaration r d.unplaced) := by
  have hannotation : Forgets (d.typeName.mapM (resolveConcrete r d.name))
      (d.typeName.mapM (resolveConcrete r d.name)) := by
    cases d.typeName with
    | none => exact Relates.pure rfl
    | some name =>
      refine Relates.bind (forgets_resolveConcrete r d.name name) ?_
      rintro t _ rfl
      exact Relates.pure rfl
  refine Relates.bind hannotation ?_
  rintro declared _ rfl
  refine Relates.bind (forgets_optionalExpr r d.value) ?_
  rintro value _ rfl
  refine Relates.bind (forgets_declaredType d.name declared value) ?_
  rintro t _ rfl
  exact Relates.bind (forgets_defineVariable d.name t) fun _ _ _ => forgets_record _

theorem forgets_assignment (r : Registry) (receiver value : Expr) :
    Forgets (assignment r receiver value) (assignment r receiver.unplaced value.unplaced) := by
  unfold assignment
  rw [Expr.isAccess_unplaced, Expr.offset_unplaced]
  split
  · refine Relates.bind (forgets_expr r receiver) ?_
    rintro t _ rfl
    refine Relates.bind (forgets_expr r value) ?_
    rintro u _ rfl
    exact forgets_requireAssignable t u
  · exact Relates.throw rfl

mutual

theorem forgets_stmt (r : Registry) : (s : Stmt) → Forgets (stmt r s) (stmt r s.unplaced)
  | .expression e => by
    simp only [Stmt.unplaced, stmt, Expr.isCall_unplaced, Expr.offset_unplaced]
    refine Relates.bind (Relates.discard (forgets_expr r e)) fun _ _ _ => ?_
    split
    · exact Relates.pure rfl
    · exact Relates.throw rfl
  | .declare d => forgets_declaration r d
  | .assign receiver value => forgets_assignment r receiver value
  | .branch c ss ss' => by
    simp only [Stmt.unplaced, stmt, Stmt.isEmpty_unplacedList, Expr.offset_unplaced]
    refine Relates.bind (forgets_condition r c) fun _ _ _ => ?_
    split
    · exact Relates.bind (R := Eq) (Relates.throw rfl) fun _ _ _ => Relates.bind
        (forgets_inChild (forgets_stmts r ss)) fun _ _ _ => forgets_inChild (forgets_stmts r ss')
    · exact Relates.bind (forgets_inChild (forgets_stmts r ss)) fun _ _ _ =>
        forgets_inChild (forgets_stmts r ss')
  | .forEach x e ss => by
    simp only [Stmt.unplaced, stmt, Expr.offset_unplaced]
    refine Relates.bind (forgets_expr r e) ?_
    rintro t _ rfl
    split
    · exact forgets_inChild (Relates.bind (forgets_defineVariable x _) fun _ _ _ =>
        forgets_stmts r ss)
    · exact Relates.throw rfl
  | .loop c ss => Relates.bind (forgets_condition r c) fun _ _ _ =>
      forgets_inChild (forgets_stmts r ss)
  | .ret _ e => by
    refine Relates.bind (forgets_expr r e) ?_
    rintro t _ rfl
    refine Relates.get_bind ?_
    rintro s _ rfl
    exact forgets_requireAssignable s.result t rfl
termination_by structural s => s

theorem forgets_stmts (r : Registry) : (ss : List Stmt) →
    Forgets (stmts r ss) (stmts r (Stmt.unplacedList ss)) := by
  intro ss
  cases ss with
  | nil => exact Relates.pure rfl
  | cons s ss => exact Relates.bind (forgets_stmt r s) fun _ _ _ => forgets_stmts r ss
termination_by structural ss => ss

end

/-! ## Programs -/

theorem forgets_forM {α : Type} {f : α → Check Unit} {g : α → α}
    (h : ∀ a, Forgets (f a) (f (g a))) (as : List α) :
    Forgets (as.forM f) ((as.map g).forM f) := by
  have hmap : List.Forall₂ (fun a b => b = g a) as (as.map g) :=
    List.forall₂_map_right_iff.2 (List.forall₂_same.2 fun _ _ => rfl)
  refine Relates.forM (Q := Eq) rfl hmap ?_
  rintro a _ rfl
  exact h a

theorem forgets_field (r : Registry) (f : Field) : Forgets (field r f) (field r f.unplaced) := by
  refine Relates.bind (forgets_resolveConcrete r f.name f.typeName) ?_
  rintro t _ rfl
  refine Relates.bind (forgets_optionalExpr r f.value) ?_
  rintro value _ rfl
  have hdefine := Relates.bind (forgets_defineVariable f.name t) fun _ _ _ =>
    forgets_record (·.recordDeclaration f.node.id t)
  cases value with
  | none => exact hdefine
  | some u => exact Relates.bind (forgets_requireAssignable t u) fun _ _ _ => hdefine

theorem forgets_parameterType (r : Registry) (p : Parameter) :
    Forgets (parameterType r p) (parameterType r p) := by
  unfold parameterType
  split
  · exact forgets_resolve r _
  · exact Relates.pure rfl

theorem forgets_parameterTypes (r : Registry) (ps : List Parameter) :
    Forgets (ps.mapM (parameterType r)) (ps.mapM (parameterType r)) := by
  induction ps with
  | nil => exact Relates.pure rfl
  | cons p ps ih =>
    simp only [List.mapM_cons]
    refine Relates.bind (forgets_parameterType r p) ?_
    rintro t _ rfl
    refine Relates.bind ih ?_
    rintro ts _ rfl
    exact Relates.pure rfl

theorem forgets_resultType (r : Registry) (d : Method) :
    Forgets (resultType r d) (resultType r d) := by
  unfold resultType
  split
  · exact forgets_resolveConcrete r _ _
  · exact Relates.pure rfl

theorem forgets_registerMethod (r : Registry) (d : Method) :
    Forgets (registerMethod r d) (registerMethod r d.unplaced) := by
  -- what is registered holds no offsets
  show Forgets (registerMethod r d) (registerMethod r d)
  refine Relates.bind (forgets_parameterTypes r d.parameters) ?_
  rintro ts _ rfl
  refine Relates.bind (forgets_resultType r d) ?_
  rintro t _ rfl
  refine Relates.get_bind ?_
  rintro s _ rfl
  split
  · exact .error rfl rfl
  · exact .ok rfl rfl

theorem forgets_defineParameters : (ps : List Parameter) → (ts : List Ty) →
    Forgets (defineParameters ps ts) (defineParameters ps ts)
  | [], _ => Relates.pure rfl
  | _ :: _, [] => Relates.pure rfl
  | p :: ps, t :: ts => Relates.bind (forgets_defineVariable p.name t) fun _ _ _ =>
      forgets_defineParameters ps ts

theorem forgets_methodBody (r : Registry) (d : Method) :
    Forgets (methodBody r d) (methodBody r d.unplaced) := by
  refine Relates.get_bind ?_
  rintro s _ rfl
  simp only [Method.unplaced, Node.id_unplaced]
  cases s.analysis.signatures[d.node.id]? with
  | none => exact .error rfl rfl
  | some signature =>
    refine forgets_withResult (forgets_inChild ?_) signature.result rfl
    exact Relates.bind (forgets_defineParameters d.parameters signature.parameters) fun _ _ _ =>
      forgets_stmts r d.body

theorem forgets_requireMain : Forgets requireMain requireMain := by
  refine Relates.get_bind ?_
  rintro s _ rfl
  cases s.scope.function? "main" 0 with
  | none => exact .error rfl rfl
  | some main =>
    simp only
    split
    · exact .ok rfl rfl
    · exact .error rfl rfl

theorem forgets_source (r : Registry) (s : Source) :
    Forgets (source r s) (source r s.unplaced) := by
  refine forgets_inChild ?_
  refine Relates.bind (forgets_forM (forgets_field r) s.fields) fun _ _ _ => ?_
  refine Relates.bind (forgets_forM (forgets_registerMethod r) s.methods) fun _ _ _ => ?_
  refine Relates.bind forgets_requireMain fun _ _ _ => ?_
  exact forgets_forM (forgets_methodBody r) s.methods

end Check

/-- Analysis finds the same facts about a program without offsets, or fails with the same
    error but for the offset. -/
theorem unplaced_analyze (r : Registry) (s : Source) :
    analyze r s.unplaced = (analyze r s).mapError TypeError.unplaced := by
  have hrun := Check.forgets_source r s (rfl : CheckState.ofRegistry r = .ofRegistry r)
  rw [analyze, analyze, EStateM.run, EStateM.run]
  generalize Check.source r s (.ofRegistry r) = o at hrun
  generalize Check.source r s.unplaced (.ofRegistry r) = o' at hrun
  cases hrun with
  | ok _ hs => rw [hs]; rfl
  | error he _ => rw [he]; rfl

end TinyScript
