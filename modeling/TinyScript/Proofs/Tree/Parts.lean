import TinyScript.Tree

/-
  The parts of a tree that have an identity, in document order.

  A part comes after everything inside it: an expression after its operands, a
  declaration or field after its initial value, a method after its body.
-/

namespace TinyScript

/-- A part of a tree that has an identity. -/
inductive Part where
  /-- An expression. -/
  | expr (e : Expr)
  /-- A local variable declaration. -/
  | declaration (d : Declaration)
  /-- A global variable. -/
  | field (f : Field)
  /-- A method. -/
  | method (m : Method)

/-- The identity of a part. -/
def Part.id : Part → Nat
  | expr e => e.id
  | declaration d => d.node.id
  | field f => f.node.id
  | method m => m.node.id

mutual

/-- An expression and all expressions in it. -/
def Expr.subs : Expr → List Expr
  | .literal n v => [.literal n v]
  | .group n inner => inner.subs ++ [.group n inner]
  | .binary n o l r => l.subs ++ r.subs ++ [.binary n o l r]
  | .var n x => [.var n x]
  | .field n receiver x => receiver.subs ++ [.field n receiver x]
  | .call n f es => Expr.subsList es ++ [.call n f es]
  | .methodCall n receiver f es =>
    receiver.subs ++ Expr.subsList es ++ [.methodCall n receiver f es]
termination_by structural e => e

/-- Some expressions and all expressions in them. -/
def Expr.subsList : List Expr → List Expr
  | [] => []
  | e :: es => e.subs ++ Expr.subsList es
termination_by structural es => es

end

/-- The parts of an expression. -/
def Expr.parts (e : Expr) : List Part := e.subs.map .expr

/-- The parts of an optional expression. -/
def Expr.optionalParts : Option Expr → List Part
  | some e => e.parts
  | none => []

mutual

/-- The parts of a statement. -/
def Stmt.parts : Stmt → List Part
  | .expression e => e.parts
  | .declare d => Expr.optionalParts d.value ++ [.declaration d]
  | .assign receiver value => receiver.parts ++ value.parts
  | .branch c thenBody elseBody => c.parts ++ Stmt.partsList thenBody ++ Stmt.partsList elseBody
  | .forEach _ value body => value.parts ++ Stmt.partsList body
  | .loop c body => c.parts ++ Stmt.partsList body
  | .ret _ value => value.parts
termination_by structural s => s

/-- The parts of some statements. -/
def Stmt.partsList : List Stmt → List Part
  | [] => []
  | s :: ss => s.parts ++ Stmt.partsList ss
termination_by structural ss => ss

end

/-- The parts of a global variable. -/
def Field.parts (f : Field) : List Part := Expr.optionalParts f.value ++ [.field f]

/-- The parts of a method. -/
def Method.parts (m : Method) : List Part := Stmt.partsList m.body ++ [.method m]

/-- The parts of a program. -/
def Source.parts (s : Source) : List Part :=
  s.fields.flatMap Field.parts ++ s.methods.flatMap Method.parts

/-! ## Parts of composite expressions -/

namespace Expr

theorem subsList_eq_flatMap (es : List Expr) : subsList es = es.flatMap subs := by
  induction es with
  | nil => rfl
  | cons e es ih => rw [subsList, List.flatMap_cons, ih]

theorem map_subsList (es : List Expr) : (subsList es).map Part.expr = es.flatMap parts := by
  rw [subsList_eq_flatMap, List.map_flatMap]
  rfl

variable (n : Node)

theorem parts_group (e : Expr) : (group n e).parts = e.parts ++ [.expr (group n e)] := by
  simp [parts, subs]

theorem parts_binary (o : BinaryOperator) (l r : Expr) :
    (binary n o l r).parts = l.parts ++ r.parts ++ [.expr (binary n o l r)] := by
  simp [parts, subs]

theorem parts_field (e : Expr) (x : String) :
    (field n e x).parts = e.parts ++ [.expr (field n e x)] := by
  simp [parts, subs]

theorem parts_call (f : String) (es : List Expr) :
    (call n f es).parts = es.flatMap parts ++ [.expr (call n f es)] := by
  simp [parts, subs, ← map_subsList]

theorem parts_methodCall (e : Expr) (f : String) (es : List Expr) :
    (methodCall n e f es).parts =
      e.parts ++ es.flatMap parts ++ [.expr (methodCall n e f es)] := by
  simp [parts, subs, ← map_subsList]

/-- The parts of an expression are those of its children and itself. -/
theorem parts_eq (e : Expr) : e.parts = e.children.flatMap parts ++ [.expr e] := by
  cases e <;> simp [children, parts_group, parts_binary, parts_field, parts_call, parts_methodCall]
    <;> rfl

end Expr

/-! ## Expressions inside expressions -/

theorem Expr.self_mem_subs (e : Expr) : e ∈ e.subs := by
  cases e <;> simp [Expr.subs]

theorem Expr.subs_subset_subsList {e : Expr} {es : List Expr} (h : e ∈ es) :
    e.subs ⊆ Expr.subsList es := by
  induction es with
  | nil => simp at h
  | cons e' es ih =>
    intro x hx
    simp only [Expr.subsList, List.mem_append]
    rcases List.mem_cons.1 h with rfl | h
    · exact Or.inl hx
    · exact Or.inr (ih h hx)

theorem Expr.mem_subsList {x : Expr} {es : List Expr} (h : x ∈ Expr.subsList es) :
    ∃ e ∈ es, x ∈ e.subs := by
  induction es with
  | nil => simp [Expr.subsList] at h
  | cons e es ih =>
    simp only [Expr.subsList, List.mem_append] at h
    rcases h with h | h
    · exact ⟨e, by simp, h⟩
    · obtain ⟨e', he', hx⟩ := ih h
      exact ⟨e', by simp [he'], hx⟩

mutual

/-- What is inside a part of an expression is inside the expression. -/
theorem Expr.subs_subset : (e : Expr) → ∀ x ∈ e.subs, x.subs ⊆ e.subs
  | .literal n v => by simp [Expr.subs]
  | .group n e => by
    have he := Expr.subs_subset e
    simp only [Expr.subs, List.forall_mem_append, List.forall_mem_singleton]
    exact ⟨fun x hx => List.subset_append_of_subset_left _ (he x hx), List.Subset.refl _⟩
  | .binary n o l r => by
    have hl := Expr.subs_subset l
    have hr := Expr.subs_subset r
    simp only [Expr.subs, List.forall_mem_append, List.forall_mem_singleton]
    refine ⟨⟨fun x hx => ?_, fun x hx => ?_⟩, List.Subset.refl _⟩
    · exact List.subset_append_of_subset_left _ (List.subset_append_of_subset_left _ (hl x hx))
    · exact List.subset_append_of_subset_left _ (List.subset_append_of_subset_right _ (hr x hx))
  | .var n x => by simp [Expr.subs]
  | .field n e x => by
    have he := Expr.subs_subset e
    simp only [Expr.subs, List.forall_mem_append, List.forall_mem_singleton]
    exact ⟨fun x hx => List.subset_append_of_subset_left _ (he x hx), List.Subset.refl _⟩
  | .call n f es => by
    have hes := Expr.subsList_subset es
    simp only [Expr.subs, List.forall_mem_append, List.forall_mem_singleton]
    exact ⟨fun x hx => List.subset_append_of_subset_left _ (hes x hx), List.Subset.refl _⟩
  | .methodCall n e f es => by
    have he := Expr.subs_subset e
    have hes := Expr.subsList_subset es
    simp only [Expr.subs, List.forall_mem_append, List.forall_mem_singleton]
    refine ⟨⟨fun x hx => ?_, fun x hx => ?_⟩, List.Subset.refl _⟩
    · exact List.subset_append_of_subset_left _ (List.subset_append_of_subset_left _ (he x hx))
    · exact List.subset_append_of_subset_left _ (List.subset_append_of_subset_right _ (hes x hx))
termination_by structural e => e

/-- The same of some expressions. -/
theorem Expr.subsList_subset : (es : List Expr) → ∀ x ∈ subsList es, x.subs ⊆ subsList es
  | [] => by simp [Expr.subsList]
  | e :: es => by
    have he := Expr.subs_subset e
    have hes := Expr.subsList_subset es
    simp only [Expr.subsList, List.forall_mem_append]
    exact ⟨fun x hx => List.subset_append_of_subset_left _ (he x hx),
      fun x hx => List.subset_append_of_subset_right _ (hes x hx)⟩
termination_by structural es => es

end

end TinyScript
