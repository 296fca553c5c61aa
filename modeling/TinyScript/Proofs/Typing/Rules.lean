import Mathlib.Data.List.Forall2
import TinyScript.Proofs.Tree.Parts
import TinyScript.Typing.Source

/-
  The typing and scoping rules, read from recorded facts.

  * `Expr.Obeys`, `Stmt.Obeys`, `Field.Obeys`, `Method.Obeys`: the facts recorded
    at one node fit the facts recorded at its children;
  * `Expr.Resolves`: the name at a node is bound to what the scope says;
  * `Stmt.Scoped`, `Fields.Scoped`, `Methods.Scoped`: a tree obeys all rules in a
    scope, and leads to another scope;
  * `Source.Checked`: the same of a whole program.

  None of these mentions the state of analysis: they relate the tree, the table of
  facts and scopes only.
-/

namespace TinyScript

/-- The type of a literal. -/
def Literal.type : Literal → Ty
  | .nil => .nil
  | .boolean _ => .boolean
  | .integer _ => .integer
  | .decimal _ => .decimal
  | .character _ => .character
  | .string _ => .string

/-- The type of a binary operation with operands of two given types. -/
inductive BinaryRule : BinaryOperator → Ty → Ty → Ty → Prop
  | logical {o : BinaryOperator} : o = .and ∨ o = .or → BinaryRule o .boolean .boolean .boolean
  | comparison {o : BinaryOperator} {t : Ty} : o.isComparison = true → t.isComparable = true →
      BinaryRule o t t .boolean
  | concatenation {s t : Ty} : s = .string ∨ t = .string → BinaryRule .add s t .string
  | arithmetic {o : BinaryOperator} {t : Ty} : o ∈ [.add, .sub, .mul, .div] →
      t = .integer ∨ t = .decimal → BinaryRule o t t t

/-- The recorded type of the expression may stand where `t` is expected. -/
def Analysis.Accepts (a : Analysis) (t : Ty) (e : Expr) : Prop :=
  ∃ s, a.types[e.id]? = some s ∧ t.accepts s = true

/-- The facts recorded at an expression fit those recorded at its children. -/
def Expr.Obeys (r : Registry) (a : Analysis) : Expr → Prop
  | .literal n value => a.types[n.id]? = some value.type
  | .group n inner =>
    inner.isBinary = true ∧ ∃ t, a.types[inner.id]? = some t ∧ a.types[n.id]? = some t
  | .binary n o left right =>
    ∃ s t u, a.types[left.id]? = some s ∧ a.types[right.id]? = some t ∧ BinaryRule o s t u ∧
      a.types[n.id]? = some u
  | .var n x => ∃ t, a.bindings[n.id]? = some (.var x t) ∧ a.types[n.id]? = some t
  | .field n receiver x =>
    ∃ owner t, a.types[receiver.id]? = some (.object owner) ∧
      (r.describe owner).fieldType? x = some t ∧
      a.bindings[n.id]? = some (.field (.object owner) x t) ∧ a.types[n.id]? = some t
  | .call n f es =>
    ∃ signature : Signature, signature.name = f ∧
      a.bindings[n.id]? = some (.function signature) ∧
      List.Forall₂ a.Accepts signature.parameters es ∧ a.types[n.id]? = some signature.result
  | .methodCall n receiver f es =>
    ∃ owner method, a.types[receiver.id]? = some (.object owner) ∧
      (r.describe owner).method? f es.length = some method ∧
      a.bindings[n.id]? = some (.method (.object owner) method.signature) ∧
      List.Forall₂ a.Accepts method.signature.parameters es ∧
      a.types[n.id]? = some method.signature.result

/-- The name at an expression is bound to what it stands for in the scope. -/
def Expr.Resolves (a : Analysis) (Γ : Scope Ty Signature) : Expr → Prop
  | .var n x => ∃ t, Γ.lookup? x = some t ∧ a.bindings[n.id]? = some (.var x t)
  | .call n f es =>
    ∃ signature, Γ.function? f es.length = some signature ∧
      a.bindings[n.id]? = some (.function signature)
  | _ => True

/-- The expression and all expressions in it obey the rules in the scope. -/
def Expr.Sound (r : Registry) (a : Analysis) (Γ : Scope Ty Signature) (e : Expr) : Prop :=
  ∀ e' ∈ e.subs, e'.Obeys r a ∧ e'.Resolves a Γ

namespace Expr.Sound

variable {r : Registry} {a : Analysis} {Γ : Scope Ty Signature} {n : Node}

theorem obeys {e : Expr} (h : e.Sound r a Γ) : e.Obeys r a := (h e e.self_mem_subs).1

theorem resolves {e : Expr} (h : e.Sound r a Γ) : e.Resolves a Γ := (h e e.self_mem_subs).2

theorem group {e : Expr} (h : (Expr.group n e).Sound r a Γ) : e.Sound r a Γ :=
  fun x hx => h x (by simp [Expr.subs, hx])

theorem left {o : BinaryOperator} {e e' : Expr} (h : (Expr.binary n o e e').Sound r a Γ) :
    e.Sound r a Γ :=
  fun x hx => h x (by simp [Expr.subs, hx])

theorem right {o : BinaryOperator} {e e' : Expr} (h : (Expr.binary n o e e').Sound r a Γ) :
    e'.Sound r a Γ :=
  fun x hx => h x (by simp [Expr.subs, hx])

theorem fieldOwner {e : Expr} {x : String} (h : (Expr.field n e x).Sound r a Γ) : e.Sound r a Γ :=
  fun x hx => h x (by simp [Expr.subs, hx])

theorem arguments {f : String} {es : List Expr} (h : (Expr.call n f es).Sound r a Γ) :
    ∀ e ∈ es, e.Sound r a Γ :=
  fun e he x hx => h x (by simp [Expr.subs, Expr.subs_subset_subsList he hx])

theorem methodOwner {e : Expr} {f : String} {es : List Expr}
    (h : (Expr.methodCall n e f es).Sound r a Γ) : e.Sound r a Γ :=
  fun x hx => h x (by simp [Expr.subs, hx])

theorem methodArguments {e : Expr} {f : String} {es : List Expr}
    (h : (Expr.methodCall n e f es).Sound r a Γ) : ∀ e ∈ es, e.Sound r a Γ :=
  fun e he x hx => h x (by simp [Expr.subs, Expr.subs_subset_subsList he hx])

end Expr.Sound

/-- The type of a declared variable is the one that its annotation means, and
    accepts its initial value; without annotation it is that of the value. -/
def DeclarationRule (r : Registry) (a : Analysis) (typeName : Option String)
    (value : Option Expr) (t : Ty) : Prop :=
  match typeName with
  | some name => r.resolve? name = some t ∧ t.isCapability = false ∧ ∀ e ∈ value, a.Accepts t e
  | none => ∃ e, value = some e ∧ a.types[e.id]? = some t

/-- The facts recorded at a statement fit those recorded at its expressions, in a
    method with the given result type. -/
def Stmt.Obeys (r : Registry) (a : Analysis) (result : Ty) : Stmt → Prop
  | .expression e => e.isCall = true
  | .declare d =>
    ∃ t, a.declarations[d.node.id]? = some t ∧ DeclarationRule r a d.typeName d.value t
  | .assign receiver value =>
    receiver.isAccess = true ∧ ∃ t, a.types[receiver.id]? = some t ∧ a.Accepts t value
  | .branch c thenBody _ => a.types[c.id]? = some .boolean ∧ thenBody ≠ []
  | .forEach _ value _ => a.types[value.id]? = some .integerIterable
  | .loop c _ => a.types[c.id]? = some .boolean
  | .ret _ value => a.Accepts result value

/-- The facts recorded at a global variable fit those recorded at its value. -/
def Field.Obeys (r : Registry) (a : Analysis) (f : Field) : Prop :=
  ∃ t, a.declarations[f.node.id]? = some t ∧ DeclarationRule r a (some f.typeName) f.value t

/-- The type of a parameter: the one that its annotation means, or any. -/
def Parameter.HasType (r : Registry) (p : Parameter) (t : Ty) : Prop :=
  match p.typeName with
  | some name => r.resolve? name = some t
  | none => t = .any

/-- The result type of a method: the one that its annotation means, or none. -/
def Method.HasResult (r : Registry) (m : Method) (t : Ty) : Prop :=
  match m.resultName with
  | some name => r.resolve? name = some t ∧ t.isCapability = false
  | none => t = .nil

/-- The signature recorded at a method is the declared one. -/
def Method.Obeys (r : Registry) (a : Analysis) (m : Method) (signature : Signature) : Prop :=
  a.signatures[m.node.id]? = some signature ∧ signature.name = m.name ∧
    List.Forall₂ (Parameter.HasType r) m.parameters signature.parameters ∧
    m.HasResult r signature.result

/-! ## Scopes -/

mutual

/-- A statement obeys the rules in a scope and leads to another one. -/
inductive Stmt.Scoped (r : Registry) (a : Analysis) (result : Ty) :
    Scope Ty Signature → Stmt → Scope Ty Signature → Prop
  | expression {Γ e} : (Stmt.expression e).Obeys r a result → e.Sound r a Γ →
      Stmt.Scoped r a result Γ (.expression e) Γ
  | declare {Γ d t} : (Stmt.declare d).Obeys r a result → (∀ e ∈ d.value, e.Sound r a Γ) →
      a.declarations[d.node.id]? = some t → Γ.hasLocalVariable d.name = false →
      Stmt.Scoped r a result Γ (.declare d) (Γ.defineVariable d.name t)
  | assign {Γ receiver value} : (Stmt.assign receiver value).Obeys r a result →
      receiver.Sound r a Γ → value.Sound r a Γ →
      Stmt.Scoped r a result Γ (.assign receiver value) Γ
  | branch {Γ Γ₁ Γ₂ c thenBody elseBody} : (Stmt.branch c thenBody elseBody).Obeys r a result →
      c.Sound r a Γ → Stmts.Scoped r a result Γ.child thenBody Γ₁ →
      Stmts.Scoped r a result Γ.child elseBody Γ₂ →
      Stmt.Scoped r a result Γ (.branch c thenBody elseBody) Γ
  | forEach {Γ Γ' x value body} : (Stmt.forEach x value body).Obeys r a result →
      value.Sound r a Γ → Stmts.Scoped r a result (Γ.child.defineVariable x .integer) body Γ' →
      Stmt.Scoped r a result Γ (.forEach x value body) Γ
  | loop {Γ Γ' c body} : (Stmt.loop c body).Obeys r a result → c.Sound r a Γ →
      Stmts.Scoped r a result Γ.child body Γ' → Stmt.Scoped r a result Γ (.loop c body) Γ
  | ret {Γ offset value} : (Stmt.ret offset value).Obeys r a result → value.Sound r a Γ →
      Stmt.Scoped r a result Γ (.ret offset value) Γ

/-- Statements obey the rules one after the other. -/
inductive Stmts.Scoped (r : Registry) (a : Analysis) (result : Ty) :
    Scope Ty Signature → List Stmt → Scope Ty Signature → Prop
  | nil {Γ} : Stmts.Scoped r a result Γ [] Γ
  | cons {Γ Γ₁ Γ₂ s ss} : Stmt.Scoped r a result Γ s Γ₁ → Stmts.Scoped r a result Γ₁ ss Γ₂ →
      Stmts.Scoped r a result Γ (s :: ss) Γ₂

end

/-- Global variables obey the rules one after the other. -/
inductive Fields.Scoped (r : Registry) (a : Analysis) :
    Scope Ty Signature → List Field → Scope Ty Signature → Prop
  | nil {Γ} : Fields.Scoped r a Γ [] Γ
  | cons {Γ Γ' f fs t} : f.Obeys r a → (∀ e ∈ f.value, e.Sound r a Γ) →
      a.declarations[f.node.id]? = some t → Γ.hasLocalVariable f.name = false →
      Fields.Scoped r a (Γ.defineVariable f.name t) fs Γ' → Fields.Scoped r a Γ (f :: fs) Γ'

/-- Parameters of given types are bound one after the other. -/
inductive Parameters.Scoped :
    Scope Ty Signature → List Parameter → List Ty → Scope Ty Signature → Prop
  | nil {Γ} : Parameters.Scoped Γ [] [] Γ
  | cons {Γ Γ' p ps t ts} : Γ.hasLocalVariable p.name = false →
      Parameters.Scoped (Γ.defineVariable p.name t) ps ts Γ' →
      Parameters.Scoped Γ (p :: ps) (t :: ts) Γ'

/-- Methods are registered one after the other. -/
inductive Methods.Scoped (r : Registry) (a : Analysis) :
    Scope Ty Signature → List Method → Scope Ty Signature → Prop
  | nil {Γ} : Methods.Scoped r a Γ [] Γ
  | cons {Γ Γ' m ms signature} : m.Obeys r a signature →
      Γ.hasLocalFunction m.name m.arity = false →
      Methods.Scoped r a (Γ.defineFunction m.name m.arity signature) ms Γ' →
      Methods.Scoped r a Γ (m :: ms) Γ'

/-- The body of a method obeys the rules one level inside the scope. -/
def Method.Scoped (r : Registry) (a : Analysis) (Γ : Scope Ty Signature) (m : Method)
    (signature : Signature) : Prop :=
  ∃ Γ₁ Γ₂, Parameters.Scoped Γ.child m.parameters signature.parameters Γ₁ ∧
    Stmts.Scoped r a signature.result Γ₁ m.body Γ₂

/-- A program obeys all rules, on top of the functions of the host: first its global
    variables, then its methods, which lead to a scope that has a `main` and in
    which all bodies obey the rules. -/
def Source.Checked (r : Registry) (a : Analysis) (s : Source) : Prop :=
  ∃ Γ₁ Γ₂, Fields.Scoped r a (CheckState.ofRegistry r).scope.child s.fields Γ₁ ∧
    Methods.Scoped r a Γ₁ s.methods Γ₂ ∧
    (∃ main, Γ₂.function? "main" 0 = some main ∧ main.result = .integer) ∧
    ∀ m ∈ s.methods, ∃ signature, m.Obeys r a signature ∧ m.Scoped r a Γ₂ signature

end TinyScript
