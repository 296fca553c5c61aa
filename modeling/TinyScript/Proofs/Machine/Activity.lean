import Mathlib.Logic.Relation
import TinyScript.Proofs.Machine.Step

/-
  What happens during a run.

  A run is a tree of activities: evaluating an expression, binding a variable,
  calling a function, executing a statement, a round of a loop.  Each has a machine
  it starts on, and starts further activities, the later ones on the machine that
  the earlier ones leave.

  * `Activity`: a task with the fuel and the machine it starts with;
  * `Starts`: an activity starts another one directly;
  * `During`: an activity happens in the course of another;
  * `Raises`: an activity fails, or does not end, by itself and not because of one that it has
    started;
  * `wellFounded_starts`: no activity starts others for ever.
-/

namespace TinyScript

/-- Something that the machine does. -/
inductive Task where
  /-- Evaluates an expression. -/
  | expr (e : Expr)
  /-- Evaluates an expression to a truth value. -/
  | condition (e : Expr)
  /-- Evaluates arguments. -/
  | exprs (es : List Expr)
  /-- Calls a function found in the scope `closure`. -/
  | call (callable : Callable) (closure : RunScope) (arguments : List Value)
  /-- Runs the body of a native function or method. -/
  | native (body : Native Value)
  /-- Defines a variable. -/
  | define (name : String) (value : Value)
  /-- Binds parameters to arguments. -/
  | parameters (ps : List Parameter) (vs : List Value)
  /-- Executes a statement. -/
  | stmt (s : Stmt)
  /-- Executes statements. -/
  | stmts (ss : List Stmt)
  /-- Executes the body of a loop for `n` integers from `i` on. -/
  | rounds (name : String) (body : List Stmt) (n : Nat) (i : Int)
  /-- Executes the body of a conditional loop at most `n` times. -/
  | loop (condition : Expr) (body : List Stmt) (n : Nat)
  /-- Defines global variables. -/
  | fields (fs : List Field)
  /-- Defines a method. -/
  | method (d : Method)
  /-- Defines methods. -/
  | methods (ds : List Method)
  /-- Runs a program. -/
  | source (s : Source)

/-- The computation of a task, its result left out. -/
def Task.run (r : Registry) (fuel : Nat) : Task → Eval Unit
  | expr e => discard (Eval.expr r (Eval.invoke r fuel) e)
  | condition e => discard (Eval.boolean (Eval.expr r (Eval.invoke r fuel) e))
  | exprs es => discard (Eval.exprs r (Eval.invoke r fuel) es)
  | call callable closure arguments => discard (Eval.invoke r fuel callable closure arguments)
  | native body => discard (Eval.native body)
  | define name value => Eval.define name value
  | parameters ps vs => Eval.defineParameters ps vs
  | stmt s => discard (Eval.stmt r (Eval.invoke r fuel) fuel s)
  | stmts ss => discard (Eval.stmts r (Eval.invoke r fuel) fuel ss)
  | rounds name body n i => discard <| Eval.forEach (fun i => Eval.inChild do
      Eval.define name (.integer i)
      Eval.stmts r (Eval.invoke r fuel) fuel body) n i
  | loop e body n => discard <|
      Eval.loop (Eval.boolean (Eval.expr r (Eval.invoke r fuel) e))
        (Eval.inChild (Eval.stmts r (Eval.invoke r fuel) fuel body)) n
  | fields fs => Eval.defineFields r fuel fs
  | method d => Eval.defineMethod d
  | methods ds => ds.forM Eval.defineMethod
  | source s => discard (Eval.source r fuel s)

/-- A task, with the fuel and the machine it starts with. -/
structure Activity where
  /-- The fuel. -/
  fuel : Nat
  /-- The task. -/
  task : Task
  /-- The machine at the start. -/
  machine : Machine

/-- The activity has no result. -/
def Activity.Stops (r : Registry) (c : Activity) (e : Stop) : Prop :=
  ∃ m, c.task.run r c.fuel c.machine = .error e m

/-- The activity fails with an error. -/
def Activity.Fails (r : Registry) (c : Activity) (e : RuntimeError) : Prop :=
  c.Stops r (.error e)

section
variable (r : Registry)

open Eval (invoke)

/-- An activity starts another one. -/
inductive Starts : Activity → Activity → Prop
  -- expressions
  | inner {F m n e} : Starts ⟨F, .expr (.group n e), m⟩ ⟨F, .expr e, m⟩
  | logicalLeft {F m n o left right} : o = .and ∨ o = .or →
      Starts ⟨F, .expr (.binary n o left right), m⟩ ⟨F, .condition left, m⟩
  | logicalRight {F m m₁ n o left right} : o = .and ∨ o = .or →
      Eval.expr r (invoke r F) left m = .ok (.boolean (decide (o = .and))) m₁ →
      Starts ⟨F, .expr (.binary n o left right), m⟩ ⟨F, .condition right, m₁⟩
  | left {F m n o left right} : ¬(o = .and ∨ o = .or) →
      Starts ⟨F, .expr (.binary n o left right), m⟩ ⟨F, .expr left, m⟩
  | right {F m m₁ n o left right v} : ¬(o = .and ∨ o = .or) →
      Eval.expr r (invoke r F) left m = .ok v m₁ →
      Starts ⟨F, .expr (.binary n o left right), m⟩ ⟨F, .expr right, m₁⟩
  | fieldOwner {F m n e x} : Starts ⟨F, .expr (.field n e x), m⟩ ⟨F, .expr e, m⟩
  | arguments {F m n f es} : Starts ⟨F, .expr (.call n f es), m⟩ ⟨F, .exprs es, m⟩
  | callee {F m m₁ n f es vs callable S} : Eval.exprs r (invoke r F) es m = .ok vs m₁ →
      m₁.scope.findFunction? f vs.length = some (callable, S) →
      Starts ⟨F, .expr (.call n f es), m⟩ ⟨F, .call callable S vs, m₁⟩
  | methodOwner {F m n e f es} : Starts ⟨F, .expr (.methodCall n e f es), m⟩ ⟨F, .expr e, m⟩
  | methodArguments {F m m₁ n e f es v} : Eval.expr r (invoke r F) e m = .ok v m₁ →
      Starts ⟨F, .expr (.methodCall n e f es), m⟩ ⟨F, .exprs es, m₁⟩
  | methodBody {F m m₁ m₂ n e f es ref vs} {g : NativeFunction} :
      Eval.expr r (invoke r F) e m = .ok (.object ref) m₁ →
      Eval.exprs r (invoke r F) es m₁ = .ok vs m₂ →
      (r.describe ref.type).method? f vs.length = some g →
      Starts ⟨F, .expr (.methodCall n e f es), m⟩ ⟨F, .native (g.body (.object ref :: vs)), m₂⟩
  | condition {F m e} : Starts ⟨F, .condition e, m⟩ ⟨F, .expr e, m⟩
  | argument {F m e es} : Starts ⟨F, .exprs (e :: es), m⟩ ⟨F, .expr e, m⟩
  | otherArguments {F m m₁ e es v} : Eval.expr r (invoke r F) e m = .ok v m₁ →
      Starts ⟨F, .exprs (e :: es), m⟩ ⟨F, .exprs es, m₁⟩
  -- calls
  | nativeBody {F m} {g : NativeFunction} {S vs} : vs.length = g.signature.arity →
      Starts ⟨F, .call (.native g) S vs, m⟩ ⟨F, .native (g.body vs), m⟩
  | parameters {F m} {d : Method} {S vs} : vs.length = d.arity → m.depth ≠ callLimit →
      Starts ⟨F + 1, .call (.declared d) S vs, m⟩
        ⟨F, .parameters d.parameters vs, { m with scope := S.child, depth := m.depth + 1 }⟩
  | body {F m m₁} {d : Method} {S vs} : vs.length = d.arity → m.depth ≠ callLimit →
      Eval.defineParameters d.parameters vs { m with scope := S.child, depth := m.depth + 1 } =
        .ok () m₁ →
      Starts ⟨F + 1, .call (.declared d) S vs, m⟩ ⟨F, .stmts d.body, m₁⟩
  | parameter {F m} {p : Parameter} {ps v vs} :
      Starts ⟨F, .parameters (p :: ps) (v :: vs), m⟩ ⟨F, .define p.name v, m⟩
  | otherParameters {F m} {p : Parameter} {ps v vs} :
      Starts ⟨F, .parameters (p :: ps) (v :: vs), m⟩ ⟨F, .parameters ps vs, m.define p.name v⟩
  -- statements
  | expression {F m e} : Starts ⟨F, .stmt (.expression e), m⟩ ⟨F, .expr e, m⟩
  | initialValue {F m d e} : d.value = some e → Starts ⟨F, .stmt (.declare d), m⟩ ⟨F, .expr e, m⟩
  | declared {F m m₁ d v} : Eval.optionalExpr r (invoke r F) d.value m = .ok v m₁ →
      Starts ⟨F, .stmt (.declare d), m⟩ ⟨F, .define d.name v, m₁⟩
  | assigned {F m n x e c} : m.cell? x = some c →
      Starts ⟨F, .stmt (.assign (.var n x) e), m⟩ ⟨F, .expr e, m⟩
  | assignedOwner {F m n o x e} : Starts ⟨F, .stmt (.assign (.field n o x) e), m⟩ ⟨F, .expr o, m⟩
  | assignedField {F m m₁ n o x e v} : Eval.expr r (invoke r F) o m = .ok v m₁ →
      Starts ⟨F, .stmt (.assign (.field n o x) e), m⟩ ⟨F, .expr e, m₁⟩
  | choice {F m e ss ss'} : Starts ⟨F, .stmt (.branch e ss ss'), m⟩ ⟨F, .condition e, m⟩
  | chosen {F m m₁ e ss ss' b} : Eval.expr r (invoke r F) e m = .ok (.boolean b) m₁ →
      Starts ⟨F, .stmt (.branch e ss ss'), m⟩
        ⟨F, .stmts (if b then ss else ss'), { m₁ with scope := m₁.scope.child }⟩
  | iterable {F m x e ss} : Starts ⟨F, .stmt (.forEach x e ss), m⟩ ⟨F, .expr e, m⟩
  | rounds {F m m₁ x e ss g} : Eval.expr r (invoke r F) e m = .ok (.range g) m₁ →
      Starts ⟨F, .stmt (.forEach x e ss), m⟩ ⟨F, .rounds x ss g.size g.start, m₁⟩
  | loop {F m e ss} : Starts ⟨F, .stmt (.loop e ss), m⟩ ⟨F, .loop e ss F, m⟩
  | returned {F m offset e} : Starts ⟨F, .stmt (.ret offset e), m⟩ ⟨F, .expr e, m⟩
  | statement {F m s ss} : Starts ⟨F, .stmts (s :: ss), m⟩ ⟨F, .stmt s, m⟩
  | otherStatements {F m m₁ s ss} : Eval.stmt r (invoke r F) F s m = .ok .normal m₁ →
      Starts ⟨F, .stmts (s :: ss), m⟩ ⟨F, .stmts ss, m₁⟩
  -- loops
  | roundVariable {F m x ss n i} : Starts ⟨F, .rounds x ss (n + 1) i, m⟩
      ⟨F, .define x (.integer i), { m with scope := m.scope.child }⟩
  | round {F m x ss n i} : Starts ⟨F, .rounds x ss (n + 1) i, m⟩
      ⟨F, .stmts ss, ({ m with scope := m.scope.child } : Machine).define x (.integer i)⟩
  | otherRounds {F m m₁ x ss n i} :
      Eval.stmts r (invoke r F) F ss
        (({ m with scope := m.scope.child } : Machine).define x (.integer i)) = .ok .normal m₁ →
      Starts ⟨F, .rounds x ss (n + 1) i, m⟩
        ⟨F, .rounds x ss n (i + 1), { m₁ with scope := m.scope }⟩
  | loopCondition {F m e ss n} : Starts ⟨F, .loop e ss (n + 1), m⟩ ⟨F, .condition e, m⟩
  | loopBody {F m m₁ e ss n} : Eval.expr r (invoke r F) e m = .ok (.boolean true) m₁ →
      Starts ⟨F, .loop e ss (n + 1), m⟩ ⟨F, .stmts ss, { m₁ with scope := m₁.scope.child }⟩
  | loopAgain {F m m₁ m₂ e ss n} : Eval.expr r (invoke r F) e m = .ok (.boolean true) m₁ →
      Eval.stmts r (invoke r F) F ss { m₁ with scope := m₁.scope.child } = .ok .normal m₂ →
      Starts ⟨F, .loop e ss (n + 1), m⟩ ⟨F, .loop e ss n, { m₂ with scope := m₁.scope }⟩
  -- programs
  | fieldValue {F m} {f : Field} {fs e} : f.value = some e →
      Starts ⟨F, .fields (f :: fs), m⟩ ⟨F, .expr e, m⟩
  | field {F m m₁} {f : Field} {fs v} : Eval.optionalExpr r (invoke r F) f.value m = .ok v m₁ →
      Starts ⟨F, .fields (f :: fs), m⟩ ⟨F, .define f.name v, m₁⟩
  | otherFields {F m m₁} {f : Field} {fs v} :
      Eval.optionalExpr r (invoke r F) f.value m = .ok v m₁ →
      Starts ⟨F, .fields (f :: fs), m⟩ ⟨F, .fields fs, m₁.define f.name v⟩
  | method {F m d ds} : Starts ⟨F, .methods (d :: ds), m⟩ ⟨F, .method d, m⟩
  | otherMethods {F m d ds} : Starts ⟨F, .methods (d :: ds), m⟩ ⟨F, .methods ds,
      { m with scope := m.scope.defineFunction d.name d.arity (.declared d) }⟩
  | sourceFields {F m} {s : Source} : Starts ⟨F, .source s, m⟩
      ⟨F, .fields s.fields, { m with scope := m.scope.child }⟩
  | sourceMethods {F m m₁} {s : Source} :
      Eval.defineFields r F s.fields { m with scope := m.scope.child } = .ok () m₁ →
      Starts ⟨F, .source s, m⟩ ⟨F, .methods s.methods, m₁⟩
  | main {F m m₁ m₂} {s : Source} {callable S} :
      Eval.defineFields r F s.fields { m with scope := m.scope.child } = .ok () m₁ →
      s.methods.forM Eval.defineMethod m₁ = .ok () m₂ →
      m₂.scope.findFunction? "main" 0 = some (callable, S) →
      Starts ⟨F, .source s, m⟩ ⟨F, .call callable S [], m₂⟩

/-- An activity happens in the course of another one. -/
def During : Activity → Activity → Prop := Relation.ReflTransGen (Starts r)

/-- An activity fails, or does not end, by itself. -/
inductive Raises : Activity → Stop → Prop
  | lookup {F m n x} : m.cell? x = none →
      Raises ⟨F, .expr (.var n x), m⟩ (.error (.unknownVariable x))
  | operator {F m m₁ m₂ n o left right u v e} : ¬(o = .and ∨ o = .or) →
      Eval.expr r (invoke r F) left m = .ok u m₁ → Eval.expr r (invoke r F) right m₁ = .ok v m₂ →
      m₂.world.binary o u v = .error e → Raises ⟨F, .expr (.binary n o left right), m⟩ e
  | condition {F m m₁ c v e} : Eval.expr r (invoke r F) c m = .ok v m₁ → v.asBoolean = .error e →
      Raises ⟨F, .condition c, m⟩ (.error e)
  | fieldOwner {F m m₁ n o x v e} : Eval.expr r (invoke r F) o m = .ok v m₁ →
      v.asObject = .error e → Raises ⟨F, .expr (.field n o x), m⟩ (.error e)
  | field {F m m₁ n o x ref e} : Eval.expr r (invoke r F) o m = .ok (.object ref) m₁ →
      m₁.world.field ref x = .error e → Raises ⟨F, .expr (.field n o x), m⟩ (.error e)
  | function {F m m₁ n f es vs} : Eval.exprs r (invoke r F) es m = .ok vs m₁ →
      m₁.scope.findFunction? f vs.length = none →
      Raises ⟨F, .expr (.call n f es), m⟩ (.error (.unknownFunction f vs.length))
  | methodOwner {F m m₁ m₂ n o f es v vs e} : Eval.expr r (invoke r F) o m = .ok v m₁ →
      Eval.exprs r (invoke r F) es m₁ = .ok vs m₂ → v.asObject = .error e →
      Raises ⟨F, .expr (.methodCall n o f es), m⟩ (.error e)
  | method {F m m₁ m₂ n o f es ref vs} : Eval.expr r (invoke r F) o m = .ok (.object ref) m₁ →
      Eval.exprs r (invoke r F) es m₁ = .ok vs m₂ →
      (r.describe ref.type).method? f vs.length = none →
      Raises ⟨F, .expr (.methodCall n o f es), m⟩
        (.error (.unknownMethod ref.type.name f vs.length))
  | arity {F m} {callable : Callable} {S vs} : vs.length ≠ callable.arity →
      Raises ⟨F, .call callable S vs, m⟩
        (.error (.argumentCountMismatch callable.name callable.arity vs.length))
  | depth {F m d S vs} : m.depth = callLimit →
      Raises ⟨F, .call (.declared d) S vs, m⟩ (.error (.callDepthExceeded callLimit))
  | calls {m} {d : Method} {S vs} : vs.length = d.arity → m.depth ≠ callLimit →
      Raises ⟨0, .call (.declared d) S vs, m⟩ .outOfFuel
  | native {F m} {body : Native Value} {w e} : body m.world = .error e w →
      Raises ⟨F, .native body, m⟩ e
  | assigned {F m n x e} : m.cell? x = none →
      Raises ⟨F, .stmt (.assign (.var n x) e), m⟩ (.error (.unknownVariable x))
  | assignedReceiver {F m} {receiver value : Expr} : receiver.isAccess = false →
      Raises ⟨F, .stmt (.assign receiver value), m⟩ (.error .invalidAssignmentReceiver)
  | assignedOwner {F m m₁ m₂ n o x value u v e} : Eval.expr r (invoke r F) o m = .ok u m₁ →
      Eval.expr r (invoke r F) value m₁ = .ok v m₂ → u.asObject = .error e →
      Raises ⟨F, .stmt (.assign (.field n o x) value), m⟩ (.error e)
  | assignedField {F m m₁ m₂ n o x value ref v e} :
      Eval.expr r (invoke r F) o m = .ok (.object ref) m₁ →
      Eval.expr r (invoke r F) value m₁ = .ok v m₂ → m₂.world.setField ref x v = .error e →
      Raises ⟨F, .stmt (.assign (.field n o x) value), m⟩ (.error e)
  | iterable {F m m₁ x c ss v e} : Eval.expr r (invoke r F) c m = .ok v m₁ → v.asRange = .error e →
      Raises ⟨F, .stmt (.forEach x c ss), m⟩ (.error e)
  | rounds {F m c ss} : Raises ⟨F, .loop c ss 0, m⟩ .outOfFuel
  | main {F m m₁ m₂} {s : Source} :
      Eval.defineFields r F s.fields { m with scope := m.scope.child } = .ok () m₁ →
      s.methods.forM Eval.defineMethod m₁ = .ok () m₂ → m₂.scope.findFunction? "main" 0 = none →
      Raises ⟨F, .source s, m⟩ (.error (.unknownFunction "main" 0))

end

/-! ## Activities end -/

/-- A bound on the activities that a task starts with the same fuel. -/
noncomputable def Task.weight : Task → Nat
  | expr e => 4 * sizeOf e
  | condition e => 4 * sizeOf e + 1
  | exprs es => 4 * sizeOf es
  | call .. => 1
  | native _ | define _ _ | method _ => 0
  | parameters ps _ => ps.length + 1
  | stmt s => 4 * sizeOf s
  | stmts ss => 4 * sizeOf ss
  | rounds _ body _ _ => 4 * sizeOf body + 1
  | loop e body _ => 4 * (sizeOf e + sizeOf body) + 2
  | fields fs => 4 * sizeOf fs
  | methods ds => ds.length + 1
  | source s => 4 * sizeOf s.fields + s.methods.length + 2

/-- The number of rounds that a loop may still make. -/
def Task.count : Task → Nat
  | rounds _ _ n _ | loop _ _ n => n
  | _ => 0

/-- An activity starts only activities with less fuel, smaller ones, or the further
    rounds of its loop. -/
theorem Starts.decreases {r : Registry} {c c' : Activity} (h : Starts r c c') :
    c'.fuel < c.fuel ∨ c'.fuel = c.fuel ∧
      (c'.task.weight < c.task.weight ∨
        c'.task.weight = c.task.weight ∧ c'.task.count < c.task.count) := by
  cases h
  case initialValue d e hv =>
    obtain ⟨_, _, _, _⟩ := d
    subst hv
    refine Or.inr ⟨rfl, Or.inl ?_⟩
    simp only [Task.weight, Stmt.declare.sizeOf_spec, Declaration.mk.sizeOf_spec,
      Option.some.sizeOf_spec]
    omega
  case fieldValue f fs e hv =>
    obtain ⟨_, _, _, _⟩ := f
    subst hv
    refine Or.inr ⟨rfl, Or.inl ?_⟩
    simp only [Task.weight, List.cons.sizeOf_spec, Field.mk.sizeOf_spec, Option.some.sizeOf_spec]
    omega
  case chosen e ss ss' b _ =>
    refine Or.inr ⟨rfl, Or.inl ?_⟩
    cases b with
    | true =>
      simp only [Task.weight, ↓reduceIte, Stmt.branch.sizeOf_spec]
      omega
    | false =>
      simp only [Task.weight, Bool.false_eq_true, ↓reduceIte, Stmt.branch.sizeOf_spec]
      omega
  all_goals
    simp [Task.weight, Task.count]
    try omega

/-- No activity starts others for ever. -/
theorem wellFounded_starts (r : Registry) : WellFounded fun c' c => Starts r c c' := by
  have hwf := (Prod.lex Nat.lt_wfRel (Prod.lex Nat.lt_wfRel Nat.lt_wfRel)).wf
  refine Subrelation.wf (fun {c' c} h => ?_)
    (InvImage.wf (fun c : Activity => (c.fuel, c.task.weight, c.task.count)) hwf)
  refine Prod.lex_def.2 (h.decreases.imp_right fun ⟨hfuel, hrest⟩ => ⟨hfuel, ?_⟩)
  exact Prod.lex_def.2 hrest

end TinyScript
