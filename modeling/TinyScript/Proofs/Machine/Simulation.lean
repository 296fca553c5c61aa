import TinyScript.Proofs.Machine.Step
import TinyScript.Proofs.Relation
import TinyScript.Proofs.Typing.Calls

/-
  Two runs of one program.

  The machines of two runs may differ: in the places of their cells, in the fuel, in what
  the host provides.  When the elementary steps of the two runs correspond, evaluation and
  execution of every piece of syntax correspond, as long as it calls none but the functions
  whose calls do.

  * `Pairing`: what corresponds in two runs;
  * `Simulates`: the elementary steps of two runs correspond;
  * `Simulates.expr`, `Simulates.stmts`: so do evaluation and execution.
-/

namespace TinyScript

/-- What corresponds in two runs.  Values are the same in both, and some may be left out
    because they never occur. -/
structure Pairing where
  /-- The machines. -/
  machines : Machine → Machine → Prop
  /-- The cells of a variable. -/
  cells : Nat → Nat → Prop
  /-- The values that occur. -/
  values : Value → Prop

namespace Pairing

variable (p : Pairing)

/-- Two computations correspond: they stop for the same reason, or give corresponding results. -/
def Agree {α β : Type} (R : α → β → Prop) (x : Eval α) (y : Eval β) : Prop :=
  Relates Eq p.machines R x y

/-- Both runs have the same value. -/
def Same (v v' : Value) : Prop := v = v' ∧ p.values v

/-- Both runs have the same values. -/
def SameAll (vs vs' : List Value) : Prop := vs = vs' ∧ ∀ v ∈ vs, p.values v

/-- Statements have ended in the same way. -/
def SameCompletion (c c' : Completion) : Prop := c = c' ∧ p.values (Eval.result c)

variable {p}

/-- The same answer of a computation that does not touch the machine. -/
theorem agree_ofExcept {α : Type} {R : α → α → Prop} {x : Except RuntimeError α}
    (hR : ∀ a, x = .ok a → R a a) : p.Agree R (Eval.ofExcept x) (Eval.ofExcept x) := by
  cases x with
  | ok a => exact Relates.pure (hR a rfl)
  | error e => exact Relates.throw rfl

/-- The same answer of a computation that does not touch the machine and may never end. -/
theorem agree_lift {α : Type} {R : α → α → Prop} {x : Except Stop α}
    (hR : ∀ a, x = .ok a → R a a) :
    p.Agree R (MonadExcept.ofExcept x) (MonadExcept.ofExcept x) := by
  cases x with
  | ok a => exact Relates.pure (hR a rfl)
  | error e => exact Relates.throw rfl

/-- The same object, which is one that occurs if the value is. -/
theorem agree_asObject {v : Value} (hv : p.values v) :
    p.Agree (fun ref ref' => ref = ref' ∧ p.values (.object ref))
      (Eval.ofExcept v.asObject) (Eval.ofExcept v.asObject) :=
  agree_ofExcept fun _ href => ⟨rfl, Eval.asObject_eq_ok.1 href ▸ hv⟩

theorem agree_boolean {x y : Eval Value} (h : p.Agree p.Same x y) :
    p.Agree Eq (Eval.boolean x) (Eval.boolean y) := by
  refine Relates.bind h ?_
  rintro v _ ⟨rfl, -⟩
  exact agree_ofExcept fun _ _ => rfl

end Pairing

/-! ## Statements without conditional loops -/

mutual

/-- Whether a statement is no conditional loop and contains none. -/
def Stmt.loopFree : Stmt → Bool
  | .branch _ thenBody elseBody => loopFreeList thenBody && loopFreeList elseBody
  | .forEach _ _ body => loopFreeList body
  | .loop _ _ => false
  | .expression _ | .declare _ | .assign _ _ | .ret _ _ => true
termination_by structural s => s

/-- Whether statements are no conditional loops and contain none. -/
def Stmt.loopFreeList : List Stmt → Bool
  | [] => true
  | s :: ss => s.loopFree && loopFreeList ss
termination_by structural ss => ss

end

section

open Eval

/-- The elementary steps of two runs correspond, calls as far as they are calls of the
    functions `K`. -/
structure Simulates (p : Pairing) (r r' : Registry) (inv inv' : Invoke)
    (K : String → Nat → Prop := fun _ _ => True) : Prop where
  literal : ∀ l, p.values (.ofLiteral l)
  boolean : ∀ b, p.values (.boolean b)
  integer : ∀ i, p.values (.integer i)
  cell : ∀ x, p.Agree p.cells (cell x) (cell x)
  load : ∀ {c c'}, p.cells c c' → p.Agree p.Same (load c) (load c')
  store : ∀ {c c' v}, p.cells c c' → p.values v →
    p.Agree (fun _ _ => True) (store c v) (store c' v)
  define : ∀ x {v}, p.values v → p.Agree (fun _ _ => True) (define x v) (define x v)
  operator : ∀ o {a b}, p.values a → p.values b →
    p.Agree p.Same (do MonadExcept.ofExcept ((← get).world.binary o a b))
      (do MonadExcept.ofExcept ((← get).world.binary o a b))
  field : ∀ {v}, p.values v → ∀ x, p.Agree p.Same (field v x) (field v x)
  setField : ∀ {ref v}, p.values (.object ref) → p.values v → ∀ x,
    p.Agree (fun _ _ => True) (native (Native.setField ref x v))
      (native (Native.setField ref x v))
  method : ∀ {v vs}, p.values v → (∀ a ∈ vs, p.values a) → ∀ x,
    p.Agree p.Same (method r v x vs) (method r' v x vs)
  call : ∀ {vs}, (∀ a ∈ vs, p.values a) → ∀ x, K x vs.length →
    p.Agree p.Same (call inv x vs) (call inv' x vs)
  inChild : ∀ {α β : Type} {R : α → β → Prop} {x : Eval α} {y : Eval β},
    p.Agree R x y → p.Agree R (inChild x) (inChild y)

end

/-! ## Scope and depth -/

section
variable {α β : Type} {E : Stop → Stop → Prop} {S S₁ : Machine → Machine → Prop} {R : α → β → Prop}
  {x : Eval α} {y : Eval β} {m m' : Machine}

/-- Two computations in scopes of their own correspond if coming back from them does. -/
theorem related_inScope {T T' : RunScope}
    (h : Related E S₁ R (x { m with scope := T }) (y { m' with scope := T' }))
    (hback : ∀ m₁ m₁', S₁ m₁ m₁' →
      S { m₁ with scope := m.scope } { m₁' with scope := m'.scope }) :
    Related E S R (Eval.inScope T x m) (Eval.inScope T' y m') := by
  rw [Eval.inScope, Eval.inScope]
  generalize x { m with scope := T } = o at h
  generalize y { m' with scope := T' } = o' at h
  cases h with
  | ok hr hs => exact .ok hr (hback _ _ hs)
  | error he hs => exact .error he (hback _ _ hs)

/-- Two computations one call further in correspond if coming back from them does. -/
theorem related_deeper
    (h : Related E S₁ R (x { m with depth := m.depth + 1 }) (y { m' with depth := m'.depth + 1 }))
    (hback : ∀ m₁ m₁', S₁ m₁ m₁' →
      S { m₁ with depth := m₁.depth - 1 } { m₁' with depth := m₁'.depth - 1 }) :
    Related E S R (Eval.deeper x m) (Eval.deeper y m') := by
  rw [Eval.deeper, Eval.deeper]
  generalize x { m with depth := m.depth + 1 } = o at h
  generalize y { m' with depth := m'.depth + 1 } = o' at h
  cases h with
  | ok hr hs => exact .ok hr (hback _ _ hs)
  | error he hs => exact .error he (hback _ _ hs)

end

open Eval (invoke defineMethod expr_logical expr_operator)

namespace Simulates

variable {p : Pairing} {r r' : Registry} {inv inv' : Invoke} {K : String → Nat → Prop}

theorem nil (h : Simulates p r r' inv inv' K) : p.values .nil := h.literal .nil

/-! ## Expressions -/

mutual

/-- Evaluation corresponds. -/
theorem expr (h : Simulates p r r' inv inv' K) : (e : Expr) → CallsWithin K e.parts →
    p.Agree p.Same (Eval.expr r inv e) (Eval.expr r' inv' e)
  | .literal _ l, _ => Relates.pure ⟨rfl, h.literal l⟩
  | .group n e, hcalls => by
    rw [Expr.parts_group] at hcalls
    exact expr h e hcalls.left
  | .binary n o left right, hcalls => by
    rw [Expr.parts_binary] at hcalls
    have hleft := expr h left hcalls.left.left
    have hright := expr h right hcalls.left.right
    by_cases ho : o = .and ∨ o = .or
    · rw [expr_logical ho, expr_logical ho]
      refine Relates.bind (Pairing.agree_boolean hleft) ?_
      rintro b _ rfl
      split
      · refine Relates.bind (Pairing.agree_boolean hright) ?_
        rintro c _ rfl
        exact Relates.pure ⟨rfl, h.boolean c⟩
      · exact Relates.pure ⟨rfl, h.boolean b⟩
    · rw [expr_operator ho, expr_operator ho]
      refine Relates.bind hleft ?_
      rintro a _ ⟨rfl, ha⟩
      refine Relates.bind hright ?_
      rintro b _ ⟨rfl, hb⟩
      exact h.operator o ha hb
  | .var _ x, _ => Relates.bind (h.cell x) fun _ _ hc => h.load hc
  | .field n e x, hcalls => by
    rw [Expr.parts_field] at hcalls
    refine Relates.bind (expr h e hcalls.left) ?_
    rintro v _ ⟨rfl, hv⟩
    exact h.field hv x
  | .call n x es, hcalls => by
    rw [Expr.parts_call] at hcalls
    refine Relates.bind (exprs h es hcalls.left) ?_
    rintro vs _ ⟨⟨rfl, hvs⟩, hlength⟩
    exact h.call hvs x (hlength ▸ hcalls.right n x es (List.mem_singleton_self _))
  | .methodCall n e x es, hcalls => by
    rw [Expr.parts_methodCall] at hcalls
    refine Relates.bind (expr h e hcalls.left.left) ?_
    rintro v _ ⟨rfl, hv⟩
    refine Relates.bind (exprs h es hcalls.left.right) ?_
    rintro vs _ ⟨⟨rfl, hvs⟩, -⟩
    exact h.method hv hvs x
termination_by structural e => e

theorem exprs (h : Simulates p r r' inv inv' K) : (es : List Expr) →
    CallsWithin K (es.flatMap Expr.parts) →
    p.Agree (fun vs vs' => p.SameAll vs vs' ∧ vs.length = es.length) (Eval.exprs r inv es)
      (Eval.exprs r' inv' es)
  | [], _ => Relates.pure ⟨⟨rfl, List.forall_mem_nil _⟩, rfl⟩
  | e :: es, hcalls => by
    refine Relates.bind (expr h e hcalls.left) ?_
    rintro v _ ⟨rfl, hv⟩
    refine Relates.bind (exprs h es hcalls.right) ?_
    rintro vs _ ⟨⟨rfl, hvs⟩, hlength⟩
    exact Relates.pure ⟨⟨rfl, List.forall_mem_cons.2 ⟨hv, hvs⟩⟩, congrArg (· + 1) hlength⟩
termination_by structural es => es

end

theorem optionalExpr (h : Simulates p r r' inv inv' K) (value : Option Expr)
    (hcalls : CallsWithin K (Expr.optionalParts value)) :
    p.Agree p.Same (Eval.optionalExpr r inv value) (Eval.optionalExpr r' inv' value) := by
  cases value with
  | none => exact Relates.pure ⟨rfl, h.nil⟩
  | some e => exact h.expr e hcalls

/-! ## Statements -/

theorem assign (h : Simulates p r r' inv inv' K) (receiver value : Expr)
    (hcalls : CallsWithin K (receiver.parts ++ value.parts)) :
    p.Agree (fun _ _ => True) (Eval.assign r inv receiver value)
      (Eval.assign r' inv' receiver value) := by
  have hvalue := h.expr value hcalls.right
  unfold Eval.assign
  split
  · refine Relates.bind (h.cell _) fun c c' hc => Relates.bind hvalue ?_
    rintro v _ ⟨rfl, hv⟩
    exact h.store hc hv
  · have hreceiver := hcalls.left
    rw [Expr.parts_field] at hreceiver
    refine Relates.bind (h.expr _ hreceiver.left) ?_
    rintro o _ ⟨rfl, ho⟩
    refine Relates.bind hvalue ?_
    rintro v _ ⟨rfl, hv⟩
    refine Relates.bind (p.agree_asObject ho) ?_
    rintro ref _ ⟨rfl, href⟩
    exact h.setField href hv _
  · exact Relates.throw rfl

theorem forEach {body body' : Int → Eval Completion} (h : Simulates p r r' inv inv' K)
    (hbody : ∀ i, p.Agree p.SameCompletion (body i) (body' i)) (n : Nat) (i : Int) :
    p.Agree p.SameCompletion (Eval.forEach body n i) (Eval.forEach body' n i) := by
  induction n generalizing i with
  | zero => exact Relates.pure ⟨rfl, h.nil⟩
  | succ n ih =>
    refine Relates.bind (hbody i) ?_
    rintro c _ ⟨rfl, hc⟩
    cases c with
    | normal => exact ih (i + 1)
    | returned v => exact Relates.pure ⟨rfl, hc⟩

theorem loop {condition condition' : Eval Bool} {body body' : Eval Completion}
    (h : Simulates p r r' inv inv' K) (hcondition : p.Agree Eq condition condition')
    (hbody : p.Agree p.SameCompletion body body') (n : Nat) :
    p.Agree p.SameCompletion (Eval.loop condition body n) (Eval.loop condition' body' n) := by
  induction n with
  | zero => exact Relates.throw rfl
  | succ n ih =>
    refine Relates.bind hcondition ?_
    rintro b _ rfl
    split
    · refine Relates.bind hbody ?_
      rintro c _ ⟨rfl, hc⟩
      cases c with
      | normal => exact ih
      | returned v => exact Relates.pure ⟨rfl, hc⟩
    · exact Relates.pure ⟨rfl, h.nil⟩

variable {F F' : Nat}

mutual

/-- Execution corresponds if both runs have the same fuel, or there is no conditional
    loop for it to matter to. -/
theorem stmt (h : Simulates p r r' inv inv' K) : (s : Stmt) → CallsWithin K s.parts →
    F = F' ∨ s.loopFree = true →
    p.Agree p.SameCompletion (Eval.stmt r inv F s) (Eval.stmt r' inv' F' s)
  | .expression e, hcalls, _ => Relates.bind (Relates.discard (h.expr e hcalls)) fun _ _ _ =>
      Relates.pure ⟨rfl, h.nil⟩
  | .declare d, hcalls, _ => by
    rw [Stmt.parts] at hcalls
    refine Relates.bind (h.optionalExpr d.value hcalls.left) ?_
    rintro v _ ⟨rfl, hv⟩
    exact Relates.bind (h.define d.name hv) fun _ _ _ => Relates.pure ⟨rfl, h.nil⟩
  | .assign receiver value, hcalls, _ =>
    Relates.bind (h.assign receiver value hcalls) fun _ _ _ => Relates.pure ⟨rfl, h.nil⟩
  | .branch e ss ss', hcalls, hfuel => by
    rw [Stmt.parts] at hcalls
    refine Relates.bind (Pairing.agree_boolean (h.expr e hcalls.left.left)) ?_
    rintro b _ rfl
    rw [Stmt.loopFree, Bool.and_eq_true] at hfuel
    split
    · exact h.inChild (stmts h ss hcalls.left.right (hfuel.imp_right And.left))
    · exact h.inChild (stmts h ss' hcalls.right (hfuel.imp_right And.right))
  | .forEach x e ss, hcalls, hfuel => by
    rw [Stmt.parts] at hcalls
    refine Relates.bind (h.expr e hcalls.left) ?_
    rintro v _ ⟨rfl, -⟩
    refine Relates.bind (p.agree_ofExcept fun _ _ => rfl) ?_
    rintro g _ rfl
    refine h.forEach (fun i => h.inChild ?_) g.size g.start
    exact Relates.bind (h.define x (h.integer i)) fun _ _ _ => stmts h ss hcalls.right hfuel
  | .loop e ss, hcalls, hfuel => by
    rw [Stmt.parts] at hcalls
    have hsame : F = F' := by simpa [Stmt.loopFree] using hfuel
    have hbody := h.inChild (stmts h ss hcalls.right (.inl hsame))
    obtain rfl := hsame
    exact h.loop (Pairing.agree_boolean (h.expr e hcalls.left)) hbody F
  | .ret _ e, hcalls, _ => by
    refine Relates.bind (h.expr e hcalls) ?_
    rintro v _ ⟨rfl, hv⟩
    exact Relates.pure ⟨rfl, hv⟩
termination_by structural s => s

theorem stmts (h : Simulates p r r' inv inv' K) : (ss : List Stmt) →
    CallsWithin K (Stmt.partsList ss) →
    F = F' ∨ Stmt.loopFreeList ss = true →
    p.Agree p.SameCompletion (Eval.stmts r inv F ss) (Eval.stmts r' inv' F' ss)
  | [], _, _ => Relates.pure ⟨rfl, h.nil⟩
  | s :: ss, hcalls, hfuel => by
    rw [Stmt.partsList] at hcalls
    rw [Stmt.loopFreeList, Bool.and_eq_true] at hfuel
    refine Relates.bind (stmt h s hcalls.left (hfuel.imp_right And.left)) ?_
    rintro c _ ⟨rfl, hc⟩
    cases c with
    | normal => exact stmts h ss hcalls.right (hfuel.imp_right And.right)
    | returned v => exact Relates.pure ⟨rfl, hc⟩
termination_by structural ss => ss

end

/-! ## Programs -/

theorem defineParameters (h : Simulates p r r' inv inv' K) : (ps : List Parameter) →
    {vs : List Value} → (∀ v ∈ vs, p.values v) →
    p.Agree (fun _ _ => True) (Eval.defineParameters ps vs) (Eval.defineParameters ps vs)
  | [], _, _ => Relates.pure trivial
  | _ :: _, [], _ => Relates.pure trivial
  | q :: ps, v :: vs, hvs => by
    obtain ⟨hv, hvs⟩ := List.forall_mem_cons.1 hvs
    exact Relates.bind (h.define q.name hv) fun _ _ _ => defineParameters h ps hvs

/-- Binding parameters and running a body corresponds. -/
theorem methodBody (h : Simulates p r r' inv inv' K) (ps : List Parameter) (ss : List Stmt)
    (hcalls : CallsWithin K (Stmt.partsList ss)) {vs : List Value}
    (hvs : ∀ v ∈ vs, p.values v)
    (hfuel : F = F' ∨ Stmt.loopFreeList ss = true) :
    p.Agree p.SameCompletion
      (do Eval.defineParameters ps vs; Eval.stmts r inv F ss)
      (do Eval.defineParameters ps vs; Eval.stmts r' inv' F' ss) :=
  Relates.bind (h.defineParameters ps hvs) fun _ _ _ => h.stmts ss hcalls hfuel

theorem defineFields (h : Simulates p r r' (invoke r F) (invoke r' F') K) (fs : List Field)
    (hcalls : CallsWithin K (fs.flatMap Field.parts)) :
    p.Agree (fun _ _ => True) (Eval.defineFields r F fs) (Eval.defineFields r' F' fs) := by
  induction fs with
  | nil => exact Relates.pure trivial
  | cons f fs ih =>
    refine Relates.bind (h.optionalExpr f.value hcalls.left.left) ?_
    rintro v _ ⟨rfl, hv⟩
    exact Relates.bind (h.define f.name hv) fun _ _ _ => ih hcalls.right

/-- Running a program corresponds to running one with the same global variables, if
    declaring its methods does. -/
theorem source (h : Simulates p r r' (invoke r F) (invoke r' F')) {s s' : Source}
    (hfields : Eval.defineFields r' F' s'.fields = Eval.defineFields r' F' s.fields)
    (hmethods : p.Agree (fun _ _ => True) (s.methods.forM defineMethod)
      (s'.methods.forM defineMethod)) :
    p.Agree p.Same (Eval.source r F s) (Eval.source r' F' s') := by
  refine h.inChild ?_
  rw [hfields]
  refine Relates.bind (h.defineFields s.fields (.of_all fun _ _ => trivial)) fun _ _ _ => ?_
  exact Relates.bind hmethods fun _ _ _ => h.call (List.forall_mem_nil _) "main" trivial

end Simulates

end TinyScript
