import TinyScript.Program
import TinyScript.Proofs.Comparison
import TinyScript.Proofs.Machine.Binding
import TinyScript.Proofs.Machine.Origin

/-
  Programs without conditional loops.

  Every call of a method makes the call depth grow, and the depth is limited; between two
  calls the machine works its way through syntax and through ranges, which are fixed before
  the first round.  So fuel for as many calls as may still nest is enough, and it does not
  matter how much more there is.  What can still go on for ever is no part of the machine: a
  body of the host, or the text or the comparison of objects that contain themselves.

  * `RunScope.LoopFree`: no method in scope contains a conditional loop;
  * `Machine.Ample`: fuel for as many calls as may still nest;
  * `simulates_ample`: the elementary steps of two runs with such fuels agree, calls included;
  * `Starts.ample`: what is started has such fuel again;
  * `Hangs`: an activity that never ends, by itself;
  * `answers_of_loopFree`: a program without conditional loops ends with a value or an error,
    unless there is such an activity in its course.
-/

namespace TinyScript

open Eval

/-! ## Scopes without conditional loops -/

/-- What a callable stands for contains no conditional loop. -/
def Callable.LoopFree : Callable → Prop
  | .native _ => True
  | .declared d => Stmt.loopFreeList d.body = true

/-- No function in scope contains a conditional loop. -/
def RunScope.LoopFree (T : RunScope) : Prop :=
  ∀ f ∈ T, ∀ x n c, f.functions x n = some c → c.LoopFree

/-- No method of the program contains a conditional loop. -/
def Source.LoopFree (s : Source) : Prop := ∀ d ∈ s.methods, Stmt.loopFreeList d.body = true

instance (s : Source) : Decidable s.LoopFree :=
  inferInstanceAs (Decidable (∀ d ∈ s.methods, Stmt.loopFreeList d.body = true))

namespace RunScope.LoopFree

variable {T : RunScope}

theorem root : LoopFree (Scope.root : RunScope) := by
  intro f hf x n c hc
  rw [List.mem_singleton.1 hf] at hc
  cases hc

theorem child (h : LoopFree T) : LoopFree T.child := by
  refine List.forall_mem_cons.2 ⟨?_, h⟩
  intro x n c hc
  cases hc

theorem defineVariable (h : LoopFree T) (x : String) (c : Nat) :
    LoopFree (T.defineVariable x c) := by
  cases T with
  | nil => exact List.forall_mem_cons.2 ⟨fun x n c hc => (nomatch hc), h⟩
  | cons f T => exact List.forall_mem_cons.2 (List.forall_mem_cons.1 h)

theorem defineFunction {g : Callable} (h : LoopFree T) (x : String) (k : Nat) (hg : g.LoopFree) :
    LoopFree (T.defineFunction x k g) := by
  have htop : ∀ f : Frame Nat Callable, (∀ y n c, f.functions y n = some c → c.LoopFree) →
      ∀ y n c, (f.defineFunction x k g).functions y n = some c → c.LoopFree := by
    intro f hf y n c hc
    rw [Frame.functions_defineFunction] at hc
    split at hc
    · cases hc
      exact hg
    · exact hf y n c hc
  cases T with
  | nil => exact List.forall_mem_cons.2 ⟨htop {} fun y n c hc => (nomatch hc), h⟩
  | cons f T =>
    obtain ⟨hf, hT⟩ := List.forall_mem_cons.1 h
    exact List.forall_mem_cons.2 ⟨htop f hf, hT⟩

/-- A function that is found contains no conditional loop, and neither does its closure. -/
theorem findFunction? (h : LoopFree T) {x : String} {n : Nat} {c : Callable} {T' : RunScope}
    (hc : T.findFunction? x n = some (c, T')) : c.LoopFree ∧ LoopFree T' := by
  induction T with
  | nil => cases hc
  | cons f T ih =>
    obtain ⟨hf, hT⟩ := List.forall_mem_cons.1 h
    rw [Scope.findFunction?] at hc
    split at hc
    · cases hc
      exact ⟨hf x n c ‹_›, h⟩
    · exact ih hT hc

/-- The functions of the host contain no conditional loop. -/
theorem ofRegistry (r : Registry) (w : World) : LoopFree (Machine.ofRegistry r w).scope := by
  show LoopFree (r.functions.foldl _ Scope.root)
  generalize hT : (Scope.root : RunScope) = T
  have h : LoopFree T := hT ▸ root
  clear hT
  induction r.functions generalizing T with
  | nil => exact h
  | cons f fs ih => exact ih _ (h.defineFunction _ _ trivial)

end RunScope.LoopFree

/-! ## Fuel that reaches the limit -/

/-- No method in scope contains a conditional loop, and there is fuel for all calls that may
    still nest. -/
structure Machine.Ample (F : Nat) (m : Machine) : Prop where
  scope : RunScope.LoopFree m.scope
  depth_le : m.depth ≤ callLimit
  le_add : callLimit ≤ m.depth + F

namespace Machine.Ample

variable {F : Nat} {m m' : Machine}

theorem of_control (h : m.Ample F) (hm : m'.control = m.control) : m'.Ample F := by
  obtain ⟨hscope, hdepth⟩ := control_eq_iff.1 hm
  exact ⟨hscope ▸ h.scope, hdepth ▸ h.depth_le, hdepth ▸ h.le_add⟩

theorem inScope (h : m.Ample F) {T : RunScope} (hT : RunScope.LoopFree T) :
    Ample F { m with scope := T } :=
  ⟨hT, h.depth_le, h.le_add⟩

theorem child (h : m.Ample F) : Ample F { m with scope := m.scope.child } :=
  h.inScope h.scope.child

theorem define (h : m.Ample F) (x : String) (v : Value) : (m.define x v).Ample F :=
  ⟨h.scope.defineVariable x _, h.depth_le, h.le_add⟩

theorem defineMethod (h : m.Ample F) {d : Method} (hd : Stmt.loopFreeList d.body = true) :
    Ample F { m with scope := m.scope.defineFunction d.name d.arity (.declared d) } :=
  h.inScope (h.scope.defineFunction _ _ hd)

/-- Below the limit there is fuel. -/
theorem exists_succ (h : m.Ample F) (hd : m.depth ≠ callLimit) : ∃ G, F = G + 1 := by
  obtain ⟨-, hle, hadd⟩ := h
  exact ⟨F - 1, by omega⟩

/-- A call takes a unit of fuel and comes one closer to the limit. -/
theorem enter (h : m.Ample (F + 1)) (hd : m.depth ≠ callLimit) :
    Ample F { m with depth := m.depth + 1 } := by
  obtain ⟨hT, hle, hadd⟩ := h
  refine ⟨hT, ?_, ?_⟩
  · show m.depth + 1 ≤ callLimit
    omega
  · show callLimit ≤ m.depth + 1 + F
    omega

theorem leave (h : m.Ample F) : Ample (F + 1) { m with depth := m.depth - 1 } := by
  obtain ⟨hT, hle, hadd⟩ := h
  refine ⟨hT, ?_, ?_⟩
  · show m.depth - 1 ≤ callLimit
    omega
  · show callLimit ≤ m.depth - 1 + (F + 1)
    omega

end Machine.Ample

/-! ## Two fuels that reach the limit -/

/-- Two runs on one machine, with fuels that both reach the limit of calls. -/
def ample (F F' : Nat) : Pairing where
  machines m m' := m = m' ∧ m.Ample F ∧ m.Ample F'
  cells := Eq
  values _ := True

section
variable {F F' : Nat} {α β : Type} {R : α → β → Prop} {x : Eval α} {y : Eval β}

theorem same_ample (v : Value) : (ample F F').Same v v := ⟨rfl, trivial⟩

/-- What keeps scope and depth does not need fuel. -/
theorem agree_ample_of_keeps {R : α → α → Prop} (hR : ∀ a, R a a)
    (h : Keeps Machine.control x) : (ample F F').Agree R x x :=
  Pairing.agree_self (fun _ _ => Iff.rfl) hR fun m hm =>
    ⟨hm.1.of_control (h m), hm.2.of_control (h m)⟩

theorem agree_ample_inScope {T : RunScope} (hT : RunScope.LoopFree T)
    (h : (ample F F').Agree R x y) : (ample F F').Agree R (inScope T x) (inScope T y) := by
  rintro m _ ⟨rfl, hm, hm'⟩
  refine related_inScope (h ⟨rfl, hm.inScope hT, hm'.inScope hT⟩) ?_
  rintro m₁ _ ⟨rfl, hm₁, hm₁'⟩
  exact ⟨rfl, hm₁.inScope hm.scope, hm₁'.inScope hm.scope⟩

/-- A method called below the limit runs with one fuel less. -/
theorem related_ample_deeper {m : Machine} (hm : m.Ample (F + 1)) (hm' : m.Ample (F' + 1))
    (hd : m.depth ≠ callLimit) (h : (ample F F').Agree R x y) :
    Related Eq (ample (F + 1) (F' + 1)).machines R (deeper x m) (deeper y m) := by
  refine related_deeper (h ⟨rfl, hm.enter hd, hm'.enter hd⟩) ?_
  rintro m₁ _ ⟨rfl, hm₁, hm₁'⟩
  exact ⟨rfl, hm₁.leave, hm₁'.leave⟩

end

/-- Everything but calls. -/
theorem simulates_of_calls {r : Registry} {F F' : Nat} {inv inv' : Invoke}
    (hcall : ∀ c T vs, c.LoopFree → RunScope.LoopFree T →
      (ample F F').Agree (ample F F').Same (inv c T vs) (inv' c T vs)) :
    Simulates (ample F F') r r inv inv' where
  literal _ := trivial
  boolean _ := trivial
  integer _ := trivial
  cell x := agree_ample_of_keeps (fun _ => rfl) (Keeps.cell x)
  load := by
    rintro c _ rfl
    exact agree_ample_of_keeps same_ample (Keeps.bind Keeps.get fun _ => Keeps.pure _)
  store := by
    rintro c _ v rfl -
    exact agree_ample_of_keeps (fun _ => trivial) fun _ => rfl
  define := by
    rintro x v - m _ ⟨rfl, hm, hm'⟩
    exact .ok trivial ⟨rfl, hm.define x v, hm'.define x v⟩
  operator o a b _ _ :=
    agree_ample_of_keeps same_ample (Keeps.bind Keeps.get fun _ => Keeps.lift _)
  field _ x := by
    refine agree_ample_of_keeps same_ample (Keeps.bind (Keeps.ofExcept _) fun _ => ?_)
    exact Keeps.bind Keeps.get fun _ => Keeps.ofExcept _
  setField _ _ x := agree_ample_of_keeps (fun _ => trivial) (Keeps.native _)
  method _ _ x :=
    agree_ample_of_keeps same_ample (Keeps.bind (Keeps.ofExcept _) fun _ => Keeps.native _)
  call {vs} _ x _ := by
    refine Relates.get_bind ?_
    rintro m _ ⟨rfl, hm, hm'⟩
    cases hf : m.scope.findFunction? x vs.length with
    | none => exact .error rfl ⟨rfl, hm, hm'⟩
    | some found =>
      obtain ⟨hc, hclosure⟩ := hm.scope.findFunction? hf
      exact hcall _ _ vs hc hclosure ⟨rfl, hm, hm'⟩
  inChild h := by
    refine Relates.get_bind ?_
    rintro m _ ⟨rfl, hm, hm'⟩
    exact agree_ample_inScope hm.scope.child h ⟨rfl, hm, hm'⟩

/-- Calls agree, whatever the two fuels that reach the limit. -/
theorem ample_invoke {r : Registry} (F F' : Nat) (c : Callable) (T : RunScope) (vs : List Value)
    (hc : c.LoopFree) (hT : RunScope.LoopFree T) :
    (ample F F').Agree (ample F F').Same (invoke r F c T vs) (invoke r F' c T vs) := by
  rw [invoke.eq_def, invoke.eq_def r F']
  refine Relates.bind (agree_ample_of_keeps (R := fun _ _ => True) (fun _ => trivial)
    (Keeps.ofExcept _)) fun _ _ _ => ?_
  cases c with
  | native f => exact agree_ample_of_keeps same_ample (Keeps.native _)
  | declared d =>
    refine Relates.get_bind ?_
    rintro m _ ⟨rfl, hm, hm'⟩
    by_cases hd : m.depth = callLimit
    · simp only [if_pos hd]
      exact .error rfl ⟨rfl, hm, hm'⟩
    · -- below the limit neither fuel is used up
      obtain ⟨G, rfl⟩ := hm.exists_succ hd
      obtain ⟨G', rfl⟩ := hm'.exists_succ hd
      have hsim : Simulates (ample G G') r r (invoke r G) (invoke r G') :=
        simulates_of_calls fun c T vs => ample_invoke G G' c T vs
      simp only [if_neg hd]
      refine Related.bind (related_ample_deeper hm hm' hd (agree_ample_inScope hT.child
        (hsim.methodBody d.parameters d.body (.of_all fun _ _ => trivial) (fun _ _ => trivial)
          (.inr hc)))) ?_
      rintro completion _ ⟨rfl, hv⟩
      exact Relates.pure ⟨rfl, hv⟩
termination_by F
decreasing_by omega

/-- The elementary steps of two runs agree, whatever the two fuels that reach the limit. -/
theorem simulates_ample (r : Registry) (F F' : Nat) :
    Simulates (ample F F') r r (invoke r F) (invoke r F') :=
  simulates_of_calls fun c T vs => ample_invoke F F' c T vs

theorem ample_defineMethods {F F' : Nat} {ds : List Method}
    (hds : ∀ d ∈ ds, Stmt.loopFreeList d.body = true) :
    (ample F F').Agree (fun _ _ => True) (ds.forM defineMethod) (ds.forM defineMethod) := by
  have hsame : List.Forall₂ (fun d d' => d = d' ∧ Stmt.loopFreeList d.body = true) ds ds :=
    List.forall₂_same.2 fun d hd => ⟨rfl, hds d hd⟩
  refine Relates.forM (Q := fun _ _ => True) trivial hsame ?_
  rintro d _ ⟨rfl, hd⟩ m _ ⟨rfl, hm, hm'⟩
  exact .ok trivial ⟨rfl, hm.defineMethod hd, hm'.defineMethod hd⟩

/-- More fuel than reaches the limit changes nothing. -/
theorem source_eq_of_ample {r : Registry} {s : Source} (hs : s.LoopFree) {F F' : Nat} {m : Machine}
    (hm : m.Ample F) (hm' : m.Ample F') : source r F s m = source r F' s m := by
  have hrun : Related Eq (ample F F').machines (ample F F').Same (source r F s m)
      (source r F' s m) :=
    (simulates_ample r F F').source rfl (ample_defineMethods hs) ⟨rfl, hm, hm'⟩
  generalize source r F s m = o at hrun
  generalize source r F' s m = o' at hrun
  cases hrun with
  | ok hv hm => rw [hv.1, hm.1]
  | error he hm => rw [he, hm.1]

/-! ## What is started -/

/-- The task leads to no conditional loop. -/
def Task.LoopFree : Task → Prop
  | call callable closure _ => callable.LoopFree ∧ RunScope.LoopFree closure
  | stmt s => s.loopFree = true
  | stmts ss | rounds _ ss _ _ => Stmt.loopFreeList ss = true
  | loop .. => False
  | method d => Stmt.loopFreeList d.body = true
  | methods ds => ∀ d ∈ ds, Stmt.loopFreeList d.body = true
  | source s => s.LoopFree
  | _ => True

/-- The activity has fuel for all calls that may still nest, and leads to no conditional
    loop. -/
def Activity.Ample (c : Activity) : Prop := c.machine.Ample c.fuel ∧ c.task.LoopFree

section
variable {r : Registry} {F : Nat} {m m' : Machine}

namespace Machine.Ample

/-- Fuel reaches the limit after a computation that agrees with itself. -/
theorem of_agree {α : Type} {R : α → α → Prop} {step : Eval α} {a : α} (hm : m.Ample F)
    (h : (ample F F).Agree R step step) (hs : step m = .ok a m') : m'.Ample F := by
  have hafter := (h.after (fun _ _ => Iff.rfl) ⟨hm, hm⟩).1
  rwa [after_of_ok hs] at hafter

theorem expr (hm : m.Ample F) {e : Expr} {v : Value}
    (h : Eval.expr r (invoke r F) e m = .ok v m') : m'.Ample F :=
  hm.of_control ((control_expr (restores_invoke F) e).of_ok h)

theorem exprs (hm : m.Ample F) {es : List Expr} {vs : List Value}
    (h : Eval.exprs r (invoke r F) es m = .ok vs m') : m'.Ample F :=
  hm.of_control ((control_exprs (restores_invoke F) es).of_ok h)

theorem optionalExpr (hm : m.Ample F) {value : Option Expr} {v : Value}
    (h : Eval.optionalExpr r (invoke r F) value m = .ok v m') : m'.Ample F :=
  hm.of_control ((control_optionalExpr (restores_invoke F) value).of_ok h)

theorem stmt (hm : m.Ample F) {s : Stmt} (hs : s.loopFree = true) {k : Completion}
    (h : Eval.stmt r (invoke r F) F s m = .ok k m') : m'.Ample F :=
  hm.of_agree ((simulates_ample r F F).stmt s (.of_all fun _ _ => trivial) (.inr hs)) h

theorem defineFields (hm : m.Ample F) {fs : List Field}
    (h : Eval.defineFields r F fs m = .ok () m') : m'.Ample F :=
  hm.of_agree ((simulates_ample r F F).defineFields fs (.of_all fun _ _ => trivial)) h

theorem stmts (hm : m.Ample F) {ss : List Stmt} (hss : Stmt.loopFreeList ss = true)
    {k : Completion} (h : Eval.stmts r (invoke r F) F ss m = .ok k m') : m'.Ample F :=
  hm.of_agree ((simulates_ample r F F).stmts ss (.of_all fun _ _ => trivial) (.inr hss)) h

end Machine.Ample

/-- **What is started has ample fuel again.** -/
theorem Starts.ample {c c' : Activity} (h : Starts r c c') (hc : c.Ample) : c'.Ample := by
  obtain ⟨hm, hfree⟩ := hc
  cases h with
  | inner | logicalLeft _ | left _ | fieldOwner | arguments | methodOwner | condition | argument
  | nativeBody _ | parameter | expression | initialValue _ | assigned _ | assignedOwner | choice
  | iterable | returned | fieldValue _ => exact ⟨hm, trivial⟩
  | logicalRight _ hv | right _ hv | methodArguments hv | otherArguments hv | assignedField hv =>
    exact ⟨hm.expr hv, trivial⟩
  | callee hvs hfound =>
    have hm₁ := hm.exprs hvs
    exact ⟨hm₁, hm₁.scope.findFunction? hfound⟩
  | methodBody hv hvs _ => exact ⟨(hm.expr hv).exprs hvs, trivial⟩
  | parameters _ hd => exact ⟨(hm.enter hd).inScope hfree.2.child, trivial⟩
  | @body F _ _ d _ vs _ hd hp =>
    have hbound := (simulates_ample r F F).defineParameters d.parameters
      fun v (_ : v ∈ vs) => trivial
    exact ⟨((hm.enter hd).inScope hfree.2.child).of_agree hbound hp, hfree.1⟩
  | otherParameters => exact ⟨hm.define _ _, trivial⟩
  | declared hv | field hv => exact ⟨hm.optionalExpr hv, trivial⟩
  | chosen hv =>
    obtain ⟨hthen, helse⟩ := Bool.and_eq_true_iff.1 hfree
    refine ⟨(hm.expr hv).child, ?_⟩
    split
    · exact hthen
    · exact helse
  | rounds hv => exact ⟨hm.expr hv, hfree⟩
  | loop => cases hfree
  | statement => exact ⟨hm, (Bool.and_eq_true_iff.1 hfree).1⟩
  | otherStatements hs =>
    obtain ⟨hfirst, hrest⟩ := Bool.and_eq_true_iff.1 hfree
    exact ⟨hm.stmt hfirst hs, hrest⟩
  | roundVariable => exact ⟨hm.child, trivial⟩
  | round => exact ⟨hm.child.define _ _, hfree⟩
  | otherRounds hs => exact ⟨((hm.child.define _ _).stmts hfree hs).inScope hm.scope, hfree⟩
  | loopCondition | loopBody _ | loopAgain _ _ => exact hfree.elim
  | otherFields hv => exact ⟨(hm.optionalExpr hv).define _ _, trivial⟩
  | method => exact ⟨hm, (List.forall_mem_cons.1 hfree).1⟩
  | otherMethods =>
    obtain ⟨hd, hds⟩ := List.forall_mem_cons.1 hfree
    exact ⟨hm.defineMethod hd, hds⟩
  | sourceFields => exact ⟨hm.child, trivial⟩
  | sourceMethods hf => exact ⟨hm.child.defineFields hf, hfree⟩
  | main hf hd hfound =>
    have hm₂ := (hm.child.defineFields hf).of_agree (ample_defineMethods hfree) hd
    exact ⟨hm₂, hm₂.scope.findFunction? hfound⟩

theorem During.ample {c c' : Activity} (h : During r c c') (hc : c.Ample) : c'.Ample := by
  induction h with
  | refl => exact hc
  | tail _ hstarts ih => exact hstarts.ample ih

end

/-! ## What never ends -/

/-- The operator shows or compares objects that contain themselves. -/
def World.Entangled (w : World) (o : BinaryOperator) (u v : Value) : Prop :=
  match o with
  | .add => (∃ s, u = .string s) ∧ ¬w.Acyclic v ∨ (∃ s, v = .string s) ∧ ¬w.Acyclic u
  | .equal | .notEqual => ¬w.Acyclic u ∧ ¬w.Acyclic v
  | _ => False

/-- An activity never ends, by itself: a body of the host does not, or an operator that is
    applied to objects that contain themselves. -/
inductive Hangs (r : Registry) : Activity → Prop
  | native {F m} {body : Native Value} {w} : body m.world = .error .outOfFuel w →
      Hangs r ⟨F, .native body, m⟩
  | operator {F m m₁ m₂ n o left right u v} : ¬(o = .and ∨ o = .or) →
      expr r (invoke r F) left m = .ok u m₁ → expr r (invoke r F) right m₁ = .ok v m₂ →
      m₂.world.binary o u v = .error .outOfFuel → m₂.world.Entangled o u v →
      Hangs r ⟨F, .expr (.binary n o left right), m⟩

section
variable {w : World} {o : BinaryOperator} {u v : Value}

theorem not_acyclic_of_text? (h : w.text? v = none) : ¬w.Acyclic v := by
  intro hv
  have hsome := World.isSome_text? hv
  rw [h] at hsome
  cases hsome

theorem not_acyclic_of_equal? (h : w.equal? u v = none) : ¬w.Acyclic u ∧ ¬w.Acyclic v := by
  rw [← not_or]
  intro huv
  have hsome := World.isSome_equal? huv
  rw [h] at hsome
  cases hsome

/-- An operator ends, unless it shows or compares objects that contain themselves. -/
theorem entangled_of_binary (h : w.binary o u v = .error .outOfFuel) : w.Entangled o u v := by
  rcases binary_stops h with ⟨c, ⟨⟩, -⟩ | ⟨-, ⟨rfl | rfl, hnone⟩ | ⟨rfl, ⟨hu, hnone⟩ | ⟨hv, hnone⟩⟩⟩
  · exact not_acyclic_of_equal? hnone
  · exact not_acyclic_of_equal? hnone
  · exact .inl ⟨hu, not_acyclic_of_text? hnone⟩
  · exact .inr ⟨hv, not_acyclic_of_text? hnone⟩

/-- With ample fuel nothing else stops by itself without an answer. -/
theorem Raises.hangs {r : Registry} {c : Activity} (h : Raises r c .outOfFuel) (hc : c.Ample) :
    Hangs r c := by
  obtain ⟨hm, hfree⟩ := hc
  cases h with
  | operator ho hu hv h => exact .operator ho hu hv h (entangled_of_binary h)
  | calls _ hd =>
    obtain ⟨G, hG⟩ := hm.exists_succ hd
    cases hG
  | native h => exact .native h
  | rounds => exact hfree.elim

end

/-- **Only conditional loops, the host and objects that contain themselves can go on for ever.**
    Under every registry, a program without conditional loops ends with a value or an error,
    whatever calls and loops over ranges it makes, unless a body of the host, or an operator
    applied to objects that contain themselves, never ends in its course.  Fuel for as many
    calls as may nest is enough, and more does not change the answer. -/
theorem answers_of_loopFree (r : Registry) (s : Source) (hs : s.LoopFree) (m : Machine)
    (hm : RunScope.LoopFree m.scope) (hd : m.depth ≤ callLimit) :
    (∃ v m', ∀ F, callLimit ≤ F → source r F s m = .ok v m') ∨
      (∃ e m', ∀ F, callLimit ≤ F → source r F s m = .error (.error e) m') ∨
      ∃ m', ∀ F, callLimit ≤ F → source r F s m = .error .outOfFuel m' ∧
        ∃ c, During r ⟨F, .source s, m⟩ c ∧ Hangs r c := by
  have hample : ∀ F, callLimit ≤ F → m.Ample F := fun F hF =>
    ⟨hm, hd, Nat.le_trans hF (Nat.le_add_left ..)⟩
  have hsame : ∀ F, callLimit ≤ F → source r F s m = source r callLimit s m := fun F hF =>
    source_eq_of_ample hs (hample F hF) (hample _ (Nat.le_refl _))
  cases h : source r callLimit s m with
  | ok v m' => exact .inl ⟨v, m', fun F hF => (hsame F hF).trans h⟩
  | error e m' =>
    refine .inr ?_
    cases e with
    | error e => exact .inl ⟨e, m', fun F hF => (hsame F hF).trans h⟩
    | outOfFuel =>
      refine .inr ⟨m', fun F hF => ⟨(hsame F hF).trans h, ?_⟩⟩
      have hstops : Activity.Stops r ⟨F, .source s, m⟩ .outOfFuel :=
        ⟨m', discard_eq_error.2 ((hsame F hF).trans h)⟩
      obtain ⟨c, hduring, hraises⟩ := hstops.origin
      exact ⟨c, hduring, hraises.hangs (hduring.ample ⟨hample F hF, hs⟩)⟩

/-- A program whose method calls itself in every round of a loop. -/
def runawayText : String :=
  "DEF f(n) DO FOR i IN range(0, n) DO f(n + 1); END END
   DEF main(): Integer DO f(1); RETURN 0; END"

/-- Whether a run has ended with an error. -/
def Eval.fails {α : Type} (o : EStateM.Result Stop Machine α) : Bool :=
  match o with
  | .error (.error _) _ => true
  | _ => false

/-- That program ends with an error, on a fresh machine. -/
theorem answers_of_loopFree_runaway :
    ∃ s, Program.read runawayText = .ok s ∧ s.LoopFree ∧
      RunScope.LoopFree (Machine.ofRegistry Registry.standard {}).scope ∧
      ∃ e m', ∀ F, callLimit ≤ F →
        source Registry.standard F s (.ofRegistry Registry.standard {}) = .error (.error e) m' := by
  have hcheck : (Program.read runawayText).toOption.map (fun s => decide s.LoopFree &&
      fails (source Registry.standard callLimit s (.ofRegistry Registry.standard {}))) =
      some true := by
    decide +kernel
  have hhost := RunScope.LoopFree.ofRegistry Registry.standard {}
  rcases hs : Program.read runawayText with _ | s
  · rw [hs] at hcheck
    cases hcheck
  · rw [hs] at hcheck
    obtain ⟨hfree, hfails⟩ := Bool.and_eq_true_iff.1 (Option.some.inj hcheck)
    have hs : s.LoopFree := of_decide_eq_true hfree
    refine ⟨s, rfl, hs, hhost, ?_⟩
    rcases answers_of_loopFree Registry.standard s hs _ hhost (by decide) with
      ⟨v, m', h⟩ | herror | ⟨m', h⟩
    · rw [h callLimit (Nat.le_refl _)] at hfails
      cases hfails
    · exact herror
    · rw [(h callLimit (Nat.le_refl _)).1] at hfails
      cases hfails

/-! ## A box that contains itself -/

/-- A box of type `Box`. -/
def cyclicBox : ObjectRef := ⟨⟨"Box", 0⟩, 0⟩

/-- A host that makes boxes for everything, and has nothing else. -/
def cyclicHost : Registry :=
  (Registry.empty.defineType (ObjectType.withField { name := "Box" } "content" .any)).2.define
    ⟨⟨"box", [], .object cyclicBox.type⟩, Native.construct cyclicBox.type ["content"] []⟩

/-- `LET b: Box = box(); b.content = b; LET s: String = "" + b; RETURN 0;` -/
def cyclicBody : List Stmt :=
  [.declare ⟨default, "b", some "Box", some (.call default "box" [])⟩,
    .assign (.field default (.var default "b") "content") (.var default "b"),
    .declare ⟨default, "s", some "String",
      some (.binary default .add (.literal default (.string "")) (.var default "b"))⟩,
    .ret 0 (.literal default (.integer 0))]

/-- The method with this body. -/
def cyclicMain : Method := ⟨default, "main", [], some "Integer", cyclicBody⟩

/-- A program that asks for the text of a box that contains itself. -/
def cyclicSource : Source := ⟨[], [cyclicMain]⟩

/-- The world with that box in it. -/
def cyclicWorld : World where
  objects := #[⟨cyclicBox.type, ["content"], [("content", .object cyclicBox)]⟩]

theorem text?_cyclicBox : cyclicWorld.text? (.object cyclicBox) = none := by
  have hkept : cyclicWorld.Kept := by
    intro o ho
    obtain rfl := List.mem_singleton.1 (Array.mem_toList_iff.2 ho)
    exact ⟨rfl, List.nodup_singleton _⟩
  have hself : cyclicWorld.Contains cyclicBox cyclicBox :=
    ⟨"content", List.mem_singleton_self _⟩
  refine Option.eq_none_iff_forall_ne_some.2 fun text htext => ?_
  exact World.acyclic_of_text? hkept htext _ _ rfl .refl (.single hself)

/-- The scope in which the method is called. -/
def cyclicScope : RunScope :=
  (Machine.ofRegistry cyclicHost {}).scope.child.defineFunction "main" 0 (.declared cyclicMain)

/-- Whatever the fuel, the body of the method stops where it asks for the text. -/
theorem cyclicBody_never_ends (F : Nat) :
    ∃ m, stmts cyclicHost (invoke cyclicHost F) F cyclicBody
      { scope := cyclicScope.child, depth := 1 } = .error .outOfFuel m := by
  let m₁ : Machine :=
    { scope := cyclicScope.child.defineVariable "b" 0, depth := 1, cells := #[.object cyclicBox],
      world := (({} : World).create cyclicBox.type ["content"]).2 }
  let m₂ : Machine := { m₁ with world := cyclicWorld }
  have hbox : optionalExpr cyclicHost (invoke cyclicHost F) (some (.call default "box" []))
      { scope := cyclicScope.child, depth := 1 } =
        .ok (.object cyclicBox) { m₁ with scope := cyclicScope.child, cells := #[] } := by
    show invoke cyclicHost F (.native _) _ [] _ = _
    rw [invoke.eq_def]
    rfl
  have hdeclare : stmt cyclicHost (invoke cyclicHost F) F
      (.declare ⟨default, "b", some "Box", some (.call default "box" [])⟩)
      { scope := cyclicScope.child, depth := 1 } = .ok .normal m₁ :=
    declare_eq_ok.2 ⟨_, _, hbox, rfl, rfl⟩
  have hassign : stmt cyclicHost (invoke cyclicHost F) F
      (.assign (.field default (.var default "b") "content") (.var default "b")) m₁ =
        .ok .normal m₂ :=
    rfl
  have htext : optionalExpr cyclicHost (invoke cyclicHost F)
      (some (.binary default .add (.literal default (.string "")) (.var default "b"))) m₂ =
        .error .outOfFuel m₂ := by
    have hadd : m₂.world.binary .add (.string "") (.object cyclicBox) = .error .outOfFuel :=
      Stop.map_answer_eq_error.2 ⟨text?_cyclicBox, rfl⟩
    exact lift_eq_error.2 ⟨hadd, rfl⟩
  exact ⟨m₂, (bind_of_ok hdeclare).trans ((bind_of_ok hassign).trans
    (bind_of_error (declare_eq_error.2 htext)))⟩

/-- **That program never ends**, though it has no conditional loop and all bodies of its host
    end. -/
theorem cyclicSource_never_ends :
    cyclicSource.LoopFree ∧
    (∀ f ∈ cyclicHost.functions.map Prod.snd, ∀ vs w w', f.body vs w ≠ .error .outOfFuel w') ∧
    (∀ type x k, (cyclicHost.describe type).method? x k = none) ∧
    ∀ F, ∃ m, source cyclicHost F cyclicSource (.ofRegistry cyclicHost {}) =
      .error .outOfFuel m := by
  refine ⟨by decide, ?_, ?_, fun F => ?_⟩
  · intro f hf vs w w' h
    obtain rfl := List.mem_singleton.1 hf
    cases h
  · rintro ⟨name, i⟩ x k
    cases i <;> rfl
  · have hdepth : (0 : Nat) ≠ callLimit := by decide
    obtain ⟨m, hcall⟩ : ∃ m, invoke cyclicHost F (.declared cyclicMain) cyclicScope []
        { scope := cyclicScope } = .error .outOfFuel m := by
      cases F with
      | zero => exact ⟨_, invoke_zero rfl hdepth⟩
      | succ F =>
        obtain ⟨m, hbody⟩ := cyclicBody_never_ends F
        rw [invoke.eq_def, bind_of_ok (ofExcept_checkArity rfl)]
        simp only [get_bind, if_neg hdepth]
        exact ⟨_, bind_of_error (deeper_eq_error.2 ⟨_, inScope_eq_error.2
          ⟨m, (bind_of_ok rfl).trans hbody, rfl⟩, rfl⟩)⟩
    exact ⟨_, inChild_eq_error.2 ⟨m, (bind_of_ok rfl).trans ((bind_of_ok rfl).trans hcall), rfl⟩⟩

end TinyScript
