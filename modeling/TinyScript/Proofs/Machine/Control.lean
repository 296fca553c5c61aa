import TinyScript.Proofs.Machine.Activity

/-
  Scope and call depth.

  Whatever the machine does, it comes back to the scope and the call depth it started
  with, also when it fails; only a declaration leaves its name in the scope.  So the call
  depth counts the methods being called.

  * `Eval.Keeps`: a computation leaves an aspect of the machine as it was;
  * `restores_invoke`, `control_expr`: calls and evaluation keep scope and depth;
  * `depth_stmts`: statements keep the depth;
  * `InProgress`: the activities in progress at a moment of a run;
  * `InProgress.depth_eq`: the call depth is the number of methods being called;
  * `control_restored`: all of it together, and when a call is refused.
-/

namespace TinyScript

/-- The scope and the call depth. -/
def Machine.control (m : Machine) : RunScope × Nat := (m.scope, m.depth)

theorem Machine.control_eq_iff {m m' : Machine} :
    m'.control = m.control ↔ m'.scope = m.scope ∧ m'.depth = m.depth := by
  rw [control, control, Prod.mk.injEq]

namespace Eval

variable {α β γ : Type}

/-- The machine that a computation leaves, however it ends. -/
def after (step : Eval α) (m : Machine) : Machine :=
  match step m with
  | .ok _ m' => m'
  | .error _ m' => m'

/-- The computation leaves an aspect of the machine as it was, however it ends. -/
def Keeps (f : Machine → γ) (step : Eval α) : Prop := ∀ m, f (after step m) = f m

/-- Calls leave scope and call depth as they were. -/
def Restores (inv : Invoke) : Prop :=
  ∀ callable S vs, Keeps Machine.control (inv callable S vs)

/-! ## Elementary steps -/

section
variable {f : Machine → γ} {step : Eval α} {m m' : Machine}

theorem after_of_ok {a : α} (h : step m = .ok a m') : after step m = m' := by
  rw [after, h]

theorem after_of_error {e : Stop} (h : step m = .error e m') : after step m = m' := by
  rw [after, h]

theorem Keeps.of_ok {a : α} (h : Keeps f step) (hm : step m = .ok a m') : f m' = f m := by
  rw [← after_of_ok hm, h m]

theorem Keeps.of_error {e : Stop} (h : Keeps f step) (hm : step m = .error e m') : f m' = f m := by
  rw [← after_of_error hm, h m]

theorem Keeps.pure (a : α) : Keeps f (pure a : Eval α) := fun _ => rfl

theorem Keeps.throw (e : Stop) : Keeps f (throw e : Eval α) := fun _ => rfl

theorem Keeps.get : Keeps f (get : Eval Machine) := fun _ => rfl

theorem Keeps.bind {g : α → Eval β} (h : Keeps f step) (hg : ∀ a, Keeps f (g a)) :
    Keeps f (step >>= g) := by
  intro m
  cases hs : step m with
  | ok a m₁ =>
    have hafter : after (step >>= g) m = after (g a) m₁ := by rw [after, after, bind_of_ok hs]
    rw [hafter, hg a m₁, h.of_ok hs]
  | error e m₁ => rw [after_of_error (bind_of_error hs), h.of_error hs]

theorem Keeps.discard (h : Keeps f step) : Keeps f (discard step) := by
  intro m
  cases hs : step m with
  | ok a m₁ => rw [after_of_ok (discard_eq_ok (u := ⟨⟩).2 ⟨a, hs⟩), h.of_ok hs]
  | error e m₁ => rw [after_of_error (discard_eq_error.2 hs), h.of_error hs]

theorem Keeps.ofExcept (x : Except RuntimeError α) : Keeps f (ofExcept x) := by
  cases x with
  | ok a => exact Keeps.pure a
  | error e => exact Keeps.throw _

theorem Keeps.lift (x : Except Stop α) : Keeps f (MonadExcept.ofExcept x) := by
  cases x with
  | ok a => exact Keeps.pure a
  | error e => exact Keeps.throw e

theorem Keeps.boolean {step : Eval Value} (h : Keeps f step) : Keeps f (boolean step) :=
  Keeps.bind h fun _ => Keeps.ofExcept _

theorem Keeps.depth (h : Keeps Machine.control step) : Keeps Machine.depth step :=
  fun m => (Machine.control_eq_iff.1 (h m)).2

theorem Keeps.native (n : Native α) : Keeps Machine.control (native n) := by
  intro m
  rw [after, Eval.native]
  cases n m.world <;> rfl

theorem Keeps.cell (x : String) : Keeps f (cell x) := by
  refine Keeps.bind Keeps.get fun m => ?_
  cases m.cell? x with
  | none => exact Keeps.throw _
  | some c => exact Keeps.pure c

theorem Keeps.define (x : String) (v : Value) : Keeps Machine.depth (define x v) := fun _ => rfl

/-- A computation in another scope comes back from it. -/
theorem Keeps.inScope_scope (S : RunScope) (step : Eval α) :
    Keeps Machine.scope (inScope S step) := by
  intro m
  rw [after, Eval.inScope]
  cases step { m with scope := S } <;> rfl

theorem Keeps.inScope (h : Keeps Machine.depth step) (S : RunScope) :
    Keeps Machine.control (inScope S step) := by
  intro m
  refine Machine.control_eq_iff.2 ⟨Keeps.inScope_scope S step m, ?_⟩
  have hdepth := h { m with scope := S }
  rw [after] at hdepth
  rw [after, Eval.inScope]
  cases hs : step { m with scope := S } with
  | ok a m₁ => rwa [hs] at hdepth
  | error e m₁ => rwa [hs] at hdepth

theorem Keeps.inChild (h : Keeps Machine.depth step) : Keeps Machine.control (inChild step) :=
  fun m => Keeps.inScope h m.scope.child m

/-- A call takes back the one that it has added to the depth, so the depth is kept if the
    computation in between keeps it. -/
theorem Keeps.deeper (h : Keeps Machine.control step) : Keeps Machine.control (deeper step) := by
  intro m
  obtain ⟨hscope, hdepth⟩ := Machine.control_eq_iff.1 (h { m with depth := m.depth + 1 })
  rw [after] at hscope hdepth
  rw [after, Eval.deeper, Machine.control_eq_iff]
  cases hs : step { m with depth := m.depth + 1 } with
  | ok a m₁ | error e m₁ =>
    rw [hs] at hscope hdepth
    exact ⟨hscope, Nat.sub_eq_of_eq_add hdepth⟩

end

/-! ## Evaluation -/

section
variable {r : Registry}

variable {inv : Invoke}

theorem control_call (hinv : Restores inv) (x : String) (vs : List Value) :
    Keeps Machine.control (call inv x vs) := by
  refine Keeps.bind Keeps.get fun m => ?_
  split
  · exact hinv _ _ vs
  · exact Keeps.throw _

mutual

/-- Evaluation keeps scope and depth. -/
theorem control_expr (hinv : Restores inv) : (e : Expr) →
    Keeps Machine.control (expr r inv e)
  | .literal _ value => Keeps.pure _
  | .group _ e => control_expr hinv e
  | .binary n o left right => by
    by_cases ho : o = .and ∨ o = .or
    · rw [expr_logical ho]
      refine Keeps.bind (Keeps.boolean (control_expr hinv left)) fun b => ?_
      split
      · exact Keeps.bind (Keeps.boolean (control_expr hinv right)) fun _ => Keeps.pure _
      · exact Keeps.pure _
    · rw [expr_operator ho]
      refine Keeps.bind (control_expr hinv left) fun _ => ?_
      refine Keeps.bind (control_expr hinv right) fun _ => ?_
      exact Keeps.bind Keeps.get fun _ => Keeps.lift _
  | .var _ x => Keeps.bind (Keeps.cell x) fun _ => Keeps.bind Keeps.get fun _ => Keeps.pure _
  | .field _ e x => by
    refine Keeps.bind (control_expr hinv e) fun _ => Keeps.bind (Keeps.ofExcept _) fun _ => ?_
    exact Keeps.bind Keeps.get fun _ => Keeps.ofExcept _
  | .call _ x es => Keeps.bind (control_exprs hinv es) fun vs => control_call hinv x vs
  | .methodCall _ e x es => by
    refine Keeps.bind (control_expr hinv e) fun _ => ?_
    refine Keeps.bind (control_exprs hinv es) fun _ => ?_
    exact Keeps.bind (Keeps.ofExcept _) fun _ => Keeps.native _
termination_by structural e => e

theorem control_exprs (hinv : Restores inv) : (es : List Expr) →
    Keeps Machine.control (exprs r inv es)
  | [] => Keeps.pure _
  | e :: es => by
    refine Keeps.bind (control_expr hinv e) fun _ => ?_
    exact Keeps.bind (control_exprs hinv es) fun _ => Keeps.pure _
termination_by structural es => es

end

theorem control_optionalExpr (hinv : Restores inv) (value : Option Expr) :
    Keeps Machine.control (optionalExpr r inv value) := by
  cases value with
  | none => exact Keeps.pure _
  | some e => exact control_expr hinv e

/-! ## Execution -/

theorem control_assign (hinv : Restores inv) (receiver value : Expr) :
    Keeps Machine.control (assign r inv receiver value) := by
  unfold assign
  split
  · refine Keeps.bind (Keeps.cell _) fun c => Keeps.bind (control_expr hinv value) fun v => ?_
    exact fun _ => rfl
  · refine Keeps.bind (control_expr hinv _) fun _ => ?_
    refine Keeps.bind (control_expr hinv value) fun _ => ?_
    exact Keeps.bind (Keeps.ofExcept _) fun _ => Keeps.native _
  · exact Keeps.throw _

theorem Keeps.forEach {f : Machine → γ} {body : Int → Eval Completion}
    (h : ∀ i, Keeps f (body i)) (n : Nat) (i : Int) : Keeps f (forEach body n i) := by
  induction n generalizing i with
  | zero => exact Keeps.pure _
  | succ n ih =>
    refine Keeps.bind (h i) fun completion => ?_
    cases completion with
    | normal => exact ih (i + 1)
    | returned v => exact Keeps.pure _

theorem Keeps.loop {f : Machine → γ} {condition : Eval Bool} {body : Eval Completion}
    (hc : Keeps f condition) (hb : Keeps f body) (n : Nat) : Keeps f (loop condition body n) := by
  induction n with
  | zero => exact Keeps.throw _
  | succ n ih =>
    refine Keeps.bind hc fun b => ?_
    split
    · refine Keeps.bind hb fun completion => ?_
      cases completion with
      | normal => exact ih
      | returned v => exact Keeps.pure _
    · exact Keeps.pure _

/-- A statement other than a declaration keeps scope and depth if the statements in it
    keep the depth. -/
theorem control_stmt (hinv : Restores inv) {fuel : Nat} {s : Stmt} (hs : ∀ d, s ≠ .declare d)
    (hinner : ∀ ss, sizeOf ss < sizeOf s → Keeps Machine.depth (stmts r inv fuel ss)) :
    Keeps Machine.control (stmt r inv fuel s) := by
  cases s with
  | expression e =>
    exact Keeps.bind (Keeps.discard (control_expr hinv e)) fun _ => Keeps.pure _
  | declare d => exact absurd rfl (hs d)
  | assign receiver value =>
    exact Keeps.bind (control_assign hinv receiver value) fun _ => Keeps.pure _
  | branch e ss ss' =>
    refine Keeps.bind (Keeps.boolean (control_expr hinv e)) fun b => ?_
    split
    · exact Keeps.inChild (hinner ss (by rw [Stmt.branch.sizeOf_spec]; omega))
    · exact Keeps.inChild (hinner ss' (by rw [Stmt.branch.sizeOf_spec]; omega))
  | forEach x e ss =>
    refine Keeps.bind (control_expr hinv e) fun _ => Keeps.bind (Keeps.ofExcept _) fun g => ?_
    refine Keeps.forEach (fun i => Keeps.inChild ?_) g.size g.start
    exact Keeps.bind (Keeps.define x _) fun _ =>
      hinner ss (by rw [Stmt.forEach.sizeOf_spec]; omega)
  | loop e ss =>
    exact Keeps.loop (Keeps.boolean (control_expr hinv e))
      (Keeps.inChild (hinner ss (by rw [Stmt.loop.sizeOf_spec]; omega))) fuel
  | ret n e => exact Keeps.bind (control_expr hinv e) fun _ => Keeps.pure _

/-- A declaration that succeeds leaves its name in the scope, and nothing else. -/
theorem control_after_declare (hinv : Restores inv) (fuel : Nat) (d : Declaration)
    (m : Machine) :
    let m' := after (stmt r inv fuel (.declare d)) m
    m'.control = m.control ∨ stmt r inv fuel (.declare d) m = .ok .normal m' ∧
      m'.depth = m.depth ∧ ∃ c, m'.scope = m.scope.defineVariable d.name c := by
  intro m'
  have hkeeps : Keeps Machine.control (optionalExpr r inv d.value) :=
    control_optionalExpr hinv d.value
  cases hv : optionalExpr r inv d.value m with
  | ok v m₁ =>
    obtain ⟨hscope, hdepth⟩ := Machine.control_eq_iff.1 (hkeeps.of_ok hv)
    have hstmt : stmt r inv fuel (.declare d) m = .ok .normal (m₁.define d.name v) :=
      bind_of_ok hv
    have hm' : m' = m₁.define d.name v := after_of_ok hstmt
    refine Or.inr ⟨hm' ▸ hstmt, hm' ▸ hdepth, m₁.cells.size, ?_⟩
    rw [hm', ← hscope]
    rfl
  | error e m₁ =>
    have hstmt : stmt r inv fuel (.declare d) m = .error e m₁ := bind_of_error hv
    have hm' : m' = m₁ := after_of_error hstmt
    exact Or.inl (hm' ▸ hkeeps.of_error hv)

theorem depth_stmt (hinv : Restores inv) {fuel : Nat} {s : Stmt}
    (hinner : ∀ ss, sizeOf ss < sizeOf s → Keeps Machine.depth (stmts r inv fuel ss)) :
    Keeps Machine.depth (stmt r inv fuel s) := by
  by_cases hd : ∃ d, s = .declare d
  · obtain ⟨d, rfl⟩ := hd
    intro m
    obtain h | ⟨-, h, -⟩ := control_after_declare hinv fuel d m
    · exact (Machine.control_eq_iff.1 h).2
    · exact h
  · exact (control_stmt hinv (by simpa using hd) hinner).depth

/-- Statements keep the call depth. -/
theorem depth_stmts (hinv : Restores inv) (fuel : Nat) : (ss : List Stmt) →
    Keeps Machine.depth (stmts r inv fuel ss)
  | [] => Keeps.pure _
  | s :: ss => by
    refine Keeps.bind (depth_stmt hinv fun ss' _ => depth_stmts hinv fuel ss')
      fun completion => ?_
    cases completion with
    | normal => exact depth_stmts hinv fuel ss
    | returned v => exact Keeps.pure _
termination_by ss => sizeOf ss
decreasing_by
  · rename_i hlt
    simp only [List.cons.sizeOf_spec]
    omega
  · simp only [List.cons.sizeOf_spec]
    omega

/-! ## Calls and programs -/

theorem depth_defineParameters : (ps : List Parameter) → (vs : List Value) →
    Keeps Machine.depth (defineParameters ps vs)
  | [], _ => Keeps.pure _
  | _ :: _, [] => Keeps.pure _
  | p :: ps, v :: vs => Keeps.bind (Keeps.define p.name v) fun _ => depth_defineParameters ps vs

/-- Calls keep scope and depth.  By induction on the fuel: the calls in the body of a method,
    which have less of it, keep the depth, so what the method takes back is what it has
    added. -/
theorem restores_invoke (fuel : Nat) : Restores (invoke r fuel) := by
  induction fuel with
  | zero =>
    intro callable S vs
    rw [invoke.eq_def]
    refine Keeps.bind (Keeps.ofExcept _) fun _ => ?_
    cases callable with
    | native g => exact Keeps.native _
    | declared d =>
      refine Keeps.bind Keeps.get fun m => ?_
      split <;> exact Keeps.throw _
  | succ fuel ih =>
    intro callable S vs
    rw [invoke.eq_def]
    refine Keeps.bind (Keeps.ofExcept _) fun _ => ?_
    cases callable with
    | native g => exact Keeps.native _
    | declared d =>
      refine Keeps.bind Keeps.get fun m => ?_
      split
      · exact Keeps.throw _
      · have hbody : Keeps Machine.depth (do
            defineParameters d.parameters vs
            stmts r (invoke r fuel) fuel d.body) :=
          Keeps.bind (depth_defineParameters d.parameters vs) fun _ => depth_stmts ih fuel d.body
        exact Keeps.bind (Keeps.deeper (Keeps.inScope hbody _)) fun _ => Keeps.pure _

theorem depth_defineFields (fuel : Nat) (fs : List Field) :
    Keeps Machine.depth (defineFields r fuel fs) := by
  induction fs with
  | nil => exact Keeps.pure _
  | cons f fs ih =>
    refine Keeps.bind (control_optionalExpr (restores_invoke fuel) f.value).depth fun v => ?_
    exact Keeps.bind (Keeps.define f.name v) fun _ => ih

theorem depth_defineMethods (ds : List Method) : Keeps Machine.depth (ds.forM defineMethod) := by
  induction ds with
  | nil => exact Keeps.pure _
  | cons d ds ih => exact Keeps.bind (g := fun _ => ds.forM defineMethod) (fun _ => rfl) fun _ => ih

/-- Running a program keeps scope and depth. -/
theorem control_source (fuel : Nat) (s : Source) : Keeps Machine.control (source r fuel s) := by
  refine Keeps.inChild (Keeps.bind (depth_defineFields fuel s.fields) fun _ => ?_)
  refine Keeps.bind (depth_defineMethods s.methods) fun _ => ?_
  exact (control_call (restores_invoke fuel) "main" []).depth

end

end Eval

/-! ## The methods being called -/

section
variable {r : Registry}

open Eval

/-- Every activity keeps the call depth. -/
theorem depth_run (fuel : Nat) (task : Task) : Keeps Machine.depth (task.run r fuel) := by
  have hinv : Restores (invoke r fuel) := restores_invoke fuel
  cases task with
  | expr e => exact Keeps.discard (control_expr hinv e).depth
  | condition e => exact Keeps.discard (Keeps.boolean (control_expr hinv e).depth)
  | exprs es => exact Keeps.discard (control_exprs hinv es).depth
  | call callable S vs => exact Keeps.discard (hinv callable S vs).depth
  | native body => exact Keeps.discard (Keeps.native body).depth
  | define x v => exact Keeps.define x v
  | parameters ps vs => exact depth_defineParameters ps vs
  | stmt s => exact Keeps.discard (depth_stmt hinv fun ss _ => depth_stmts hinv fuel ss)
  | stmts ss => exact Keeps.discard (depth_stmts hinv fuel ss)
  | rounds x ss n i =>
    refine Keeps.discard (Keeps.forEach (fun i => (Keeps.inChild ?_).depth) n i)
    exact Keeps.bind (Keeps.define x _) fun _ => depth_stmts hinv fuel ss
  | loop e ss n =>
    exact Keeps.discard (Keeps.loop (Keeps.boolean (control_expr hinv e).depth)
      (Keeps.inChild (depth_stmts hinv fuel ss)).depth n)
  | fields fs => exact depth_defineFields fuel fs
  | method d => exact fun _ => rfl
  | methods ds => exact depth_defineMethods ds
  | source s => exact Keeps.discard (control_source fuel s).depth

/-- Whether the task is to call a method of the program. -/
def Task.isMethodCall : Task → Bool
  | .call (.declared _) _ _ => true
  | _ => false

/-- Only a method that is called makes the depth grow, by one, and only below the limit. -/
theorem Starts.depth {c c' : Activity} (h : Starts r c c') :
    c.task.isMethodCall = false ∧ c'.machine.depth = c.machine.depth ∨
      c.task.isMethodCall = true ∧ c.machine.depth ≠ callLimit ∧
        c'.machine.depth = c.machine.depth + 1 := by
  have hinv : ∀ F, Restores (invoke r F) := restores_invoke
  have hstmts : ∀ F ss, Keeps Machine.depth (stmts r (invoke r F) F ss) := fun F ss =>
    depth_stmts (hinv F) F ss
  have hstmt : ∀ F s, Keeps Machine.depth (stmt r (invoke r F) F s) := fun F s =>
    depth_stmt (hinv F) fun ss _ => hstmts F ss
  cases h with
  | parameters _ hd => exact Or.inr ⟨rfl, hd, rfl⟩
  | body _ hd hp =>
    have hdepth := (depth_defineParameters _ _).of_ok hp
    exact Or.inr ⟨rfl, hd, hdepth⟩
  | logicalRight _ he | right _ he | methodArguments he | otherArguments he | assignedField he
  | chosen he | rounds he | loopBody he =>
    have hdepth := (control_expr (hinv _) _).depth.of_ok he
    exact Or.inl ⟨rfl, hdepth⟩
  | callee he _ =>
    have hdepth := (control_exprs (hinv _) _).depth.of_ok he
    exact Or.inl ⟨rfl, hdepth⟩
  | methodBody he hes _ =>
    have hdepth := (control_expr (hinv _) _).depth.of_ok he
    have hdepth' := (control_exprs (hinv _) _).depth.of_ok hes
    exact Or.inl ⟨rfl, hdepth'.trans hdepth⟩
  | declared he | field he | otherFields he =>
    have hdepth := (control_optionalExpr (hinv _) _).depth.of_ok he
    exact Or.inl ⟨rfl, hdepth⟩
  | otherStatements hs =>
    have hdepth := (hstmt _ _).of_ok hs
    exact Or.inl ⟨rfl, hdepth⟩
  | otherRounds hs =>
    have hdepth := (hstmts _ _).of_ok hs
    exact Or.inl ⟨rfl, hdepth⟩
  | loopAgain he hs =>
    have hdepth := (control_expr (hinv _) _).depth.of_ok he
    have hdepth' := (hstmts _ _).of_ok hs
    exact Or.inl ⟨rfl, hdepth'.trans hdepth⟩
  | sourceMethods hf =>
    have hdepth := (depth_defineFields _ _).of_ok hf
    exact Or.inl ⟨rfl, hdepth⟩
  | main hf hm _ =>
    have hdepth := (depth_defineFields _ _).of_ok hf
    have hdepth' := (depth_defineMethods _).of_ok hm
    exact Or.inl ⟨rfl, hdepth'.trans hdepth⟩
  | _ => exact Or.inl ⟨rfl, rfl⟩

/-- The activities in progress at a moment of a run, the last one to start first. -/
inductive InProgress (r : Registry) (c₀ : Activity) : List Activity → Prop
  | start : InProgress r c₀ [c₀]
  | next {c c' cs} : InProgress r c₀ (c :: cs) → Starts r c c' → InProgress r c₀ (c' :: c :: cs)

/-- The number of methods of the program being called. -/
def callsIn (cs : List Activity) : Nat := cs.countP fun c => c.task.isMethodCall

/-- The call depth is the number of methods being called, and stays within the limit. -/
theorem InProgress.depth_eq {c₀ c : Activity} {cs cs' : List Activity}
    (h : InProgress r c₀ cs') (hcs : cs' = c :: cs) (hfresh : c₀.machine.depth = 0) :
    c.machine.depth = callsIn cs ∧ callsIn cs ≤ callLimit := by
  induction h generalizing c cs with
  | start =>
    cases hcs
    exact ⟨hfresh, Nat.zero_le _⟩
  | @next b c' bs _ hstarts ih =>
    cases hcs
    obtain ⟨hdepth, hle⟩ := ih rfl
    rcases hstarts.depth with ⟨hb, hd⟩ | ⟨hb, hlimit, hd⟩
    · rw [hd, hdepth]
      simpa [callsIn, hb] using hle
    · rw [hd, hdepth]
      rw [hdepth] at hlimit
      have hcons : callsIn (b :: bs) = callsIn bs + 1 := by simp [callsIn, hb]
      exact ⟨hcons.symm, by omega⟩

section
variable {fuel : Nat} {d : Method} {S : RunScope} {vs : List Value} {m : Machine}

theorem ofExcept_checkArity (hvs : vs.length = d.arity) :
    Eval.ofExcept (checkArity (Callable.declared d).name vs (Callable.declared d).arity) m =
      .ok () m :=
  ofExcept_eq_ok.2 ⟨checkArity_eq_ok.2 hvs, rfl⟩

theorem invoke_of_limit (hvs : vs.length = d.arity) (hd : m.depth = callLimit) :
    invoke r fuel (.declared d) S vs m = .error (.error (.callDepthExceeded callLimit)) m := by
  rw [invoke.eq_def, bind_of_ok (ofExcept_checkArity hvs)]
  simp only [get_bind, if_pos hd]
  rfl

theorem invoke_zero (hvs : vs.length = d.arity) (hd : m.depth ≠ callLimit) :
    invoke r 0 (.declared d) S vs m = .error .outOfFuel m := by
  rw [invoke.eq_def, bind_of_ok (ofExcept_checkArity hvs)]
  simp only [get_bind, if_neg hd]
  rfl

/-- A method called with the right number of arguments is refused, with nothing done,
    exactly at the limit. -/
theorem refused_iff (hvs : vs.length = d.arity) :
    (invoke r fuel (.declared d) S vs m = .error (.error (.callDepthExceeded callLimit)) m ∧
        ∀ c, ¬Starts r ⟨fuel, .call (.declared d) S vs, m⟩ c) ↔
      m.depth = callLimit := by
  constructor
  · rintro ⟨hinvoke, hnone⟩
    refine Classical.byContradiction fun hd => ?_
    cases fuel with
    | zero =>
      rw [invoke_zero hvs hd] at hinvoke
      cases hinvoke
    | succ fuel => exact hnone _ (.parameters hvs hd)
  · intro hd
    refine ⟨invoke_of_limit hvs hd, fun c hc => ?_⟩
    cases hc with
    | parameters _ hlimit => exact hlimit hd
    | body _ hlimit _ => exact hlimit hd

end

end

section

open Eval

/-- **Control comes back.**  Whatever is done leaves scope and call depth as they were,
    however it ends, except that a declaration that succeeds leaves its name in the scope;
    the depth always is the number of methods being called and within the limit; and a
    method is refused, before any of it is run, exactly at the limit. -/
theorem control_restored (r : Registry) :
    (∀ fuel, (∀ e, Keeps Machine.control (expr r (invoke r fuel) e)) ∧
      (∀ s m, let m' := after (stmt r (invoke r fuel) fuel s) m
        m'.control = m.control ∨ ∃ d c, s = .declare d ∧
          stmt r (invoke r fuel) fuel s m = .ok .normal m' ∧ m'.depth = m.depth ∧
          m'.scope = m.scope.defineVariable d.name c) ∧
      (∀ ss, Keeps Machine.control (inChild (stmts r (invoke r fuel) fuel ss))) ∧
      (∀ x e ss, Keeps Machine.control (stmt r (invoke r fuel) fuel (.forEach x e ss))) ∧
      (∀ callable S vs, Keeps Machine.control (invoke r fuel callable S vs)) ∧
      (∀ s, Keeps Machine.control (source r fuel s))) ∧
    (∀ w fuel task c cs, InProgress r ⟨fuel, task, .ofRegistry r w⟩ (c :: cs) →
      c.machine.depth = callsIn cs ∧ (after (c.task.run r c.fuel) c.machine).depth = callsIn cs ∧
        callsIn cs ≤ callLimit) ∧
    ∀ fuel d S vs m, vs.length = Method.arity d →
      ((invoke r fuel (.declared d) S vs m = .error (.error (.callDepthExceeded callLimit)) m ∧
          ∀ c, ¬Starts r ⟨fuel, .call (.declared d) S vs, m⟩ c) ↔ m.depth = callLimit) := by
  refine ⟨fun fuel => ?_, fun w fuel task c cs h => ?_, fun fuel d S vs m => refused_iff⟩
  · have hinv : Restores (invoke r fuel) := restores_invoke fuel
    have hstmt : ∀ s, (∀ d, s ≠ .declare d) →
        Keeps Machine.control (stmt r (invoke r fuel) fuel s) := fun s hs =>
      control_stmt hinv hs fun ss _ => depth_stmts hinv fuel ss
    refine ⟨control_expr hinv, fun s m => ?_,
      fun ss => Keeps.inChild (depth_stmts hinv fuel ss),
      fun x e ss => hstmt _ (by simp), hinv, control_source fuel⟩
    by_cases hs : ∃ d, s = .declare d
    · obtain ⟨d, rfl⟩ := hs
      obtain h | ⟨hok, hdepth, c, hscope⟩ := control_after_declare (r := r) hinv fuel d m
      · exact Or.inl h
      · exact Or.inr ⟨d, c, rfl, hok, hdepth, hscope⟩
    · exact Or.inl (hstmt s (by simpa using hs) m)
  · obtain ⟨hdepth, hle⟩ := h.depth_eq rfl rfl
    exact ⟨hdepth, (depth_run c.fuel c.task c.machine).trans hdepth, hle⟩

end

end TinyScript
