import TinyScript.Proofs.Machine.Control
import TinyScript.Proofs.Machine.Simulation

/-
  What names stand for.

  Only definitions change what a name stands for, and they change the innermost frame only.
  Methods, blocks and rounds of loops each start with a frame of their own, so whatever an
  expression does, the names it defines stand in frames made since its evaluation has
  started, and a statement adds to the frames before it no more than the name it declares.

  * `Eval.Advances`: a computation comes back to its scope and keeps all variables;
  * `Framing`: what every step of a run keeps, and so everything in the course of an activity;
  * `Frame.Since`: a frame made after a certain number of cells;
  * `Machine.Entered`: a scope made of such frames and of frames from before;
  * `Activity.Local`: an activity defines names in such frames only;
  * `Starts.isLocal`, `During.isLocal`: one that is local starts local ones only;
  * `names_kept`: so evaluation keeps what all names stand for, and assignment writes to
    what its name stands for.
-/

namespace TinyScript

open Eval

/-! ## Variables stay -/

/-- A run beside itself, on machines with at least `n` cells. -/
def Pairing.roomy (n : Nat) : Pairing where
  machines m m' := m = m' ∧ n ≤ m.cells.size
  cells := Eq
  values _ := True

section
variable {r : Registry} {n : Nat} {α : Type} {R : α → α → Prop} {step : Eval α}

/-- A computation corresponds to itself if it keeps what machines have to be like. -/
theorem Pairing.agree_self {p : Pairing} {I : Machine → Prop}
    (hp : ∀ m m', p.machines m m' ↔ m = m' ∧ I m)
    (hR : ∀ a, R a a) (h : ∀ m, I m → I (after step m)) : p.Agree R step step := by
  intro m m' hm
  obtain ⟨rfl, hI⟩ := (hp m m').1 hm
  have hafter := h m hI
  rw [after] at hafter
  cases hs : step m with
  | ok a m₁ =>
    rw [hs] at hafter
    exact .ok (hR a) ((hp _ _).2 ⟨rfl, hafter⟩)
  | error e m₁ =>
    rw [hs] at hafter
    exact .error rfl ((hp _ _).2 ⟨rfl, hafter⟩)

theorem agree_roomy (hR : ∀ a, R a a)
    (h : ∀ m, n ≤ m.cells.size → n ≤ (after step m).cells.size) :
    (Pairing.roomy n).Agree R step step :=
  Pairing.agree_self (fun _ _ => Iff.rfl) hR h

theorem agree_roomy_of_keeps (hR : ∀ a, R a a) (h : Keeps Machine.cells step) :
    (Pairing.roomy n).Agree R step step :=
  agree_roomy hR fun m hm => (h m).symm ▸ hm

/-- What machines have to be like is kept. -/
theorem Pairing.Agree.after {p : Pairing} {I : Machine → Prop}
    (h : p.Agree R step step) (hp : ∀ m m', p.machines m m' ↔ m = m' ∧ I m) {m : Machine}
    (hm : I m) : I (after step m) := by
  have hstep : Related _ _ _ (step m) (step m) := h ((hp m m).2 ⟨rfl, hm⟩)
  rw [Eval.after]
  generalize step m = o at hstep
  cases hstep with
  | ok _ hs => exact ((hp _ _).1 hs).2
  | error _ hs => exact ((hp _ _).1 hs).2

theorem size_le_after {m : Machine} (h : (Pairing.roomy m.cells.size).Agree R step step) :
    m.cells.size ≤ (after step m).cells.size :=
  Pairing.Agree.after h (fun _ _ => Iff.rfl) (Nat.le_refl _)

/-- A computation of the host changes the world only. -/
theorem keeps_of_native {γ : Type} {f : Machine → γ} (hf : ∀ m w, f { m with world := w } = f m)
    (body : Native α) : Keeps f (native body) := by
  intro m
  rw [after, Eval.native]
  cases body m.world <;> exact hf _ _

theorem cells_native (body : Native α) : Keeps Machine.cells (native body) :=
  keeps_of_native (fun _ _ => rfl) body

theorem agree_roomy_inScope {β : Type} {Q : α → β → Prop} {step' : Eval β} (T : RunScope)
    (h : (Pairing.roomy n).Agree Q step step') :
    (Pairing.roomy n).Agree Q (inScope T step) (inScope T step') := by
  rintro m _ ⟨rfl, hm⟩
  refine related_inScope (h ⟨rfl, hm⟩) ?_
  rintro m₁ _ ⟨rfl, hm₁⟩
  exact ⟨rfl, hm₁⟩

theorem agree_roomy_deeper {β : Type} {Q : α → β → Prop} {step' : Eval β}
    (h : (Pairing.roomy n).Agree Q step step') :
    (Pairing.roomy n).Agree Q (deeper step) (deeper step') := by
  rintro m _ ⟨rfl, hm⟩
  refine related_deeper (h ⟨rfl, hm⟩) ?_
  rintro m₁ _ ⟨rfl, hm₁⟩
  exact ⟨rfl, hm₁⟩

theorem same_roomy (v : Value) : (Pairing.roomy n).Same v v := ⟨rfl, trivial⟩

/-- Everything but calls. -/
theorem simulates_roomy_of_calls {inv : Invoke}
    (hcall : ∀ c T vs, (Pairing.roomy n).Agree (Pairing.roomy n).Same (inv c T vs) (inv c T vs)) :
    Simulates (Pairing.roomy n) r r inv inv where
  literal _ := trivial
  boolean _ := trivial
  integer _ := trivial
  cell x := agree_roomy_of_keeps (fun _ => rfl) (Keeps.cell x)
  load := by
    rintro c _ rfl
    exact agree_roomy_of_keeps same_roomy (Keeps.bind Keeps.get fun _ => Keeps.pure _)
  store := by
    rintro c _ v rfl -
    refine agree_roomy (fun _ => trivial) fun m hm => ?_
    simpa [after] using hm
  define x v _ := by
    refine agree_roomy (fun _ => trivial) fun m hm => ?_
    simpa [after, Machine.define] using Nat.le_succ_of_le hm
  operator o a b _ _ :=
    agree_roomy_of_keeps same_roomy (Keeps.bind Keeps.get fun _ => Keeps.lift _)
  field _ x := by
    refine agree_roomy_of_keeps same_roomy (Keeps.bind (Keeps.ofExcept _) fun _ => ?_)
    exact Keeps.bind Keeps.get fun _ => Keeps.ofExcept _
  setField _ _ x := agree_roomy_of_keeps (fun _ => trivial) (cells_native _)
  method _ _ x :=
    agree_roomy_of_keeps same_roomy (Keeps.bind (Keeps.ofExcept _) fun _ => cells_native _)
  call {vs} _ x _ := by
    rintro m _ ⟨rfl, hm⟩
    show Related _ _ _ (Eval.call inv x vs m) (Eval.call inv x vs m)
    rw [Eval.call, get_bind]
    cases m.scope.findFunction? x vs.length with
    | none => exact .error rfl ⟨rfl, hm⟩
    | some found => exact hcall found.1 found.2 vs ⟨rfl, hm⟩
  inChild hxy := by
    rintro m _ ⟨rfl, hm⟩
    exact agree_roomy_inScope m.scope.child hxy ⟨rfl, hm⟩

/-- Calls keep all cells. -/
theorem agree_roomy_invoke (F : Nat) (c : Callable) (T : RunScope) (vs : List Value) :
    (Pairing.roomy n).Agree (Pairing.roomy n).Same (invoke r F c T vs) (invoke r F c T vs) := by
  rw [invoke.eq_def]
  refine Relates.bind (agree_roomy_of_keeps (R := fun _ _ => True) (fun _ => trivial)
    (Keeps.ofExcept _)) fun _ _ _ => ?_
  cases c with
  | native g => exact agree_roomy_of_keeps same_roomy (cells_native _)
  | declared d =>
    rintro m _ ⟨rfl, hm⟩
    simp only [get_bind]
    split
    · exact .error rfl ⟨rfl, hm⟩
    · cases F with
      | zero => exact .error rfl ⟨rfl, hm⟩
      | succ F =>
        have hsim : Simulates (Pairing.roomy n) r r (invoke r F) (invoke r F) :=
          simulates_roomy_of_calls fun c T vs => agree_roomy_invoke F c T vs
        refine Related.bind (agree_roomy_deeper (agree_roomy_inScope T.child (hsim.methodBody
          d.parameters d.body (.of_all fun _ _ => trivial) (fun _ _ => trivial)
          (.inl rfl))) ⟨rfl, hm⟩) ?_
        rintro completion _ ⟨rfl, hv⟩
        exact Relates.pure ⟨rfl, hv⟩

theorem simulates_roomy (F n : Nat) :
    Simulates (Pairing.roomy n) r r (invoke r F) (invoke r F) :=
  simulates_roomy_of_calls fun c T vs => agree_roomy_invoke F c T vs

end

/-- The scope is the same, and no variable has disappeared. -/
structure Machine.Later (m m' : Machine) : Prop where
  scope : m'.scope = m.scope
  cells : m.cells.size ≤ m'.cells.size

/-- The computation comes back to its scope and keeps all variables, however it ends. -/
def Eval.Advances {α : Type} (step : Eval α) : Prop :=
  ∀ m : Machine, m.Later (after step m)

section
variable {r : Registry} {F : Nat}

theorem Machine.Later.trans {m m₁ m₂ : Machine} (h : m.Later m₁) (h' : m₁.Later m₂) :
    m.Later m₂ :=
  ⟨h'.scope.trans h.scope, Nat.le_trans h.cells h'.cells⟩

theorem Eval.Advances.of_ok {α : Type} {step : Eval α} {a : α} {m m' : Machine}
    (h : Advances step) (hs : step m = .ok a m') : m.Later m' :=
  after_of_ok hs ▸ h m

theorem advances_of_control {α : Type} {R : Nat → α → α → Prop} {step : Eval α}
    (hcontrol : Keeps Machine.control step)
    (hcells : ∀ n, (Pairing.roomy n).Agree (R n) step step) : Advances step :=
  fun m => ⟨(Machine.control_eq_iff.1 (hcontrol m)).1, size_le_after (hcells _)⟩

theorem advances_expr (e : Expr) : Advances (expr r (invoke r F) e) :=
  advances_of_control (control_expr (restores_invoke F) e) fun n =>
    (simulates_roomy F n).expr e (.of_all fun _ _ => trivial)

theorem advances_exprs (es : List Expr) : Advances (exprs r (invoke r F) es) :=
  advances_of_control (control_exprs (restores_invoke F) es) fun n =>
    (simulates_roomy F n).exprs es (.of_all fun _ _ => trivial)

theorem advances_optionalExpr (value : Option Expr) :
    Advances (optionalExpr r (invoke r F) value) := by
  cases value with
  | none => exact fun m => ⟨rfl, Nat.le_refl _⟩
  | some e => exact advances_expr e

theorem cells_stmts (ss : List Stmt) (m : Machine) :
    m.cells.size ≤ (after (stmts r (invoke r F) F ss) m).cells.size :=
  size_le_after ((simulates_roomy F _).stmts ss (.of_all fun _ _ => trivial) (.inl rfl))

/-- A statement that declares nothing comes back to its scope. -/
theorem advances_stmt {s : Stmt} (hs : ∀ d, s ≠ .declare d) :
    Advances (stmt r (invoke r F) F s) := by
  have hinv : Restores (invoke r F) := restores_invoke F
  exact advances_of_control (control_stmt hinv hs fun ss _ => depth_stmts hinv F ss) fun n =>
    (simulates_roomy F n).stmt s (.of_all fun _ _ => trivial) (.inl rfl)

/-- What a declaration does. -/
theorem declare_eq_ok {d : Declaration} {k : Completion} {m m' : Machine} :
    stmt r (invoke r F) F (.declare d) m = .ok k m' ↔
      ∃ v m₁, optionalExpr r (invoke r F) d.value m = .ok v m₁ ∧ k = .normal ∧
        m' = m₁.define d.name v := by
  simp only [stmt, bind_eq_ok, define_apply, pure_apply, EStateM.Result.ok.injEq]
  constructor
  · rintro ⟨v, m₁, hv, _, _, ⟨-, rfl⟩, rfl, rfl⟩
    exact ⟨v, m₁, hv, rfl, rfl⟩
  · rintro ⟨v, m₁, hv, rfl, rfl⟩
    exact ⟨v, m₁, hv, (), _, ⟨trivial, rfl⟩, rfl, rfl⟩

theorem declare_eq_error {d : Declaration} {e : Stop} {m m' : Machine} :
    stmt r (invoke r F) F (.declare d) m = .error e m' ↔
      optionalExpr r (invoke r F) d.value m = .error e m' := by
  simp only [stmt, bind_eq_error, define_apply, pure_apply]
  simp

/-- What an assignment to a variable does. -/
theorem assign_var_eq_ok {n : Node} {x : String} {e : Expr} {k : Completion} {m m' : Machine} :
    stmt r (invoke r F) F (.assign (.var n x) e) m = .ok k m' ↔
      ∃ c v m₁, m.cell? x = some c ∧ expr r (invoke r F) e m = .ok v m₁ ∧ k = .normal ∧
        m' = { m₁ with cells := m₁.cells.setIfInBounds c v } := by
  simp only [stmt, assign, bind_eq_ok, cell_eq_ok, store_apply, pure_apply, EStateM.Result.ok.injEq]
  constructor
  · rintro ⟨_, _, ⟨c, _, ⟨hc, rfl⟩, v, m₁, hv, -, rfl⟩, rfl, rfl⟩
    exact ⟨c, v, m₁, hc, hv, rfl, rfl⟩
  · rintro ⟨c, v, m₁, hc, hv, rfl, rfl⟩
    exact ⟨(), _, ⟨c, m, ⟨hc, rfl⟩, v, m₁, hv, trivial, rfl⟩, rfl, rfl⟩

end

/-! ## What holds in the course of an activity -/

/-- What every step of a run keeps: `I` of machines, `J` of those whose innermost frame is
    there to be defined in, and `C` of functions that are called. -/
structure Framing (I J : Machine → Prop) (C : Callable → RunScope → Prop) : Prop where
  own : ∀ {m}, J m → I m
  later : ∀ {m m'}, I m → m.Later m' → I m'
  ownLater : ∀ {m m'}, J m → m.Later m' → J m'
  child : ∀ {m}, I m → J { m with scope := m.scope.child }
  define : ∀ {m}, J m → ∀ x v, J (m.define x v)
  callee : ∀ {m f k c S}, I m → m.scope.findFunction? f k = some (c, S) → C c S
  call : ∀ {m d S}, I m → C (.declared d) S → ∀ depth, J { m with scope := S.child, depth }

/-- What holds of the machine and the functions of a task, other than one that defines the
    names of a program. -/
def Task.Framed (I J : Machine → Prop) (C : Callable → RunScope → Prop) (m : Machine) :
    Task → Prop
  | .define .. | .parameters .. | .stmts _ | .stmt (.declare _) => J m
  | .call callable closure _ => I m ∧ C callable closure
  | .fields _ | .method _ | .methods _ | .source _ => False
  | _ => I m

/-- The same of an activity. -/
def Activity.Framed (I J : Machine → Prop) (C : Callable → RunScope → Prop) (c : Activity) :
    Prop :=
  c.task.Framed I J C c.machine

section
variable {r : Registry} {F : Nat} {I J : Machine → Prop} {C : Callable → RunScope → Prop}
  {m m' : Machine}

/-- Going back from statements to the scope before them. -/
theorem later_of_stmts {ss : List Stmt} {k : Completion} {m₁ : Machine}
    (hs : Eval.stmts r (invoke r F) F ss m₁ = .ok k m') (hm : m.cells.size ≤ m₁.cells.size) :
    m.Later { m' with scope := m.scope } where
  scope := rfl
  cells := by
    have hcells := cells_stmts (r := r) (F := F) ss m₁
    rw [after_of_ok hs] at hcells
    exact Nat.le_trans hm hcells

namespace Framing

/-- Binding parameters defines names in the frame it finds. -/
theorem parameters (hf : Framing I J C) {ps : List Parameter} {vs : List Value} (h : J m)
    (hp : defineParameters ps vs m = .ok () m') : J m' := by
  induction ps generalizing vs m with
  | nil =>
    cases hp
    exact h
  | cons p ps ih =>
    cases vs with
    | nil =>
      cases hp
      exact h
    | cons v vs =>
      rw [defineParameters, bind_of_ok (define_apply p.name v m)] at hp
      exact ih (hf.define h p.name v) hp

/-- A statement defines names in the frame it finds. -/
theorem stmt (hf : Framing I J C) {s : Stmt} {k : Completion} (h : J m)
    (hs : Eval.stmt r (invoke r F) F s m = .ok k m') : J m' := by
  by_cases hd : ∃ d, s = .declare d
  · obtain ⟨d, rfl⟩ := hd
    obtain ⟨v, m₁, hv, -, rfl⟩ := declare_eq_ok.1 hs
    exact hf.define (hf.ownLater h ((advances_optionalExpr d.value).of_ok hv)) d.name v
  · exact hf.ownLater h ((advances_stmt (by simpa using hd)).of_ok hs)

theorem task_stmt (hf : Framing I J C) (h : J m) (s : Stmt) : (Task.stmt s).Framed I J C m := by
  cases s with
  | declare d => exact h
  | _ => exact hf.own h

/-- **What holds of an activity holds of those that it starts.** -/
theorem starts (hf : Framing I J C) {c c' : Activity} (h : Starts r c c')
    (hc : c.Framed I J C) : c'.Framed I J C := by
  cases h with
  | inner | logicalLeft _ | left _ | fieldOwner | arguments | methodOwner | condition | argument
  | expression | assigned _ | assignedOwner | choice | iterable | loop | returned
  | loopCondition => exact hc
  | initialValue _ => exact hf.own hc
  | nativeBody _ => exact hc.1
  | logicalRight _ hv | right _ hv | methodArguments hv | otherArguments hv | assignedField hv
  | rounds hv => exact hf.later hc ((advances_expr _).of_ok hv)
  | methodBody hv hvs _ =>
    exact hf.later hc (((advances_expr _).of_ok hv).trans ((advances_exprs _).of_ok hvs))
  | callee hvs hfound =>
    have hm₁ := hf.later hc ((advances_exprs _).of_ok hvs)
    exact ⟨hm₁, hf.callee hm₁ hfound⟩
  | parameters _ _ => exact hf.call hc.1 hc.2 _
  | body _ _ hp => exact hf.parameters (hf.call hc.1 hc.2 _) hp
  | parameter => exact hc
  | otherParameters => exact hf.define hc _ _
  | declared hv => exact hf.ownLater hc ((advances_optionalExpr _).of_ok hv)
  | chosen hv | loopBody hv => exact hf.child (hf.later hc ((advances_expr _).of_ok hv))
  | statement => exact hf.task_stmt hc _
  | otherStatements hs => exact hf.stmt hc hs
  | roundVariable => exact hf.child hc
  | round => exact hf.define (hf.child hc) _ _
  | otherRounds hs => exact hf.later hc (later_of_stmts hs (by simp [Machine.define]))
  | loopAgain hv hs =>
    have hm₁ := (advances_expr _).of_ok hv
    exact hf.later hc (hm₁.trans (later_of_stmts hs (Nat.le_refl _)))
  | fieldValue _ | field _ | otherFields _ | method | otherMethods | sourceFields
  | sourceMethods _ | main _ _ _ => exact hc.elim

/-- What holds of an activity holds of everything that happens in its course. -/
theorem during (hf : Framing I J C) {c c' : Activity} (h : During r c c')
    (hc : c.Framed I J C) : c'.Framed I J C := by
  induction h with
  | refl => exact hc
  | tail _ hstarts ih => exact hf.starts hstarts ih

end Framing

end

/-! ## Frames made since -/

/-- A frame made since there were `n` cells: it has no functions, and only later variables. -/
structure Frame.Since (n : Nat) (f : Frame Nat Callable) : Prop where
  functions : ∀ x k, f.functions x k = none
  vars : ∀ x c, f.vars x = some c → n ≤ c

/-- The scope of `m` has the frames `news`, made since `old`, inside a scope that `old` was
    in. -/
structure Machine.Entered (old m : Machine) (news base : RunScope) : Prop where
  scope : m.scope = news ++ base
  news : ∀ f ∈ news, f.Since old.cells.size
  base : base <:+ old.scope
  cells : old.cells.size ≤ m.cells.size

/-- The task defines no names but in the frames `news`, and calls no functions but those of
    scopes that `old` was in. -/
def Task.Local (old : Machine) (news : RunScope) : Task → Prop
  | .define .. | .parameters .. | .stmts _ | .stmt (.declare _) => news ≠ []
  | .call _ closure _ => closure <:+ old.scope
  | .fields _ | .method _ | .methods _ | .source _ => False
  | _ => True

/-- The activity defines names only in frames made since `old`. -/
def Activity.Local (old : Machine) (c : Activity) : Prop :=
  ∃ news base, old.Entered c.machine news base ∧ c.task.Local old news

theorem Frame.Since.empty (n : Nat) : Frame.Since n {} := ⟨fun _ _ => rfl, nofun⟩

theorem Frame.Since.defineVariable {n c : Nat} {f : Frame Nat Callable} (h : f.Since n)
    (x : String) (hc : n ≤ c) : (f.defineVariable x c).Since n where
  functions := h.functions
  vars y c' hy := by
    rw [Frame.vars_defineVariable] at hy
    split at hy
    · cases hy
      exact hc
    · exact h.vars y c' hy

/-- A function found in a scope is found outside all frames that have none. -/
theorem findFunction?_append {n k : Nat} {f : String} {news : RunScope}
    (h : ∀ g ∈ news, g.Since n) (base : RunScope) :
    Scope.findFunction? (news ++ base) f k = Scope.findFunction? base f k := by
  induction news with
  | nil => rfl
  | cons g news ih =>
    obtain ⟨hg, hnews⟩ := List.forall_mem_cons.1 h
    rw [List.cons_append, Scope.findFunction?, hg.functions f k]
    exact ih hnews

theorem suffix_of_findFunction? {f : String} {k : Nat} {c : Callable} {closure : RunScope} :
    {S : RunScope} → S.findFunction? f k = some (c, closure) → closure <:+ S
  | [], h => nomatch h
  | g :: S, h => by
    rw [Scope.findFunction?] at h
    split at h
    · cases h
      exact List.suffix_refl _
    · exact (suffix_of_findFunction? h).trans (List.suffix_cons g S)

namespace Machine.Entered

variable {old m m' : Machine} {news base : RunScope} {f : Frame Nat Callable}

theorem refl (m : Machine) : m.Entered m [] m.scope :=
  ⟨rfl, List.forall_mem_nil _, List.suffix_refl _, Nat.le_refl _⟩

theorem later (h : old.Entered m news base) (hm : m.Later m') : old.Entered m' news base :=
  ⟨hm.scope.trans h.scope, h.news, h.base, Nat.le_trans h.cells hm.cells⟩

theorem child (h : old.Entered m news base) :
    old.Entered { m with scope := m.scope.child } ({} :: news) base where
  scope := congrArg (_ :: ·) h.scope
  news := List.forall_mem_cons.2 ⟨.empty _, h.news⟩
  base := h.base
  cells := h.cells

theorem define (h : old.Entered m (f :: news) base) (x : String) (v : Value) :
    old.Entered (m.define x v) (f.defineVariable x m.cells.size :: news) base where
  scope := by
    show m.scope.defineVariable x m.cells.size = _
    rw [h.scope]
    rfl
  news := by
    obtain ⟨hf, hnews⟩ := List.forall_mem_cons.1 h.news
    exact List.forall_mem_cons.2 ⟨hf.defineVariable x h.cells, hnews⟩
  base := h.base
  cells := by
    show _ ≤ (m.cells.push v).size
    rw [Array.size_push]
    exact Nat.le_succ_of_le h.cells

/-- A method of the program gets a frame of its own, inside its closure. -/
theorem call {closure : RunScope} (h : old.Entered m news base) (hS : closure <:+ old.scope)
    (depth : Nat) : old.Entered { m with scope := closure.child, depth } [{}] closure where
  scope := rfl
  news := by simpa using Frame.Since.empty _
  base := hS
  cells := h.cells

theorem closure (h : old.Entered m news base) {f : String} {k : Nat} {c : Callable}
    {S : RunScope} (hf : m.scope.findFunction? f k = some (c, S)) : S <:+ old.scope := by
  rw [h.scope, findFunction?_append h.news] at hf
  exact (suffix_of_findFunction? hf).trans h.base

end Machine.Entered

/-! ## What is started is local -/

section
variable {r : Registry} {F : Nat} {old m : Machine}

/-- Frames made since, inside frames from before. -/
theorem framing_entered (old : Machine) :
    Framing (fun m => ∃ news base, old.Entered m news base)
      (fun m => ∃ news base, old.Entered m news base ∧ news ≠ [])
      (fun _ S => S <:+ old.scope) where
  own := fun ⟨news, base, h, _⟩ => ⟨news, base, h⟩
  later := fun ⟨news, base, h⟩ hm => ⟨news, base, h.later hm⟩
  ownLater := fun ⟨news, base, h, hne⟩ hm => ⟨news, base, h.later hm, hne⟩
  child := fun ⟨_, base, h⟩ => ⟨_, base, h.child, List.cons_ne_nil _ _⟩
  define := by
    rintro m ⟨news, base, h, hne⟩ x v
    obtain ⟨f, news, rfl⟩ := List.exists_cons_of_ne_nil hne
    exact ⟨_, base, h.define x v, List.cons_ne_nil _ _⟩
  callee := fun ⟨_, _, h⟩ hfound => h.closure hfound
  call := fun ⟨_, _, h⟩ hS depth => ⟨_, _, h.call hS depth, List.cons_ne_nil _ _⟩

theorem Activity.local_iff_framed {c : Activity} :
    c.Local old ↔ c.Framed (fun m => ∃ news base, old.Entered m news base)
      (fun m => ∃ news base, old.Entered m news base ∧ news ≠ [])
      (fun _ S => S <:+ old.scope) := by
  obtain ⟨F, task, m⟩ := c
  show (∃ news base, old.Entered m news base ∧ task.Local old news) ↔ task.Framed _ _ _ m
  cases task with
  | stmt s => cases s <;> simp [Task.Local, Task.Framed]
  | _ => simp [Task.Local, Task.Framed]

/-- What a local activity starts is local. -/
theorem Starts.isLocal {c c' : Activity} (h : Starts r c c') (hc : c.Local old) :
    c'.Local old :=
  Activity.local_iff_framed.2 ((framing_entered old).starts h (Activity.local_iff_framed.1 hc))

/-- Everything that happens in the course of a local activity is local. -/
theorem During.isLocal {c c' : Activity} (h : During r c c') (hc : c.Local old) :
    c'.Local old :=
  Activity.local_iff_framed.2 ((framing_entered old).during h (Activity.local_iff_framed.1 hc))

theorem local_expr (F : Nat) (e : Expr) (m : Machine) : Activity.Local m ⟨F, .expr e, m⟩ :=
  ⟨[], m.scope, .refl m, trivial⟩

theorem local_stmt (F : Nat) {s : Stmt} (hs : ∀ d, s ≠ .declare d) (m : Machine) :
    Activity.Local m ⟨F, .stmt s, m⟩ := by
  refine ⟨[], m.scope, .refl m, ?_⟩
  cases s with
  | declare d => exact absurd rfl (hs d)
  | _ => trivial

/-- In the course of a declaration there is one activity that is not local: its own
    definition. -/
theorem local_declare {d : Declaration} {c : Activity}
    (h : During r ⟨F, .stmt (.declare d), m⟩ c) :
    c.Local m ∨ c = ⟨F, .stmt (.declare d), m⟩ ∨
      ∃ v m₁, optionalExpr r (invoke r F) d.value m = .ok v m₁ ∧ c = ⟨F, .define d.name v, m₁⟩ := by
  rcases Relation.ReflTransGen.cases_head h with rfl | ⟨c₁, hstarts, hduring⟩
  · exact Or.inr (Or.inl rfl)
  · cases hstarts with
    | initialValue _ => exact Or.inl (During.isLocal hduring (local_expr F _ m))
    | @declared _ _ m₁ _ v hv =>
      -- A definition starts nothing.
      rcases Relation.ReflTransGen.cases_head hduring with rfl | ⟨c₂, hnone, -⟩
      · exact Or.inr (Or.inr ⟨v, m₁, hv, rfl⟩)
      · cases hnone

end

/-! ## Names -/

/-- A cell that is overwritten holds the new value. -/
theorem Machine.lookup?_store {m : Machine} {x : String} {c : Nat} (hc : m.cell? x = some c)
    (hlt : c < m.cells.size) (v : Value) :
    ({ m with cells := m.cells.setIfInBounds c v } : Machine).lookup? x = some v := by
  show (m.cell? x).bind _ = _
  simp [hc, hlt]

/-- **Expressions rebind nothing.**  Evaluation leaves the scope as it was, however it ends,
    and whatever happens in its course defines names in frames made since.  So does every
    statement except a declaration, and a declaration except for its own name, which it
    defines in the scope before it, and only if it succeeds.  Hence an assignment to a
    variable overwrites the one that the name stands for after its value has been evaluated,
    and does nothing else. -/
theorem names_kept (r : Registry) (fuel : Nat) :
    (∀ e m, let m' := after (expr r (invoke r fuel) e) m
      m'.scope = m.scope ∧ m'.depth = m.depth ∧ m.cells.size ≤ m'.cells.size ∧
        ∀ c, During r ⟨fuel, .expr e, m⟩ c → c.Local m) ∧
    (∀ s m, (∀ d, s ≠ .declare d) →
      (after (stmt r (invoke r fuel) fuel s) m).scope = m.scope ∧
        ∀ c, During r ⟨fuel, .stmt s, m⟩ c → c.Local m) ∧
    (∀ d m,
      ((∃ e m', stmt r (invoke r fuel) fuel (.declare d) m = .error e m' ∧ m'.scope = m.scope) ∨
        ∃ v m₁, optionalExpr r (invoke r fuel) d.value m = .ok v m₁ ∧
          stmt r (invoke r fuel) fuel (.declare d) m = .ok .normal (m₁.define d.name v) ∧
          (m₁.define d.name v).scope = m.scope.defineVariable d.name m₁.cells.size) ∧
      ∀ c, During r ⟨fuel, .stmt (.declare d), m⟩ c →
        c.Local m ∨ c = ⟨fuel, .stmt (.declare d), m⟩ ∨
          ∃ v m₁, optionalExpr r (invoke r fuel) d.value m = .ok v m₁ ∧
            c = ⟨fuel, .define d.name v, m₁⟩) ∧
    ∀ n x e m k m', stmt r (invoke r fuel) fuel (.assign (.var n x) e) m = .ok k m' →
      ∃ c v m₁, expr r (invoke r fuel) e m = .ok v m₁ ∧ m₁.cell? x = some c ∧
        m' = { m₁ with cells := m₁.cells.setIfInBounds c v } ∧
        (m.lookup? x ≠ none → m'.lookup? x = some v) := by
  refine ⟨fun e m => ?_, fun s m hs => ?_, fun d m => ⟨?_, fun c => local_declare⟩,
    fun n x e m k m' h => ?_⟩
  · obtain ⟨hscope, hdepth⟩ := Machine.control_eq_iff.1
      (control_expr (r := r) (restores_invoke fuel) e m)
    exact ⟨hscope, hdepth, (advances_expr e m).cells, fun c h => During.isLocal h (local_expr fuel e m)⟩
  · exact ⟨(advances_stmt hs m).scope, fun c h => During.isLocal h (local_stmt fuel hs m)⟩
  · cases hv : optionalExpr r (invoke r fuel) d.value m with
    | ok v m₁ =>
      have hscope := ((advances_optionalExpr d.value).of_ok hv).scope
      refine Or.inr ⟨v, m₁, rfl, declare_eq_ok.2 ⟨v, m₁, hv, rfl, rfl⟩, ?_⟩
      rw [Machine.define, hscope]
    | error e m₁ =>
      have hlater := advances_optionalExpr (r := r) (F := fuel) d.value m
      rw [after_of_error hv] at hlater
      exact Or.inl ⟨e, m₁, declare_eq_error.2 hv, hlater.scope⟩
  · obtain ⟨c, v, m₁, hc, hv, -, rfl⟩ := assign_var_eq_ok.1 h
    have hlater := (advances_expr e).of_ok hv
    have hc₁ : m₁.cell? x = some c := by rw [Machine.cell?, hlater.scope, ← Machine.cell?, hc]
    refine ⟨c, v, m₁, hv, hc₁, rfl, fun hx => Machine.lookup?_store hc₁ ?_ v⟩
    refine Nat.lt_of_lt_of_le ?_ hlater.cells
    simpa [Machine.lookup?, hc] using hx

/-- A method with a variable of its own named `x`. -/
def shadower : Method where
  node := default
  name := "f"
  parameters := []
  resultName := none
  body := [.declare ⟨default, "x", none, some (.literal default (.integer 2))⟩,
    .ret 0 (.var default "x")]

/-- A machine with this method, and with a variable `x`. -/
def shadowed : Machine :=
  ({ scope := Scope.root.defineFunction "f" 0 (.declared shadower) } : Machine).define "x" (.integer 1)

/-- `x = f()` writes to the outer `x`. -/
theorem names_kept_shadowed :
    let s := Stmt.assign (.var default "x") (.call default "f" [])
    ∃ m', stmt .standard (invoke .standard 1) 1 s shadowed = .ok .normal m' ∧
      m'.scope = shadowed.scope ∧ shadowed.lookup? "x" ≠ none ∧
      m'.lookup? "x" = some (.integer 2) ∧
      Activity.Local shadowed ⟨1, .stmt s, shadowed⟩ := by
  intro s
  have hvalue : expr .standard (invoke .standard 1) (.call default "f" []) shadowed =
      .ok (.integer 2) { shadowed with cells := #[.integer 1, .integer 2] } := rfl
  have hs : stmt .standard (invoke .standard 1) 1 s shadowed =
      .ok .normal { shadowed with cells := #[.integer 2, .integer 2] } := rfl
  obtain ⟨-, hstmt, -, hassign⟩ := names_kept .standard 1
  obtain ⟨hscope, hlocal⟩ := hstmt s shadowed nofun
  obtain ⟨c, v, m₁, hv, -, -, hx⟩ := hassign _ _ _ _ _ _ hs
  rw [hvalue] at hv
  cases hv
  have hone : shadowed.lookup? "x" ≠ none := by decide
  rw [after_of_ok hs] at hscope
  exact ⟨_, hs, hscope, hone, hx hone, hlocal _ .refl⟩

end TinyScript
