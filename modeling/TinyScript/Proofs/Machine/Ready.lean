import TinyScript.Proofs.Machine.Origin
import TinyScript.Proofs.Machine.Preservation
import TinyScript.Proofs.Typing.SourceChecker

/-
  Every activity of an accepted program starts in good order.

  `Activity.Ready` says for each task what holds when it starts: the machine
  respects the discipline and stands at the scope that analysis had, the tree obeys
  the rules in that scope, and names about to be defined are new.  An activity that
  is ready starts only activities that are (`Starts.ready`), so all activities of a
  run are ready if the run is (`During.ready`).
-/

namespace TinyScript

open Eval

variable {r : Registry} {a : Analysis}

/-- The machine respects the discipline and stands at a scope of analysis. -/
structure Machine.At (D : Discipline r a) (Δ : List Ty) (Γ : Scope Ty Signature)
    (m : Machine) : Prop where
  typed : m.Typed D Δ
  scope : m.scope.Matches r a D.Covers Δ Γ

/-- The computation is a body of a function or method of the registry, applied to
    arguments. -/
def Registry.Provides (r : Registry) (body : Native Value) : Prop :=
  (∃ f ∈ r.functions.map Prod.snd, ∃ vs, body = f.body vs) ∨
    ∃ type x k f ref vs, (r.describe type).method? x k = some f ∧ body = f.body (.object ref :: vs)

/-- The scope may still get variables, and the parts leave nothing without a value. -/
structure Discipline.Admits (D : Discipline r a) (Γ : Scope Ty Signature) (ps : List Part) :
    Prop where
  plain : Γ.Plain
  covers : ∀ p ∈ ps, D.Covers p

/-- What holds when a task starts. -/
def Activity.Ready (D : Discipline r a) (c : Activity) : Prop :=
  match c.task with
  | .expr e => ∃ Δ Γ, c.machine.At D Δ Γ ∧ e.Sound r a Γ
  | .condition e =>
    ∃ Δ Γ, c.machine.At D Δ Γ ∧ e.Sound r a Γ ∧ a.types[e.id]? = some .boolean
  | .exprs es => ∃ Δ Γ, c.machine.At D Δ Γ ∧ ∀ e ∈ es, e.Sound r a Γ
  | .call callable S vs => ∃ Δ Γ signature, c.machine.Typed D Δ ∧ S.Matches r a D.Covers Δ Γ ∧
      callable.Implements r a D.Covers Γ signature ∧
      List.Forall₂ (D.val c.machine.world) signature.parameters vs
  | .native body => D.world c.machine.world ∧ r.Provides body
  | .define x _ =>
    D.world c.machine.world ∧ c.machine.scope.hasLocalVariable x = false
  | .parameters ps vs => ∃ Δ Γ Γ' ts, c.machine.At D Δ Γ ∧ Γ.Plain ∧
      Parameters.Scoped Γ ps ts Γ' ∧ List.Forall₂ (D.val c.machine.world) ts vs
  | .stmt s => ∃ Δ Γ Γ' result, c.machine.At D Δ Γ ∧ D.Admits Γ s.parts ∧
      Stmt.Scoped r a result Γ s Γ'
  | .stmts ss => ∃ Δ Γ Γ' result, c.machine.At D Δ Γ ∧ D.Admits Γ (Stmt.partsList ss) ∧
      Stmts.Scoped r a result Γ ss Γ'
  | .rounds x ss _ _ => ∃ Δ Γ Γ' result, c.machine.At D Δ Γ ∧ D.Admits Γ (Stmt.partsList ss) ∧
      Stmts.Scoped r a result (Γ.child.defineVariable x .integer) ss Γ'
  | .loop e ss _ => ∃ Δ Γ Γ' result, c.machine.At D Δ Γ ∧ D.Admits Γ (Stmt.partsList ss) ∧
      e.Sound r a Γ ∧ a.types[e.id]? = some .boolean ∧ Stmts.Scoped r a result Γ.child ss Γ'
  | .fields fs => ∃ Δ Γ Γ', c.machine.At D Δ Γ ∧ D.Admits Γ (fs.flatMap Field.parts) ∧
      Fields.Scoped r a Γ fs Γ'
  | .method d =>
    D.world c.machine.world ∧ c.machine.scope.hasLocalFunction d.name d.arity = false
  | .methods ds => ∃ Δ Γ Γ', c.machine.Typed D Δ ∧ c.machine.scope.Defining r a D.Covers Δ Γ ds Γ'
  | .source s => c.machine.At D [] (CheckState.ofRegistry r).scope ∧ s.Checked r a ∧
      ∀ p ∈ s.parts, D.Covers p

section
variable {D : Discipline r a} {Δ : List Ty} {Γ Γ' : Scope Ty Signature} {F : Nat}
  {m m₁ : Machine}

namespace Discipline.Admits

variable {ps : List Part}

theorem child (h : D.Admits Γ ps) : D.Admits Γ.child ps := ⟨.child Γ, h.covers⟩

theorem define (h : D.Admits Γ ps) (x : String) (t : Ty) : D.Admits (Γ.defineVariable x t) ps :=
  ⟨h.plain.defineVariable x t, h.covers⟩

/-- A variable without initial value has a type that `NIL` may stand for. -/
theorem declaration {d : Declaration} (h : D.Admits Γ (Stmt.declare d).parts) {t : Ty}
    (ht : a.declarations[d.node.id]? = some t) : d.value = none → D.AllowsNil t :=
  fun hnone => h.covers (.declaration d) (by simp [Stmt.parts]) hnone t ht

theorem field {f : Field} {fs : List Field} (h : D.Admits Γ ((f :: fs).flatMap Field.parts))
    {t : Ty} (ht : a.declarations[f.node.id]? = some t) : f.value = none → D.AllowsNil t :=
  fun hnone => h.covers (.field f) (by simp [Field.parts]) hnone t ht

variable {e : Expr} {x : String} {st : Stmt} {ss ss' : List Stmt}

theorem thenBody (h : D.Admits Γ (Stmt.branch e ss ss').parts) : D.Admits Γ (Stmt.partsList ss) :=
  ⟨h.plain, fun p hp => h.covers p (by simp [Stmt.parts, hp])⟩

theorem elseBody (h : D.Admits Γ (Stmt.branch e ss ss').parts) :
    D.Admits Γ (Stmt.partsList ss') :=
  ⟨h.plain, fun p hp => h.covers p (by simp [Stmt.parts, hp])⟩

theorem rounds (h : D.Admits Γ (Stmt.forEach x e ss).parts) : D.Admits Γ (Stmt.partsList ss) :=
  ⟨h.plain, fun p hp => h.covers p (by simp [Stmt.parts, hp])⟩

theorem loop (h : D.Admits Γ (Stmt.loop e ss).parts) : D.Admits Γ (Stmt.partsList ss) :=
  ⟨h.plain, fun p hp => h.covers p (by simp [Stmt.parts, hp])⟩

theorem head (h : D.Admits Γ (Stmt.partsList (st :: ss))) : D.Admits Γ st.parts :=
  ⟨h.plain, fun p hp => h.covers p (by simp [Stmt.partsList, hp])⟩

theorem tail (h : D.Admits Γ (Stmt.partsList (st :: ss))) : ∀ p ∈ Stmt.partsList ss, D.Covers p :=
  fun p hp => h.covers p (by simp [Stmt.partsList, hp])

theorem otherFields {f : Field} {fs : List Field} (h : D.Admits Γ ((f :: fs).flatMap Field.parts)) :
    D.Admits Γ (fs.flatMap Field.parts) :=
  ⟨h.plain, fun p hp => h.covers p (List.mem_append_right _ hp)⟩

end Discipline.Admits

namespace Machine.At

theorem enter (h : m.At D Δ Γ) :
    ({ m with scope := m.scope.child } : Machine).At D Δ Γ.child :=
  ⟨h.typed.enter _, h.scope.child⟩

/-- The machine after an expression stands at the same scope. -/
theorem expr (h : m.At D Δ Γ) {e : Expr} (hs : e.Sound r a Γ) {v : Value}
    (he : Eval.expr r (invoke r F) e m = .ok v m₁) :
    ∃ Δ₁, m₁.At D Δ₁ Γ ∧ m.Moves D Δ Δ₁ m₁ ∧ D.Fits m₁.world e v := by
  obtain ⟨Δ₁, hmoves, hscope, hf⟩ := keeps_expr (invoke_keeps D F) e h.typed h.scope hs he
  exact ⟨Δ₁, ⟨hmoves.typed, hscope ▸ h.scope.extend hmoves.typing⟩, hmoves, hf⟩

theorem exprs (h : m.At D Δ Γ) {es : List Expr} (hs : ∀ e ∈ es, e.Sound r a Γ)
    {vs : List Value} (he : Eval.exprs r (invoke r F) es m = .ok vs m₁) :
    ∃ Δ₁, m₁.At D Δ₁ Γ ∧ m.Moves D Δ Δ₁ m₁ ∧ List.Forall₂ (D.Fits m₁.world) es vs := by
  obtain ⟨Δ₁, hmoves, hscope, hf⟩ := keeps_exprs (invoke_keeps D F) es h.typed h.scope hs he
  exact ⟨Δ₁, ⟨hmoves.typed, hscope ▸ h.scope.extend hmoves.typing⟩, hmoves, hf⟩

theorem optionalExpr (h : m.At D Δ Γ) {value : Option Expr} {typeName : Option String} {t : Ty}
    (hs : ∀ e ∈ value, e.Sound r a Γ) (hr : DeclarationRule r a typeName value t)
    (hnil : value = none → D.AllowsNil t) {v : Value}
    (he : Eval.optionalExpr r (invoke r F) value m = .ok v m₁) :
    ∃ Δ₁, m₁.At D Δ₁ Γ ∧ D.val m₁.world t v := by
  obtain ⟨Δ₁, hmoves, hscope, hv⟩ :=
    keeps_optional (invoke_keeps D F) h.typed h.scope hs hr hnil he
  exact ⟨Δ₁, ⟨hmoves.typed, hscope ▸ h.scope.extend hmoves.typing⟩, hv⟩

theorem define (h : m.At D Δ Γ) (hp : Γ.Plain) {t : Ty} {v : Value} (hv : D.val m.world t v)
    (x : String) : (m.define x v).At D (Δ ++ [t]) (Γ.defineVariable x t) :=
  ⟨h.typed.define hv x, h.scope.define hp h.typed t v x⟩

theorem hasLocalVariable (h : m.At D Δ Γ) {x : String} (hx : Γ.hasLocalVariable x = false) :
    m.scope.hasLocalVariable x = false := by
  rw [h.scope.hasLocalVariable, hx]

/-- After the statements of a block the machine stands at the outer scope again. -/
theorem block (h : m.At D Δ Γ) {ss : List Stmt} {result : Ty} {S : RunScope}
    {Γ₁ : Scope Ty Signature} {Δ₀ : List Ty} (hS : S.Matches r a D.Covers Δ₀ Γ') (hΔ : Δ₀ <+: Δ)
    (hp : D.Admits Γ (Stmt.partsList ss)) (hs : Stmts.Scoped r a result Γ ss Γ₁)
    {completion : Completion} (he : Eval.stmts r (invoke r F) F ss m = .ok completion m₁) :
    ∃ Δ₁, ({ m₁ with scope := S } : Machine).At D Δ₁ Γ' := by
  obtain ⟨Δ₁, hmoves, -⟩ :=
    keeps_stmts (invoke_keeps D F) ss h.typed h.scope hp.plain hp.covers hs he
  exact ⟨Δ₁, hmoves.typed.enter S, hS.extend (hΔ.trans hmoves.typing)⟩

end Machine.At

/-! ## One step -/

/-- The functions of a call that analysis has accepted. -/
theorem ready_callee {n : Node} {f : String} {es : List Expr} {vs : List Value}
    (h : m.At D Δ Γ) (hs : (Expr.call n f es).Sound r a Γ)
    (he : Eval.exprs r (invoke r F) es m = .ok vs m₁) :
    ∃ callable S, m₁.scope.findFunction? f vs.length = some (callable, S) ∧
      Activity.Ready D ⟨F, .call callable S vs, m₁⟩ := by
  obtain ⟨Δ₁, h₁, -, hfs⟩ := h.exprs hs.arguments he
  obtain ⟨signature, -, hb, hacc, -⟩ := hs.obeys
  obtain ⟨signature', hfun, hb'⟩ := hs.resolves
  rw [hb] at hb'
  obtain rfl : signature = signature' := by simpa using hb'
  obtain ⟨callable, S, Γ', hfind, hS, himp, -⟩ := h₁.scope.findFunction? hfun
  rw [hfs.length_eq] at hfind
  exact ⟨callable, S, hfind, Δ₁, Γ', signature, h₁.typed, hS, himp, D.arguments hacc hfs⟩

/-- After the global variables, the scope is ready for methods: its innermost frame
    has none yet. -/
theorem Scope.Matches.defining {S : RunScope} {ds : List Method} (hS : S.Matches r a D.Covers Δ Γ)
    (hp : Γ.Plain) (hs : Methods.Scoped r a Γ ds Γ') (hC : ∀ d ∈ ds, ∀ p ∈ d.parts, D.Covers p)
    (hb : ∀ d ∈ ds, ∃ signature, d.Obeys r a signature ∧ d.Scoped r a Γ' signature) :
    S.Defining r a D.Covers Δ Γ ds Γ' := by
  obtain ⟨g, Γ, rfl, hg⟩ := hp
  cases hS with
  | @cons f _ S _ hf hS =>
    exact ⟨hs, hC, hb, f, S, g, Γ, rfl, rfl, ⟨hf.vars, hf.functions_of_none hg Γ'⟩, hS⟩

theorem covers_fields {s : Source} (h : ∀ p ∈ s.parts, D.Covers p) :
    ∀ f ∈ s.fields, D.Covers (.field f) :=
  fun f hf => h _ (List.mem_append_left _ (List.mem_flatMap.2 ⟨f, hf, by simp [Field.parts]⟩))

theorem covers_methods {s : Source} (h : ∀ p ∈ s.parts, D.Covers p) :
    ∀ d ∈ s.methods, ∀ p ∈ d.parts, D.Covers p :=
  fun d hd p hp => h p (List.mem_append_right _ (List.mem_flatMap.2 ⟨d, hd, hp⟩))

/-- The `main` of an accepted program, and what its call gives. -/
theorem ready_main {s : Source} {m₂ : Machine} (h : Activity.Ready D ⟨F, .source s, m⟩)
    (hf : defineFields r F s.fields { m with scope := m.scope.child } = .ok () m₁)
    (hd : s.methods.forM defineMethod m₁ = .ok () m₂) :
    ∃ callable S, m₂.scope.findFunction? "main" 0 = some (callable, S) ∧
      Activity.Ready D ⟨F, .call callable S [], m₂⟩ ∧
      ∀ v m', invoke r F callable S [] m₂ = .ok v m' →
        D.val m'.world .integer v ∧ D.world m'.world := by
  obtain ⟨h, ⟨Γ₁, Γ₂, hfields, hmethods, ⟨main, hmain, hresult⟩, hbodies⟩, hC⟩ := h
  obtain ⟨Δ₁, hmoves, hS₁, hp₁⟩ :=
    keeps_fields hfields (covers_fields hC) h.enter.typed h.enter.scope (.child _) hf
  obtain ⟨hS₂, heq⟩ := keeps_methods (hS₁.defining hp₁ hmethods (covers_methods hC) hbodies) rfl hd
  obtain ⟨callable, S, Γ', hfind, hS, himp, harity⟩ := hS₂.findFunction? hmain
  have hm₂ : m₂.Typed D Δ₁ := heq ▸ hmoves.typed.enter _
  have hvs : List.Forall₂ (D.val m₂.world) main.parameters [] :=
    List.length_eq_zero_iff.1 harity ▸ .nil
  refine ⟨callable, S, hfind, ⟨Δ₁, Γ', main, hm₂, hS, himp, hvs⟩, fun v m' hv => ?_⟩
  obtain ⟨Δ₂, hmoves₂, -, hval⟩ := invoke_keeps D F hm₂ hS himp hvs hv
  exact ⟨hresult ▸ hval, hmoves₂.typed.world⟩

/-- **An activity that is ready starts only activities that are.** -/
theorem Starts.ready {c c' : Activity} (h : Starts r c c') (hc : c.Ready D) : c'.Ready D := by
  cases h with
  | inner =>
    obtain ⟨Δ, Γ, h, hs⟩ := hc
    exact ⟨Δ, Γ, h, hs.group⟩
  | logicalLeft ho =>
    obtain ⟨Δ, Γ, h, hs⟩ := hc
    obtain ⟨_, _, _, ht, -, hrule, -⟩ := hs.obeys
    obtain ⟨rfl, -, -⟩ := hrule.logical_types ho
    exact ⟨Δ, Γ, h, hs.left, ht⟩
  | logicalRight ho he =>
    obtain ⟨Δ, Γ, h, hs⟩ := hc
    obtain ⟨_, _, _, -, ht, hrule, -⟩ := hs.obeys
    obtain ⟨-, rfl, -⟩ := hrule.logical_types ho
    obtain ⟨Δ₁, h₁, -⟩ := h.expr hs.left he
    exact ⟨Δ₁, Γ, h₁, hs.right, ht⟩
  | left _ =>
    obtain ⟨Δ, Γ, h, hs⟩ := hc
    exact ⟨Δ, Γ, h, hs.left⟩
  | right _ he =>
    obtain ⟨Δ, Γ, h, hs⟩ := hc
    obtain ⟨Δ₁, h₁, -⟩ := h.expr hs.left he
    exact ⟨Δ₁, Γ, h₁, hs.right⟩
  | fieldOwner =>
    obtain ⟨Δ, Γ, h, hs⟩ := hc
    exact ⟨Δ, Γ, h, hs.fieldOwner⟩
  | arguments =>
    obtain ⟨Δ, Γ, h, hs⟩ := hc
    exact ⟨Δ, Γ, h, hs.arguments⟩
  | callee he hf =>
    obtain ⟨Δ, Γ, h, hs⟩ := hc
    obtain ⟨callable, S, hfind, hready⟩ := ready_callee h hs he
    rw [hf] at hfind
    cases hfind
    exact hready
  | methodOwner =>
    obtain ⟨Δ, Γ, h, hs⟩ := hc
    exact ⟨Δ, Γ, h, hs.methodOwner⟩
  | methodArguments he =>
    obtain ⟨Δ, Γ, h, hs⟩ := hc
    obtain ⟨Δ₁, h₁, -⟩ := h.expr hs.methodOwner he
    exact ⟨Δ₁, Γ, h₁, hs.methodArguments⟩
  | methodBody he hes hg =>
    obtain ⟨Δ, Γ, h, hs⟩ := hc
    obtain ⟨Δ₁, h₁, -⟩ := h.expr hs.methodOwner he
    obtain ⟨Δ₂, h₂, -⟩ := h₁.exprs hs.methodArguments hes
    exact ⟨h₂.typed.world, Or.inr ⟨_, _, _, _, _, _, hg, rfl⟩⟩
  | condition =>
    obtain ⟨Δ, Γ, h, hs, -⟩ := hc
    exact ⟨Δ, Γ, h, hs⟩
  | argument =>
    obtain ⟨Δ, Γ, h, hs⟩ := hc
    exact ⟨Δ, Γ, h, hs _ (by simp)⟩
  | otherArguments he =>
    obtain ⟨Δ, Γ, h, hs⟩ := hc
    obtain ⟨Δ₁, h₁, -⟩ := h.expr (hs _ (by simp)) he
    exact ⟨Δ₁, Γ, h₁, fun e' he' => hs e' (by simp [he'])⟩
  | nativeBody _ =>
    obtain ⟨Δ, Γ, signature, hm, -, ⟨hf, -⟩, -⟩ := hc
    exact ⟨hm.world, Or.inl ⟨_, hf, _, rfl⟩⟩
  | parameters _ _ =>
    obtain ⟨Δ, Γ, signature, hm, hS, ⟨-, -, Γ₁, Γ₂, hps, -⟩, hv⟩ := hc
    exact ⟨Δ, Γ.child, Γ₁, _, ⟨hm.call _ _, hS.child⟩, .child Γ, hps, hv⟩
  | body _ _ hp =>
    obtain ⟨Δ, Γ, signature, hm, hS, ⟨-, hC, Γ₁, Γ₂, hps, hbody⟩, hv⟩ := hc
    obtain ⟨Δ₁, hmoves, hS₁, hp₁⟩ := keeps_parameters hps (hm.call _ _) hS.child (.child Γ) hv hp
    exact ⟨Δ₁, Γ₁, Γ₂, signature.result, ⟨hmoves.typed, hS₁⟩,
      ⟨hp₁, fun p hp => hC p (by simp [Method.parts, hp])⟩, hbody⟩
  | parameter =>
    obtain ⟨Δ, Γ, Γ', ts, h, hp, hst, -⟩ := hc
    cases hst with
    | cons hlocal _ => exact ⟨h.typed.world, h.hasLocalVariable hlocal⟩
  | otherParameters =>
    obtain ⟨Δ, Γ, Γ', ts, h, hp, hst, hv⟩ := hc
    cases hst with
    | cons _ hps =>
      cases hv with
      | cons hv hvs => exact ⟨_, _, Γ', _, h.define hp hv _, hp.defineVariable _ _, hps, hvs⟩
  | expression =>
    obtain ⟨Δ, Γ, Γ', result, h, -, hst⟩ := hc
    cases hst with
    | expression _ hs => exact ⟨Δ, Γ, h, hs⟩
  | initialValue hd =>
    obtain ⟨Δ, Γ, Γ', result, h, -, hst⟩ := hc
    cases hst with
    | declare _ hs _ _ => exact ⟨Δ, Γ, h, hs _ hd⟩
  | declared he =>
    obtain ⟨Δ, Γ, Γ', result, h, hp, hst⟩ := hc
    cases hst with
    | declare ho hs _ hlocal =>
      obtain ⟨t, ht, hr⟩ := ho
      obtain ⟨Δ₁, h₁, -⟩ := h.optionalExpr hs hr (hp.declaration ht) he
      exact ⟨h₁.typed.world, h₁.hasLocalVariable hlocal⟩
  | assigned _ =>
    obtain ⟨Δ, Γ, Γ', result, h, -, hst⟩ := hc
    cases hst with
    | assign _ _ hs => exact ⟨Δ, Γ, h, hs⟩
  | assignedOwner =>
    obtain ⟨Δ, Γ, Γ', result, h, -, hst⟩ := hc
    cases hst with
    | assign _ hs _ => exact ⟨Δ, Γ, h, hs.fieldOwner⟩
  | assignedField he =>
    obtain ⟨Δ, Γ, Γ', result, h, -, hst⟩ := hc
    cases hst with
    | assign _ hs hs' =>
      obtain ⟨Δ₁, h₁, -⟩ := h.expr hs.fieldOwner he
      exact ⟨Δ₁, Γ, h₁, hs'⟩
  | choice =>
    obtain ⟨Δ, Γ, Γ', result, h, -, hst⟩ := hc
    cases hst with
    | branch ho hs _ _ =>
      obtain ⟨ht, _⟩ := ho
      exact ⟨Δ, Γ, h, hs, ht⟩
  | @chosen _ _ _ _ _ _ b he =>
    obtain ⟨Δ, Γ, Γ', result, h, hp, hst⟩ := hc
    cases hst with
    | branch _ hs hss hss' =>
      obtain ⟨Δ₁, h₁, -⟩ := h.expr hs he
      cases b with
      | true => exact ⟨Δ₁, Γ.child, _, result, h₁.enter, hp.thenBody.child, hss⟩
      | false => exact ⟨Δ₁, Γ.child, _, result, h₁.enter, hp.elseBody.child, hss'⟩
  | iterable =>
    obtain ⟨Δ, Γ, Γ', result, h, -, hst⟩ := hc
    cases hst with
    | forEach _ hs _ => exact ⟨Δ, Γ, h, hs⟩
  | rounds he =>
    obtain ⟨Δ, Γ, Γ', result, h, hp, hst⟩ := hc
    cases hst with
    | forEach _ hs hss =>
      obtain ⟨Δ₁, h₁, -⟩ := h.expr hs he
      exact ⟨Δ₁, Γ, _, result, h₁, hp.rounds, hss⟩
  | loop =>
    obtain ⟨Δ, Γ, Γ', result, h, hp, hst⟩ := hc
    cases hst with
    | loop ht hs hss => exact ⟨Δ, Γ, _, result, h, hp.loop, hs, ht, hss⟩
  | returned =>
    obtain ⟨Δ, Γ, Γ', result, h, -, hst⟩ := hc
    cases hst with
    | ret _ hs => exact ⟨Δ, Γ, h, hs⟩
  | statement =>
    obtain ⟨Δ, Γ, Γ', result, h, hp, hst⟩ := hc
    cases hst with
    | cons hs _ => exact ⟨Δ, Γ, _, result, h, hp.head, hs⟩
  | otherStatements he =>
    obtain ⟨Δ, Γ, Γ', result, h, hp, hst⟩ := hc
    cases hst with
    | cons hs hss =>
      obtain ⟨Δ₁, hmoves, hS₁, hp₁⟩ :=
        keeps_stmt (invoke_keeps D _) _ h.typed h.scope hp.plain hp.head.covers hs he
      exact ⟨Δ₁, _, Γ', result, ⟨hmoves.typed, hS₁⟩, ⟨hp₁, hp.tail⟩, hss⟩
  | roundVariable =>
    obtain ⟨Δ, Γ, Γ', result, h, -⟩ := hc
    exact ⟨h.typed.world, rfl⟩
  | @round _ _ _ _ _ i =>
    obtain ⟨Δ, Γ, Γ', result, h, hp, hss⟩ := hc
    exact ⟨_, _, Γ', result, h.enter.define (.child Γ) (D.val_literal _ (.integer i)) _,
      hp.child.define _ _, hss⟩
  | @otherRounds _ _ _ x _ _ i he =>
    obtain ⟨Δ, Γ, Γ', result, h, hp, hss⟩ := hc
    have hround := h.enter.define (.child Γ) (D.val_literal _ (.integer i)) x
    obtain ⟨Δ₁, h₁⟩ := hround.block h.scope (List.prefix_append _ _) (hp.child.define _ _) hss he
    exact ⟨Δ₁, Γ, Γ', result, h₁, hp, hss⟩
  | loopCondition =>
    obtain ⟨Δ, Γ, Γ', result, h, hp, hs, ht, -⟩ := hc
    exact ⟨Δ, Γ, h, hs, ht⟩
  | loopBody he =>
    obtain ⟨Δ, Γ, Γ', result, h, hp, hs, ht, hss⟩ := hc
    obtain ⟨Δ₁, h₁, -⟩ := h.expr hs he
    exact ⟨Δ₁, Γ.child, Γ', result, h₁.enter, hp.child, hss⟩
  | loopAgain he hb =>
    obtain ⟨Δ, Γ, Γ', result, h, hp, hs, ht, hss⟩ := hc
    obtain ⟨Δ₁, h₁, -⟩ := h.expr hs he
    obtain ⟨Δ₂, h₂⟩ := h₁.enter.block h₁.scope List.prefix_rfl hp.child hss hb
    exact ⟨Δ₂, Γ, Γ', result, h₂, hp, hs, ht, hss⟩
  | fieldValue hf =>
    obtain ⟨Δ, Γ, Γ', h, -, hst⟩ := hc
    cases hst with
    | cons _ hs _ _ _ => exact ⟨Δ, Γ, h, hs _ hf⟩
  | field he =>
    obtain ⟨Δ, Γ, Γ', h, hp, hst⟩ := hc
    cases hst with
    | cons ho hs _ hlocal _ =>
      obtain ⟨t, ht, hr⟩ := ho
      obtain ⟨Δ₁, h₁, -⟩ := h.optionalExpr hs hr (hp.field ht) he
      exact ⟨h₁.typed.world, h₁.hasLocalVariable hlocal⟩
  | otherFields he =>
    obtain ⟨Δ, Γ, Γ', h, hp, hst⟩ := hc
    cases hst with
    | cons ho hs ht' _ hfs =>
      obtain ⟨t, ht, hr⟩ := ho
      obtain ⟨Δ₁, h₁, hv⟩ := h.optionalExpr hs hr (hp.field ht) he
      rw [ht] at ht'
      obtain rfl := Option.some.inj ht'
      exact ⟨_, _, Γ', h₁.define hp.plain hv _, hp.otherFields.define _ _, hfs⟩
  | method =>
    obtain ⟨Δ, Γ, Γ', hm, hS⟩ := hc
    exact ⟨hm.world, hS.tail.1⟩
  | otherMethods =>
    obtain ⟨Δ, Γ, Γ', hm, hS⟩ := hc
    obtain ⟨-, Γ₁, hS₁⟩ := hS.tail
    exact ⟨Δ, Γ₁, Γ', hm.enter _, hS₁⟩
  | sourceFields =>
    obtain ⟨h, ⟨Γ₁, Γ₂, hfs, -⟩, hC⟩ := hc
    exact ⟨[], _, Γ₁, h.enter, ⟨.child _, fun p hp => hC p (List.mem_append_left _ hp)⟩, hfs⟩
  | sourceMethods hf =>
    obtain ⟨h, ⟨Γ₁, Γ₂, hfs, hms, -, hb⟩, hC⟩ := hc
    obtain ⟨Δ₁, hmoves, hS₁, hp₁⟩ :=
      keeps_fields hfs (covers_fields hC) h.enter.typed h.enter.scope (.child _) hf
    exact ⟨Δ₁, Γ₁, Γ₂, hmoves.typed, hS₁.defining hp₁ hms (covers_methods hC) hb⟩
  | main hf hd hfind =>
    obtain ⟨callable, S, hfind', hready, -⟩ := ready_main hc hf hd
    rw [hfind] at hfind'
    cases hfind'
    exact hready

/-! ## Whole runs -/

theorem During.ready {c c' : Activity} (h : During r c c') (hc : c.Ready D) : c'.Ready D := by
  induction h with
  | refl => exact hc
  | tail _ hs ih => exact hs.ready ih

end

/-- The run of a program on a fresh machine. -/
def Activity.start (r : Registry) (w : World) (fuel : Nat) (s : Source) : Activity :=
  ⟨fuel, .source s, .ofRegistry r w⟩

section
variable {D : Discipline r a} {tokens : List Token} {s : Source} {w : World} {fuel : Nat}

/-- The run of an accepted program is ready if its world is in order and it leaves nothing
    without a value. -/
theorem ready_start_of_covers (hp : parse tokens = .ok s) (ha : analyze r s = .ok a)
    (hw : D.world w) (hC : ∀ p ∈ s.parts, D.Covers p) : (Activity.start r w fuel s).Ready D :=
  ⟨⟨⟨hw, .nil⟩, matches_ofRegistry r a D.Covers w⟩,
    (sound_of_analyze (nodup_ids_of_parse hp) ha).1, hC⟩

/-- The run of an accepted program is ready if its world is in order, where `NIL` may stand
    for every type. -/
theorem ready_start [D.Lenient] (hp : parse tokens = .ok s) (ha : analyze r s = .ok a)
    (hw : D.world w) : (Activity.start r w fuel s).Ready D :=
  ready_start_of_covers hp ha hw fun p _ => D.covers_of_lenient p

end

theorem Program.value_eq_ok {w w' : World} {fuel : Nat} {s : Source} {v : Value} :
    Program.value r w fuel s = (.ok v, w') ↔
      ∃ m, Eval.source r fuel s (.ofRegistry r w) = .ok v m ∧ m.world = w' := by
  rw [Program.value, Program.onFreshMachine, EStateM.run]
  split <;> simp_all

theorem Program.value_eq_error {w w' : World} {fuel : Nat} {s : Source} {e : Stop} :
    Program.value r w fuel s = (.error e, w') ↔
      ∃ m, Eval.source r fuel s (.ofRegistry r w) = .error e m ∧ m.world = w' := by
  rw [Program.value, Program.onFreshMachine, EStateM.run]
  split <;> simp_all

/-- A run that fails goes back to an activity of it that raises the error. -/
theorem exists_raises_of_value {w w' : World} {fuel : Nat} {s : Source} {e : RuntimeError}
    (h : Program.value r w fuel s = (.error (.error e), w')) :
    ∃ c, During r (.start r w fuel s) c ∧ Raises r c (.error e) := by
  obtain ⟨m, hm, -⟩ := Program.value_eq_error.1 h
  exact Activity.Stops.origin ⟨m, discard_eq_error.2 hm⟩

end TinyScript
