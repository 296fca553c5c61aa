import TinyScript.Proofs.MethodOrder
import TinyScript.Proofs.Typing.Restoration

/-
  Passing on parameters.

  A method may pass a parameter of its own on to a method whose parameter has the same type, at
  the end of its body whatever stands before: the body cannot have hidden the parameter, since
  its own declarations share the frame of the parameters.  Only where the type is `Comparable`
  it may not, for `Comparable` accepts the types that it stands for and not itself.

  * `Ty.accepts_self`: which types accept themselves;
  * `Stmt.forward`, `Method.append`: the call that passes on, and where it is put;
  * `Check.methodBody_append`: a body with one more statement has the outcome of the statement;
  * `Check.bodies_append`: so have all bodies together;
  * `forwarding_outcome`: what analysis says of a program with one more such call.
-/

namespace TinyScript

/-- Every type accepts itself, except the one that stands for several others. -/
theorem Ty.accepts_self (t : Ty) : t.accepts t = true ↔ t ≠ .comparable := by
  cases t <;> simp [accepts, same, isComparable]

/-- A call of `f` with the variable `x` as its only argument. -/
def Stmt.forward (call argument : Node) (f x : String) : Stmt :=
  .expression (.call call f [.var argument x])

/-- The method with one more statement at the end of its body. -/
def Method.append (m : Method) (st : Stmt) : Method := { m with body := m.body ++ [st] }

/-- A parameter has at most one type. -/
theorem Parameter.HasType.unique {r : Registry} {p : Parameter} {t u : Ty} (ht : p.HasType r t)
    (hu : p.HasType r u) : t = u := by
  unfold HasType at ht hu
  cases hp : p.typeName with
  | none => simp only [hp] at ht hu; exact ht.trans hu.symm
  | some name =>
    simp only [hp] at ht hu
    exact Option.some.inj (ht.symm.trans hu)

/-! ## Scopes of bodies -/

theorem Parameters.Scoped.declares {Γ Γ' : Scope Ty Signature} {ps : List Parameter}
    {ts : List Ty} (h : Parameters.Scoped Γ ps ts Γ') : Γ.Declares Γ' := by
  induction h with
  | nil => exact .refl _
  | cons hfresh _ ih => exact (Scope.Declares.step (.refl _) hfresh).trans ih

/-- Every parameter is a variable of its type in the frame of the parameters. -/
theorem Parameters.Scoped.lookup? {r : Registry} {Γ Γ' : Scope Ty Signature}
    {ps : List Parameter} {ts : List Ty} (h : Parameters.Scoped Γ ps ts Γ')
    (hts : List.Forall₂ (Parameter.HasType r) ps ts) {p : Parameter} (hp : p ∈ ps) {t : Ty}
    (ht : p.HasType r t) : Γ'.hasLocalVariable p.name = true ∧ Γ'.lookup? p.name = some t := by
  induction h with
  | nil => cases hp
  | @cons Γ Γ' p₁ ps t₁ ts hfresh h ih =>
    obtain ⟨ht₁, hts⟩ := List.forall₂_cons.1 hts
    rcases List.mem_cons.1 hp with rfl | hp
    · obtain rfl := ht₁.unique ht
      have hlocal : (Γ.defineVariable p.name t₁).hasLocalVariable p.name = true := by
        rw [Scope.hasLocalVariable_defineVariable, decide_eq_true rfl, Bool.true_or]
      obtain ⟨hlocal', hlookup⟩ := h.declares.of_hasLocalVariable hlocal
      rw [Scope.lookup?_defineVariable, if_pos rfl] at hlookup
      exact ⟨hlocal', hlookup⟩
    · exact ih hts hp

/-- A function that the innermost frame has is not replaced when methods are registered. -/
theorem Methods.Scoped.function?_of_local {r : Registry} {a : Analysis}
    {Γ Γ' : Scope Ty Signature} {ms : List Method} (h : Methods.Scoped r a Γ ms Γ') {f : String}
    {k : Nat} (hlocal : Γ.hasLocalFunction f k = true) : Γ'.function? f k = Γ.function? f k := by
  induction h with
  | nil => rfl
  | @cons Γ Γ' m ms signature _ hfree _ ih =>
    have hne : ¬(f = m.name ∧ k = m.arity) := by
      rintro ⟨rfl, rfl⟩
      rw [hfree] at hlocal
      cases hlocal
    rw [ih, Scope.function?_defineFunction, if_neg hne]
    rw [Scope.hasLocalFunction_defineFunction, hlocal, Bool.or_true]

/-- Every registered method is found under its name and arity. -/
theorem Methods.Scoped.function? {r : Registry} {a : Analysis} {Γ Γ' : Scope Ty Signature}
    {ms : List Method} (h : Methods.Scoped r a Γ ms Γ') {m : Method} (hm : m ∈ ms) :
    ∃ signature, m.Obeys r a signature ∧ Γ'.function? m.name m.arity = some signature := by
  induction h with
  | nil => cases hm
  | @cons Γ Γ' m₁ ms signature hobeys hfree h ih =>
    rcases List.mem_cons.1 hm with rfl | hm
    · refine ⟨signature, hobeys, ?_⟩
      rw [h.function?_of_local, Scope.function?_defineFunction, if_pos ⟨rfl, rfl⟩]
      rw [Scope.hasLocalFunction_defineFunction, decide_eq_true ⟨rfl, rfl⟩, Bool.true_or]
    · exact ih hm

namespace Check

variable {r : Registry}

/-! ## One more statement -/

theorem stmts_append (r : Registry) (ss ss' : List Stmt) :
    stmts r (ss ++ ss') = (do stmts r ss; stmts r ss') := by
  induction ss with
  | nil => rw [List.nil_append, stmts, pure_bind]
  | cons s ss ih => rw [List.cons_append, stmts, stmts, ih, bind_assoc]

theorem stmts_singleton (r : Registry) (st : Stmt) : stmts r [st] = stmt r st := by
  rw [stmts, stmts]
  exact bind_pure _

section
variable {s : CheckState} {f x : String} {signature : Signature} {t u : Ty}

/-- The call of a function with one parameter on a variable, where both are in scope. -/
theorem expr_forward (hf : s.scope.function? f 1 = some signature)
    (hps : signature.parameters = [t]) (hx : s.scope.lookup? x = some u) (n n' : Node) :
    ∃ s', expr r (.call n f [.var n' x]) s = if t.accepts u then .ok signature.result s'
      else .error (.notAssignable t.name u.name) s' := by
  obtain ⟨s₁, hargument⟩ : ∃ s₁, expr r (.var n' x) s = .ok u s₁ := by
    rw [expr, get_bind, hx]
    exact ⟨_, rfl⟩
  rw [expr, get_bind]
  simp only [List.length_singleton, hf, hps, exprs, bind_assoc]
  rw [bind_of_ok hargument, requireAssignable]
  split
  · exact ⟨_, rfl⟩
  · exact ⟨_, rfl⟩

/-- A variable may be passed on where its type is accepted. -/
theorem stmt_forward (hf : s.scope.function? f 1 = some signature)
    (hps : signature.parameters = [t]) (hx : s.scope.lookup? x = some u) (n n' : Node) :
    ∃ s', stmt r (.forward n n' f x) s = if t.accepts u then .ok () s'
      else .error (.notAssignable t.name u.name) s' := by
  obtain ⟨s', hcall⟩ := expr_forward (r := r) hf hps hx n n'
  refine ⟨s', ?_⟩
  rw [Stmt.forward, stmt]
  by_cases ht : t.accepts u = true
  · rw [if_pos ht] at hcall ⊢
    rw [bind_of_ok (discard_eq_ok (u := ⟨⟩).2 ⟨_, hcall⟩)]
    rfl
  · rw [if_neg ht] at hcall ⊢
    rw [bind_of_error (discard_eq_error.2 hcall)]

end

/-- A body that is accepted, with one more statement: the statement is analysed where the
    variables are the parameters and what the body itself has declared besides, and its outcome
    is the outcome of the whole. -/
theorem methodBody_append {m : Method} {σ τ : CheckState} {signature : Signature}
    (hsignature : σ.analysis.signatures[m.node.id]? = some signature)
    (hlength : m.parameters.length = signature.parameters.length) (hkeyed : σ.scope.Keyed)
    (h : methodBody r m σ = .ok () τ) :
    ∃ Γ s, Parameters.Scoped σ.scope.child m.parameters signature.parameters Γ ∧
      Γ.Declares s.scope ∧ ∀ st,
        (∀ s', stmt r st s = .ok () s' → ∃ τ', methodBody r (m.append st) σ = .ok () τ') ∧
        ∀ e s', stmt r st s = .error e s' → ∃ τ', methodBody r (m.append st) σ = .error e τ' := by
  simp only [methodBody, get_bind, hsignature, withResult_eq_ok, inChild_eq_ok, bind_eq_ok] at h
  obtain ⟨_, ⟨s, ⟨⟨⟩, s₁, hparameters, hbody⟩, rfl⟩, rfl⟩ := h
  obtain ⟨hscoped, -, -⟩ := parameters_eq_ok hlength hkeyed.child hparameters
  refine ⟨s₁.scope, s, hscoped, ((blind_stmts r m.body).of_ok hbody).scope, fun st => ?_⟩
  have hrun : (do defineParameters m.parameters signature.parameters; stmts r (m.append st).body)
      { σ with scope := σ.scope.child, result := signature.result } = stmt r st s := by
    rw [bind_of_ok hparameters, Method.append, stmts_append, bind_of_ok hbody, stmts_singleton]
  have hmethod : methodBody r (m.append st) σ = withResult signature.result
      (inChild (do defineParameters m.parameters signature.parameters
                   stmts r (m.append st).body)) σ := by
    rw [methodBody, get_bind, Method.append, hsignature]
  rw [hmethod, withResult, inChild, get_bind, inScope, hrun]
  constructor
  · intro s' hs'
    rw [hs']
    exact ⟨_, rfl⟩
  · intro e s' hs'
    rw [hs']
    exact ⟨_, rfl⟩

theorem forM_middle (f : Method → Check Unit) (before after : List Method) (m : Method) :
    (before ++ m :: after).forM f = (do before.forM f; f m; after.forM f) :=
  List.forM_append

/-- Registration does not look at bodies. -/
theorem registers_append (r : Registry) (before after : List Method) (m : Method) (st : Stmt) :
    (before ++ m.append st :: after).forM (registerMethod r) =
      (before ++ m :: after).forM (registerMethod r) := by
  rw [forM_middle, forM_middle]
  rfl

/-- All bodies, of which one has one more statement at its end. -/
theorem bodies_append {before after : List Method} {m : Method} {σ τ : CheckState}
    (h : (before ++ m :: after).forM (methodBody r) σ = .ok ⟨⟩ τ) :
    ∃ σ₁ τ₁, σ.Alike σ₁ ∧ methodBody r m σ₁ = .ok () τ₁ ∧ ∀ st,
      (∀ τ', methodBody r (m.append st) σ₁ = .ok () τ' →
        ∃ τ'', (before ++ m.append st :: after).forM (methodBody r) σ = .ok ⟨⟩ τ'') ∧
      ∀ e τ', methodBody r (m.append st) σ₁ = .error e τ' →
        ∃ τ'', (before ++ m.append st :: after).forM (methodBody r) σ = .error e τ'' := by
  rw [forM_middle] at h
  obtain ⟨⟨⟩, σ₁, hbefore, h⟩ := bind_eq_ok.1 h
  obtain ⟨⟨⟩, τ₁, hm, hafter⟩ := bind_eq_ok.1 h
  have hσ₁ : σ.Alike σ₁ := (Restores.forM (restores_methodBody r) _).of_ok hbefore
  have hτ₁ : σ₁.Alike τ₁ := (restores_methodBody r m).of_ok hm
  refine ⟨σ₁, τ₁, hσ₁, hm, fun st => ⟨fun τ' hst => ?_, fun e τ' hst => ?_⟩⟩
  · -- the bodies after it cannot tell the difference
    have hτ' : σ₁.Alike τ' := (restores_methodBody r _).of_ok hst
    have hrun := (Restores.forM (restores_methodBody r) after).relates (hτ₁.symm.trans hτ')
    rw [hafter] at hrun
    cases hafter' : after.forM (methodBody r) τ' with
    | ok u τ'' => exact ⟨τ'', by rw [forM_middle, bind_of_ok hbefore, bind_of_ok hst, hafter']⟩
    | error e τ'' =>
      rw [hafter'] at hrun
      cases hrun
  · exact ⟨τ', by rw [forM_middle, bind_of_ok hbefore, bind_of_error hst]⟩

/-- What analysis of the bodies comes to, if registration goes well. -/
theorem analyze_of_bodies {s : Source} {σ₁ σ₂ σ₃ : CheckState}
    (hfields : s.fields.forM (field r) { CheckState.ofRegistry r with
      scope := (CheckState.ofRegistry r).scope.child } = .ok ⟨⟩ σ₁)
    (hregister : s.methods.forM (registerMethod r) σ₁ = .ok ⟨⟩ σ₂)
    (hmain : requireMain σ₂ = .ok () σ₃) :
    (∀ τ, s.methods.forM (methodBody r) σ₃ = .ok ⟨⟩ τ → ∃ a, analyze r s = .ok a) ∧
      ∀ e τ, s.methods.forM (methodBody r) σ₃ = .error e τ → analyze r s = .error e := by
  have hrun : (do s.fields.forM (field r); s.methods.forM (registerMethod r); requireMain
                  s.methods.forM (methodBody r) : Check Unit)
      { CheckState.ofRegistry r with scope := (CheckState.ofRegistry r).scope.child } =
        s.methods.forM (methodBody r) σ₃ := by
    rw [bind_of_ok hfields, bind_of_ok hregister, bind_of_ok hmain]
  rw [analyze, EStateM.run, source, inChild, get_bind, inScope, hrun]
  constructor
  · intro τ hbodies
    rw [hbodies]
    exact ⟨_, rfl⟩
  · intro e τ hbodies
    rw [hbodies]

end Check

/-! ## Programs -/

open Check in
/-- Analysis of a program in which a method passes a parameter on, at the end of its body, comes
    to whether the type of the parameter accepts itself. -/
theorem analyze_append_forward {r : Registry} {s : Source} {a : Analysis}
    {before after : List Method} {f g : Method} {q p : Parameter} {t : Ty}
    (hn : Part.Distinct s.parts) (ha : analyze r s = .ok a)
    (hs : s.methods = before ++ f :: after) (hq : q ∈ f.parameters) (hg : g ∈ s.methods)
    (hp : g.parameters = [p]) (hqt : q.HasType r t) (hpt : p.HasType r t) (n n' : Node) :
    let s' : Source :=
      { s with methods := before ++ f.append (.forward n n' g.name q.name) :: after }
    (t.accepts t = true → ∃ a', analyze r s' = .ok a') ∧
      (t.accepts t ≠ true → analyze r s' = .error (.notAssignable t.name t.name)) := by
  intro s'
  have hv : Part.Distinct s.visits := (s.visits_perm.map Part.id).nodup_iff.2 hn
  have hf : f ∈ s.methods := by rw [hs]; exact List.mem_append_right _ (List.mem_cons_self ..)
  obtain ⟨σ, hσ, rfl⟩ := analyze_eq_ok.1 ha
  obtain ⟨σ₄, hbody, rfl⟩ := inChild_eq_ok.1 hσ
  obtain ⟨⟨⟩, σ₁, hfields, hrest⟩ := bind_eq_ok.1 hbody
  obtain ⟨⟨⟩, σ₂, hregister, hrest⟩ := bind_eq_ok.1 hrest
  obtain ⟨⟨⟩, σ₃, hmain, hbodies⟩ := bind_eq_ok.1 hrest
  have hpassed := passes_fields (keyed_ofRegistry r).child hv.left hfields
  have hregistered := passes_registers hpassed.keyed hv.right.left hregister
  have hscoped := hregistered.sound σ₂.analysis fun p _ => Analysis.SameAt.refl _ _
  obtain ⟨signature, ⟨hsignature, -, hparameters, -⟩, -⟩ := hscoped.function? hf
  obtain ⟨signature', ⟨-, -, hparameters', -⟩, hfound⟩ := hscoped.function? hg
  obtain rfl := requireMain_state hmain
  -- before the body of `f` the scope and the signatures are those after registration
  rw [hs] at hbodies
  obtain ⟨σ', τ', halike, hbodyf, hbodies'⟩ := bodies_append hbodies
  obtain ⟨Γ, ρ, hΓ, hρ, hlast⟩ := methodBody_append
    ((congrArg (·[f.node.id]?) halike.signatures).trans hsignature) hparameters.length_eq
    (halike.scope ▸ hregistered.keyed) hbodyf
  -- at the end of the body the parameter and the method are still what they were
  have hlookup : ρ.scope.lookup? q.name = some t := by
    obtain ⟨hlocal, hlookup⟩ := hΓ.lookup? hparameters hq hqt
    rw [(hρ.of_hasLocalVariable hlocal).2, hlookup]
  have hfunction : ρ.scope.function? g.name 1 = some signature' := by
    rw [hρ.function?, hΓ.declares.function?, Scope.function?_child, halike.scope, ← hfound,
      Method.arity, hp, List.length_singleton]
  have htypes : signature'.parameters = [t] := by
    rw [hp] at hparameters'
    obtain ⟨u, us, hu, hus, heq⟩ := List.forall₂_cons_left_iff.1 hparameters'
    rw [heq, hu.unique hpt, List.forall₂_nil_left_iff.1 hus]
  obtain ⟨ρ', hstmt⟩ := stmt_forward (r := r) hfunction htypes hlookup n n'
  have hregister' : s'.methods.forM (registerMethod r) σ₁ = .ok ⟨⟩ σ₃ := by
    rw [registers_append, ← hs]
    exact hregister
  obtain ⟨haccepted, hrejected⟩ := analyze_of_bodies (s := s') hfields hregister' hmain
  constructor
  · intro htt
    rw [if_pos htt] at hstmt
    obtain ⟨τ₁, hτ₁⟩ := (hlast _).1 _ hstmt
    obtain ⟨τ₂, hτ₂⟩ := (hbodies' _).1 _ hτ₁
    exact haccepted τ₂ hτ₂
  · intro htt
    rw [if_neg htt] at hstmt
    obtain ⟨τ₁, hτ₁⟩ := (hlast _).2 _ _ hstmt
    obtain ⟨τ₂, hτ₂⟩ := (hbodies' _).2 _ _ hτ₁
    exact hrejected _ τ₂ hτ₂

/-- **Parameters can be passed on.**  An accepted program stays accepted when a method calls, at
    the end of its body, a method with one parameter on a parameter of its own that has the same
    type; unless this type is `Comparable`, when the call is an error.  For `Comparable` is the
    only type that does not accept itself. -/
theorem forwarding_outcome {tokens : List Token} {r : Registry} {s : Source} {a : Analysis}
    {before after : List Method} {f g : Method} {q p : Parameter} {t : Ty}
    (hparse : parse tokens = .ok s) (ha : analyze r s = .ok a)
    (hs : s.methods = before ++ f :: after) (hq : q ∈ f.parameters) (hg : g ∈ s.methods)
    (hp : g.parameters = [p]) (hqt : q.HasType r t) (hpt : p.HasType r t) (n n' : Node) :
    let s' : Source :=
      { s with methods := before ++ f.append (.forward n n' g.name q.name) :: after }
    (t ≠ .comparable → ∃ a', analyze r s' = .ok a') ∧
      (t = .comparable → analyze r s' = .error (.notAssignable "Comparable" "Comparable")) ∧
      ∀ u : Ty, u.accepts u = true ↔ u ≠ .comparable := by
  intro s'
  obtain ⟨haccepted, hrejected⟩ :=
    analyze_append_forward (nodup_ids_of_parse hparse) ha hs hq hg hp hqt hpt n n'
  refine ⟨fun ht => haccepted (t.accepts_self.2 ht), ?_, Ty.accepts_self⟩
  rintro rfl
  exact hrejected (by decide)

/-- A program in which one method could pass its parameter on to another. -/
def relayText : String :=
  "DEF show(text: String) DO END " ++
    "DEF relay(text: String, n: Integer) DO LET copy = text; show(copy); END " ++
    "DEF main(): Integer DO RETURN 0; END"

theorem forwarding_outcome_relay : ∃ tokens s a before after f g q p,
    lex relayText = .ok tokens ∧ parse tokens = .ok s ∧ analyze Registry.standard s = .ok a ∧
      s.methods = before ++ f :: after ∧ q ∈ f.parameters ∧ g ∈ s.methods ∧
      g.parameters = [p] ∧ q.HasType Registry.standard .string ∧
      p.HasType Registry.standard .string ∧ Ty.string ≠ .comparable ∧
      ∃ a', analyze Registry.standard
        { s with methods := before ++ f.append (.forward ⟨100, 0⟩ ⟨101, 0⟩ g.name q.name) :: after }
          = .ok a' := by
  let q : Parameter := ⟨"text", some "String"⟩
  have hcheck : (Program.read relayText).toOption.map (fun s =>
      decide (s.methods.map Method.parameters = [[q], [q, ⟨"n", some "Integer"⟩], []]) &&
        (analyze Registry.standard s).isOk) = some true := by
    decide +kernel
  obtain ⟨tokens, s, a, hl, hparse, ha, hparameters⟩ := exists_of_check hcheck
  obtain ⟨g, _, hms, hg, hrest⟩ := List.map_eq_cons_iff.1 (of_decide_eq_true hparameters)
  obtain ⟨f, ms, rfl, hf, -⟩ := List.map_eq_cons_iff.1 hrest
  have hmiddle : s.methods = [g] ++ f :: ms := hms
  have hq : q ∈ f.parameters := by rw [hf]; exact List.mem_cons_self ..
  have hmem : g ∈ s.methods := by rw [hms]; exact List.mem_cons_self ..
  have htype : q.HasType Registry.standard .string := by
    show Registry.standard.resolve? "String" = some .string
    decide +kernel
  have hne : Ty.string ≠ .comparable := by decide
  exact ⟨tokens, s, a, [g], ms, f, g, q, q, hl, hparse, ha, hmiddle, hq, hmem, hg, htype, htype,
    hne, (forwarding_outcome hparse ha hmiddle hq hmem hg htype htype ⟨100, 0⟩ ⟨101, 0⟩).1 hne⟩

/-- What stands in the way of `Comparable`. -/
def comparableText : String :=
  "DEF f(p: Comparable) DO END DEF main(): Integer DO RETURN 0; END"

/-- A parameter of a type that does not accept itself cannot be passed on. -/
theorem comparable_not_forwarded :
    ¬∀ (tokens : List Token) (s : Source) (a : Analysis) (before after : List Method)
      (f g : Method) (q p : Parameter) (t : Ty) (n n' : Node), parse tokens = .ok s →
      analyze Registry.standard s = .ok a → s.methods = before ++ f :: after →
      q ∈ f.parameters → g ∈ s.methods → g.parameters = [p] → q.HasType Registry.standard t →
      p.HasType Registry.standard t → ∃ a', analyze Registry.standard
        { s with methods := before ++ f.append (.forward n n' g.name q.name) :: after }
          = .ok a' := by
  intro h
  let q : Parameter := ⟨"p", some "Comparable"⟩
  have hcheck : (Program.read comparableText).toOption.map (fun s =>
      (decide (s.methods.map Method.parameters = [[q], []]) && !(analyze Registry.standard
        { s with methods := s.methods.modifyHead fun f =>
            f.append (.forward ⟨100, 0⟩ ⟨101, 0⟩ f.name q.name) }).isOk) &&
        (analyze Registry.standard s).isOk) = some true := by
    decide +kernel
  obtain ⟨tokens, s, a, hl, hparse, ha, htest⟩ := exists_of_check hcheck
  obtain ⟨hparameters, hrejected⟩ := Bool.and_eq_true_iff.1 htest
  obtain ⟨f, ms, hms, hf, -⟩ := List.map_eq_cons_iff.1 (of_decide_eq_true hparameters)
  have hq : q ∈ f.parameters := by rw [hf]; exact List.mem_cons_self ..
  have hmem : f ∈ s.methods := by rw [hms]; exact List.mem_cons_self ..
  have htype : q.HasType Registry.standard .comparable := by
    show Registry.standard.resolve? "Comparable" = some .comparable
    decide +kernel
  obtain ⟨a', ha'⟩ := h tokens s a [] ms f f q q .comparable ⟨100, 0⟩ ⟨101, 0⟩ hparse ha hms hq
    hmem hf htype htype
  rw [List.nil_append] at ha'
  rw [hms, List.modifyHead_cons, ha'] at hrejected
  cases hrejected

end TinyScript
