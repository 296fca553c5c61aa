import TinyScript.Program
import TinyScript.Proofs.Tree.Numbering
import TinyScript.Proofs.Typing.StmtChecker

/-
  Analysis of programs is sound.

  Analysis goes through a program three times: its global variables, the
  signatures of its methods, the bodies of its methods.  The parts of a program
  are met in another order than they are numbered in, but each is met once.

  * `checked_of_analyze`: the facts about an accepted program obey all rules;
  * `within_of_analyze`: nothing but its parts has facts.
-/

namespace TinyScript

namespace Check

open Analysis

/-! ## Global variables -/

theorem field_eq_ok {r : Registry} {f : Field} {s s' : CheckState} {u : Unit}
    (h : field r f s = .ok u s') :
    ∃ t found s₁, r.resolve? f.typeName = some t ∧ t.isCapability = false ∧
      optionalExpr r f.value s = .ok found s₁ ∧ (∀ t' ∈ found, t.accepts t' = true) ∧
      s₁.scope.hasLocalVariable f.name = false ∧
      s' = { s₁ with
        scope := s₁.scope.defineVariable f.name t
        analysis := s₁.analysis.recordDeclaration f.node.id t } := by
  simp only [field, bind_eq_ok] at h
  obtain ⟨t, s₀, ht, found, s₁, hv, h⟩ := h
  obtain ⟨hres, hcap, rfl⟩ := resolveConcrete_eq_ok ht
  cases found with
  | none =>
    simp only [bind_eq_ok, defineVariable_eq_ok, record_apply, EStateM.Result.ok.injEq,
      true_and] at h
    obtain ⟨_, _, ⟨hlocal, rfl⟩, rfl⟩ := h
    exact ⟨t, none, s₁, hres, hcap, hv, by simp, hlocal, rfl⟩
  | some t' =>
    simp only [bind_eq_ok, requireAssignable_eq_ok, defineVariable_eq_ok, record_apply,
      EStateM.Result.ok.injEq, true_and] at h
    obtain ⟨_, _, ⟨hacc, rfl⟩, _, _, ⟨hlocal, rfl⟩, rfl⟩ := h
    refine ⟨t, some t', _, hres, hcap, hv, ?_, hlocal, rfl⟩
    rintro _ ⟨⟩
    exact hacc

/-- What analysis of a global variable establishes. -/
def FieldScoped (r : Registry) (c : Analysis) (Γ Γ' : Scope Ty Signature) (f : Field) : Prop :=
  ∃ t, f.Obeys r c ∧ (∀ e ∈ f.value, e.Sound r c Γ) ∧ c.declarations[f.node.id]? = some t ∧
    Γ.hasLocalVariable f.name = false ∧ Γ' = Γ.defineVariable f.name t

theorem passes_field {r : Registry} {f : Field} {s s' : CheckState} {u : Unit}
    (hk : s.scope.Keyed) (hn : Part.Distinct f.parts) (h : field r f s = .ok u s') :
    Passes f.parts (fun c => FieldScoped r c s.scope s'.scope f) s s' := by
  obtain ⟨t, found, s₁, hres, hcap, hv, hacc, hlocal, rfl⟩ := field_eq_ok h
  obtain ⟨hscope, hpass⟩ := passes_optional hk hn.left hv
  have hrec : Passes [.field f] (fun c => c.declarations[f.node.id]? = some t) s₁
      { s₁ with
        scope := s₁.scope.defineVariable f.name t
        analysis := s₁.analysis.recordDeclaration f.node.id t } :=
    ⟨rfl, hpass.keyed.defineVariable _ _, within_recordDeclaration (p := .field f) _ rfl t,
      fun c hc => (hc (.field f) (by simp)).declarations.trans (by simp [Part.id])⟩
  refine (hpass.comp hn hrec).mono fun c hc => ?_
  obtain ⟨⟨hty, hsound⟩, hdecl⟩ := hc
  rw [hscope] at hlocal
  refine ⟨t, ⟨t, hdecl, hres, hcap, fun e he => ?_⟩, hsound, hdecl, hlocal, by rw [hscope]⟩
  rw [Option.mem_def.1 he] at hty
  cases hty with
  | some ht => exact ⟨_, ht, hacc _ rfl⟩

theorem passes_fields {r : Registry} {fs : List Field} {s s' : CheckState} {u : Unit}
    (hk : s.scope.Keyed) (hn : Part.Distinct (fs.flatMap Field.parts))
    (h : fs.forM (field r) s = .ok u s') :
    Passes (fs.flatMap Field.parts) (fun c => Fields.Scoped r c s.scope fs s'.scope) s s' := by
  induction fs generalizing s with
  | nil =>
    simp only [List.forM, pure_apply, EStateM.Result.ok.injEq, true_and] at h
    subst h
    exact .silent hk rfl rfl fun _ => .nil
  | cons f fs ih =>
    simp only [List.forM, bind_eq_ok] at h
    obtain ⟨_, s₁, h₁, h₂⟩ := h
    rw [List.flatMap_cons] at hn ⊢
    have hp := passes_field hk hn.left h₁
    refine (hp.comp hn (ih hp.keyed hn.right h₂)).mono fun c hc => ?_
    obtain ⟨hf, hfs⟩ := hc
    obtain ⟨t, hobeys, hsound, hdecl, hlocal, hscope⟩ := hf
    rw [hscope] at hfs
    exact .cons hobeys hsound hdecl hlocal hfs

/-! ## Signatures -/

theorem parameterType_eq_ok {r : Registry} {p : Parameter} {t : Ty} {s s' : CheckState}
    (h : parameterType r p s = .ok t s') : p.HasType r t ∧ s' = s := by
  rw [parameterType] at h
  unfold Parameter.HasType
  cases hp : p.typeName with
  | none =>
    simp only [hp, pure_apply, EStateM.Result.ok.injEq] at h
    exact ⟨h.1.symm, h.2.symm⟩
  | some name =>
    simp only [hp] at h
    exact resolve_eq_ok h

theorem parameterTypes_eq_ok {r : Registry} {ps : List Parameter} {ts : List Ty}
    {s s' : CheckState} (h : ps.mapM (parameterType r) s = .ok ts s') :
    List.Forall₂ (Parameter.HasType r) ps ts ∧ s' = s := by
  induction ps generalizing s ts with
  | nil =>
    simp only [List.mapM_nil, pure_apply, EStateM.Result.ok.injEq] at h
    obtain ⟨rfl, rfl⟩ := h
    exact ⟨.nil, rfl⟩
  | cons p ps ih =>
    simp only [List.mapM_cons, bind_eq_ok, pure_apply, EStateM.Result.ok.injEq] at h
    obtain ⟨t, s₁, hp, ts, s₂, hps, rfl, rfl⟩ := h
    obtain ⟨ht, rfl⟩ := parameterType_eq_ok hp
    obtain ⟨hts, rfl⟩ := ih hps
    exact ⟨.cons ht hts, rfl⟩

theorem resultType_eq_ok {r : Registry} {m : Method} {t : Ty} {s s' : CheckState}
    (h : resultType r m s = .ok t s') : m.HasResult r t ∧ s' = s := by
  rw [resultType] at h
  unfold Method.HasResult
  cases hm : m.resultName with
  | none =>
    simp only [hm, pure_apply, EStateM.Result.ok.injEq] at h
    exact ⟨h.1.symm, h.2.symm⟩
  | some name =>
    simp only [hm] at h
    obtain ⟨hres, hcap, rfl⟩ := resolveConcrete_eq_ok h
    exact ⟨⟨hres, hcap⟩, rfl⟩

/-- What registering a method establishes. -/
def MethodRegistered (r : Registry) (c : Analysis) (Γ Γ' : Scope Ty Signature) (m : Method) :
    Prop :=
  ∃ signature, m.Obeys r c signature ∧ Γ.hasLocalFunction m.name m.arity = false ∧
    Γ' = Γ.defineFunction m.name m.arity signature

theorem passes_register {r : Registry} {m : Method} {s s' : CheckState} {u : Unit}
    (hk : s.scope.Keyed) (h : registerMethod r m s = .ok u s') :
    Passes [.method m] (fun c => MethodRegistered r c s.scope s'.scope m) s s' := by
  simp only [registerMethod, bind_eq_ok] at h
  obtain ⟨ts, s₁, hps, t, s₂, hres, h⟩ := h
  obtain ⟨hts, rfl⟩ := parameterTypes_eq_ok hps
  obtain ⟨ht, rfl⟩ := resultType_eq_ok hres
  have harity : Signature.arity ⟨m.name, ts, t⟩ = m.arity := hts.length_eq.symm
  rw [harity] at h
  simp only [get_apply, EStateM.Result.ok.injEq] at h
  obtain ⟨_, _, ⟨rfl, rfl⟩, h⟩ := h
  split at h
  · simp at h
  · rename_i hlocal
    simp only [modify_bind, record_apply, EStateM.Result.ok.injEq, true_and] at h
    subst h
    refine ⟨rfl, hk.defineFunction rfl harity, within_recordSignature _ m _, fun c hc => ?_⟩
    have hsig : c.signatures[m.node.id]? = some ⟨m.name, ts, t⟩ :=
      (hc (.method m) (by simp)).signatures.trans (by simp [Part.id])
    exact ⟨⟨m.name, ts, t⟩, ⟨hsig, rfl, hts, ht⟩, by simpa using hlocal, rfl⟩

theorem passes_registers {r : Registry} {ms : List Method} {s s' : CheckState} {u : Unit}
    (hk : s.scope.Keyed) (hn : Part.Distinct (ms.map .method))
    (h : ms.forM (registerMethod r) s = .ok u s') :
    Passes (ms.map .method) (fun c => Methods.Scoped r c s.scope ms s'.scope) s s' := by
  induction ms generalizing s with
  | nil =>
    simp only [List.forM, pure_apply, EStateM.Result.ok.injEq, true_and] at h
    subst h
    exact .silent hk rfl rfl fun _ => .nil
  | cons m ms ih =>
    simp only [List.forM, bind_eq_ok] at h
    obtain ⟨_, s₁, h₁, h₂⟩ := h
    have hn' : Part.Distinct ([.method m] ++ ms.map .method) := hn
    have hp := passes_register hk h₁
    refine (hp.comp hn' (ih hp.keyed hn'.right h₂)).mono fun c hc => ?_
    obtain ⟨hm, hms⟩ := hc
    obtain ⟨signature, hobeys, hlocal, hscope⟩ := hm
    rw [hscope] at hms
    exact .cons hobeys hlocal hms

/-! ## Bodies -/

theorem parameters_eq_ok {ps : List Parameter} {ts : List Ty} {s s' : CheckState} {u : Unit}
    (hl : ps.length = ts.length) (hk : s.scope.Keyed) (h : defineParameters ps ts s = .ok u s') :
    Parameters.Scoped s.scope ps ts s'.scope ∧ s'.scope.Keyed ∧
      s' = { s with scope := s'.scope } := by
  induction ps generalizing ts s with
  | nil =>
    obtain rfl : ts = [] := List.length_eq_zero_iff.1 hl.symm
    simp only [defineParameters, pure_apply, EStateM.Result.ok.injEq, true_and] at h
    subst h
    exact ⟨.nil, hk, rfl⟩
  | cons p ps ih =>
    cases ts with
    | nil => simp at hl
    | cons t ts =>
      simp only [defineParameters, bind_eq_ok, defineVariable_eq_ok] at h
      obtain ⟨_, _, ⟨hlocal, rfl⟩, h⟩ := h
      obtain ⟨hps, hk', hs⟩ := ih (by simpa using hl) (hk.defineVariable _ _) h
      exact ⟨.cons hlocal hps, hk', by rw [hs]⟩

/-- Analysis of the body of a method is sound, given its signature. -/
theorem passes_body {r : Registry} {m : Method} {signature : Signature} {s s' : CheckState}
    {u : Unit} (hk : s.scope.Keyed) (hn : Part.Distinct (Stmt.partsList m.body))
    (hs : s.analysis.signatures[m.node.id]? = some signature)
    (hl : m.parameters.length = signature.parameters.length) (h : methodBody r m s = .ok u s') :
    s'.scope = s.scope ∧
      Passes (Stmt.partsList m.body) (fun c => m.Scoped r c s.scope signature) s s' := by
  simp only [methodBody, get_bind, hs, withResult_eq_ok, inChild_eq_ok, bind_eq_ok] at h
  obtain ⟨_, ⟨s₂, ⟨_, s₁, hp, hb⟩, rfl⟩, rfl⟩ := h
  obtain ⟨hps, hk₁, hs₁⟩ := parameters_eq_ok hl hk.child hp
  have hbody := passes_stmts r m.body hk₁ hn hb
  have hr : s₁.result = signature.result := by rw [hs₁]
  have ha : s₁.analysis = s.analysis := by rw [hs₁]
  refine ⟨rfl, rfl, hk, ha ▸ hbody.within, fun c hc => ?_⟩
  exact ⟨s₁.scope, s₂.scope, hps, hr ▸ hbody.sound c hc⟩

/-- Analysis of all bodies is sound, as long as the signatures recorded before are
    there. -/
theorem passes_bodies {r : Registry} {a : Analysis} {ms : List Method} {s s' : CheckState}
    {u : Unit} (hk : s.scope.Keyed)
    (hn : Part.Distinct (ms.map .method ++ ms.flatMap fun m => Stmt.partsList m.body))
    (hms : ∀ m ∈ ms, ∃ signature, m.Obeys r a signature)
    (ha : Agrees (ms.map .method) a s.analysis) (h : ms.forM (methodBody r) s = .ok u s') :
    s'.scope = s.scope ∧
      Passes (ms.flatMap fun m => Stmt.partsList m.body) (fun c => ∀ m ∈ ms, ∃ signature,
        a.signatures[m.node.id]? = some signature ∧ m.Scoped r c s.scope signature) s s' := by
  induction ms generalizing s with
  | nil =>
    simp only [List.forM, pure_apply, EStateM.Result.ok.injEq, true_and] at h
    subst h
    exact ⟨rfl, .silent hk rfl rfl fun _ _ hm => absurd hm List.not_mem_nil⟩
  | cons m ms ih =>
    simp only [List.forM, bind_eq_ok] at h
    obtain ⟨_, s₁, h₁, h₂⟩ := h
    obtain ⟨signature, hsig, -, hps, -⟩ := hms m (by simp)
    rw [List.flatMap_cons] at hn ⊢
    have hs : s.analysis.signatures[m.node.id]? = some signature :=
      (ha (.method m) (by simp)).signatures.trans hsig
    obtain ⟨hscope, hpass⟩ := passes_body hk hn.right.left hs hps.length_eq h₁
    have hn' : Part.Distinct (ms.map .method ++ ms.flatMap fun m => Stmt.partsList m.body) := by
      refine List.Nodup.sublist (List.Sublist.map Part.id ?_) hn
      exact ((List.sublist_cons_self _ _).append (List.sublist_append_right _ _))
    -- the other signatures are still there after this body
    have ha' : Agrees (ms.map .method) a s₁.analysis := by
      intro p hp
      have hp' : p ∈ (m :: ms).map Part.method := List.mem_cons_of_mem _ hp
      have hid := hn.notMem_right hp'
      rw [List.map_append, List.mem_append, not_or] at hid
      exact (ha p hp').trans (hpass.within.sameAt hid.1)
    obtain ⟨hscope', hpass'⟩ := ih hpass.keyed hn' (fun m' hm' => hms m' (by simp [hm'])) ha' h₂
    refine ⟨hscope'.trans hscope, (hpass.comp hn.right hpass').mono fun c hc => ?_⟩
    obtain ⟨hm, hrest⟩ := hc
    rw [hscope] at hrest
    intro m' hm'
    rcases List.mem_cons.1 hm' with rfl | hm'
    · exact ⟨signature, hsig, hm⟩
    · exact hrest m' hm'

end Check

/-! ## Programs -/

theorem Methods.Scoped.obeys {r : Registry} {a : Analysis} {Γ Γ' : Scope Ty Signature}
    {ms : List Method} (h : Methods.Scoped r a Γ ms Γ') :
    ∀ m ∈ ms, ∃ signature, m.Obeys r a signature := by
  induction h with
  | nil => simp
  | cons hm _ _ ih =>
    intro m hmem
    rcases List.mem_cons.1 hmem with rfl | hmem
    · exact ⟨_, hm⟩
    · exact ih m hmem

theorem keyed_ofRegistry (r : Registry) : (CheckState.ofRegistry r).scope.Keyed := by
  suffices h : ∀ (fs : List ((String × Nat) × NativeFunction)) (Γ : Scope Ty Signature), Γ.Keyed →
      (fs.foldl (fun Γ f => Γ.defineFunction f.2.signature.name f.2.signature.arity f.2.signature)
        Γ).Keyed by
    refine h r.functions Scope.root ?_
    intro f hf name arity signature hs
    obtain rfl := List.mem_singleton.1 hf
    simp at hs
  intro fs
  induction fs with
  | nil => exact fun Γ hΓ => hΓ
  | cons f fs ih => exact fun Γ hΓ => ih _ (hΓ.defineFunction rfl rfl)

/-- The parts of a program in the order in which analysis meets them. -/
def Source.visits (s : Source) : List Part :=
  s.fields.flatMap Field.parts ++ (s.methods.map .method ++
    s.methods.flatMap fun m => Stmt.partsList m.body)

theorem Source.visits_perm (s : Source) : s.visits.Perm s.parts := by
  refine (List.Perm.refl _).append ?_
  induction s.methods with
  | nil => exact .refl _
  | cons m ms ih =>
    have h : (ms.map Part.method ++ (Stmt.partsList m.body ++
        ms.flatMap fun m => Stmt.partsList m.body)).Perm
        (Stmt.partsList m.body ++ ms.flatMap Method.parts) := by
      rw [← List.append_assoc]
      refine (List.perm_append_comm.append_right _).trans ?_
      rw [List.append_assoc]
      exact ih.append_left _
    simp only [List.map_cons, List.flatMap_cons, List.cons_append]
    refine (h.cons _).trans ?_
    rw [Method.parts, List.append_assoc, List.singleton_append]
    exact List.perm_middle.symm

open Analysis Check in
/-- **Soundness of analysis**: an accepted program obeys all rules, and only its
    parts have facts. -/
theorem sound_of_analyze {r : Registry} {s : Source} {a : Analysis}
    (hn : Part.Distinct s.parts) (h : analyze r s = .ok a) :
    s.Checked r a ∧ Within s.parts {} a := by
  have hv : Part.Distinct s.visits := (s.visits_perm.map Part.id).nodup_iff.2 hn
  rw [analyze] at h
  split at h
  · rename_i s' hs
    obtain rfl := Except.ok.inj h
    simp only [EStateM.run, source, inChild_eq_ok, bind_eq_ok] at hs
    obtain ⟨s₄, ⟨_, s₁, h₁, _, s₂, h₂, _, s₃, h₃, h₄⟩, rfl⟩ := hs
    have hk : (CheckState.ofRegistry r).scope.child.Keyed := (keyed_ofRegistry r).child
    have hfields := passes_fields hk hv.left h₁
    have hsignatures := passes_registers hfields.keyed hv.right.left h₂
    obtain ⟨main, hmain, rfl⟩ : ∃ main, (s₂.scope.function? "main" 0 = some main ∧
        main.result = .integer) ∧ s₃ = s₂ := by
      simp only [requireMain, get_bind] at h₃
      cases hm : s₂.scope.function? "main" 0 with
      | none => simp [hm] at h₃
      | some main =>
        simp only [hm] at h₃
        split at h₃
        · rename_i hr
          simp only [pure_apply, EStateM.Result.ok.injEq, true_and] at h₃
          exact ⟨main, ⟨rfl, hr⟩, h₃.symm⟩
        · simp at h₃
    have hobeys := (hsignatures.sound s₃.analysis fun p _ => SameAt.refl _ _).obeys
    obtain ⟨hscope, hbodies⟩ := passes_bodies hsignatures.keyed hv.right hobeys
      (fun p _ => SameAt.refl _ _) h₄
    have hall := hfields.comp hv (hsignatures.comp hv.right hbodies)
    obtain ⟨hfs, hms, hbs⟩ := hall.sound s₄.analysis fun p _ => SameAt.refl _ _
    refine ⟨⟨s₁.scope, s₃.scope, hfs, hms, ⟨main, hmain⟩, fun m hm => ?_⟩,
      hall.within.mono s.visits_perm.subset⟩
    obtain ⟨signature, hsig⟩ := hms.obeys m hm
    obtain ⟨signature', hsig', hbody⟩ := hbs m hm
    have hid := hv.right.notMem_right (List.mem_map_of_mem (f := Part.method) hm)
    have hsame := (hbodies.within.sameAt hid).signatures
    simp only [Part.id, hsig', hsig.1] at hsame
    obtain rfl := Option.some.inj hsame
    exact ⟨signature, hsig, hbody⟩
  · cases h

theorem Program.read_eq_ok {text : String} {s : Source} :
    Program.read text = .ok s ↔ ∃ tokens, lex text = .ok tokens ∧ parse tokens = .ok s := by
  rw [Program.read]
  cases lex text with
  | error e => simp [Except.mapError, bind, Except.bind]
  | ok tokens =>
    cases hp : parse tokens with
    | error e => simp [hp, Except.mapError, bind, Except.bind]
    | ok s' => simp [hp, Except.mapError, bind, Except.bind]

/-- A text that passes a check has a tree and facts. -/
theorem exists_of_accepted {r : Registry} {w : World} {fuel : Nat} (text : String)
    (h : (Program.process r w .checkOnly fuel text).1 = .accepted) :
    ∃ s a, Program.read text = .ok s ∧ analyze r s = .ok a := by
  rw [Program.process] at h
  cases hr : Program.read text with
  | error e => simp [hr] at h
  | ok s =>
    cases ha : analyze r s with
    | error e => simp [hr, ha, Program.check, Except.mapError, Except.map] at h
    | ok a => exact ⟨s, a, rfl, ha⟩

/-- A text that is accepted and whose tree passes a test has such a tree and facts. -/
theorem exists_of_check {r : Registry} {text : String} {test : Source → Bool}
    (h : (Program.read text).toOption.map (fun s => test s && (analyze r s).isOk) = some true) :
    ∃ tokens s a, lex text = .ok tokens ∧ parse tokens = .ok s ∧ analyze r s = .ok a ∧
      test s = true := by
  cases hr : Program.read text with
  | error e =>
    rw [hr] at h
    cases h
  | ok s =>
    rw [hr] at h
    obtain ⟨tokens, hl, hp⟩ := Program.read_eq_ok.1 hr
    obtain ⟨htest, hok⟩ := Bool.and_eq_true_iff.1 (Option.some.inj h)
    cases ha : analyze r s with
    | error e =>
      rw [ha] at hok
      cases hok
    | ok a => exact ⟨tokens, s, a, hl, hp, ha, htest⟩

end TinyScript
