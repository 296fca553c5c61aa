import Mathlib.Data.List.Nodup
import TinyScript.Proofs.Machine.Origin
import TinyScript.Proofs.Typing.Weakening

/-
  The order of methods does not matter.

  Analysis registers all methods before it looks into any of them, and a run declares all of
  them before it calls any.  Two registrations, two declarations and the analyses of two bodies
  can be exchanged, and so whole lists of them can be permuted.

  * `forM_of_perm`: steps that can be exchanged can be permuted;
  * `Check.registerMethod_swap`, `Check.methodBody_swap`: analysis of two methods;
  * `Eval.defineMethod_swap`: declaration of two methods;
  * `order_irrelevant`: programs that differ in the order of methods are accepted with the same
    facts and run alike.
-/

namespace TinyScript

/-! ## Steps that can be exchanged -/

section
variable {ε σ α : Type} {f : α → EStateM ε σ PUnit} {D : α → α → Prop} {Q : α → Prop}
  {P : σ → Prop}

/-- Steps for the elements of a list can be permuted if any two of them can be exchanged.  `P`
    is what every step keeps, `D` what any two elements of the list satisfy. -/
theorem forM_of_perm (hsymm : ∀ a b, D a b → D b a)
    (hkeeps : ∀ a s t, Q a → P s → f a s = .ok ⟨⟩ t → P t)
    (hswap : ∀ a b s s₁ t, Q a → Q b → D a b → P s → f a s = .ok ⟨⟩ s₁ → f b s₁ = .ok ⟨⟩ t →
      ∃ s₂, f b s = .ok ⟨⟩ s₂ ∧ f a s₂ = .ok ⟨⟩ t)
    {as bs : List α} (h : as.Perm bs) (hQ : ∀ a ∈ as, Q a) (hD : as.Pairwise D) {s t : σ}
    (hs : P s) (hok : as.forM f s = .ok ⟨⟩ t) : bs.forM f s = .ok ⟨⟩ t := by
  induction h generalizing s with
  | nil => exact hok
  | cons a _ ih =>
    obtain ⟨ha, has⟩ := List.forall_mem_cons.1 hQ
    obtain ⟨⟨⟩, s₁, h₁, h₂⟩ := bind_eq_ok.1 hok
    exact bind_eq_ok.2 ⟨⟨⟩, s₁, h₁, ih has hD.of_cons (hkeeps a s s₁ ha hs h₁) h₂⟩
  | swap a b as =>
    obtain ⟨hb, ha, -⟩ := List.forall_mem_cons.1 hQ |>.imp_right List.forall_mem_cons.1
    have hba : D b a := List.rel_of_pairwise_cons hD (List.mem_cons_self ..)
    obtain ⟨⟨⟩, s₁, h₁, hrest⟩ := bind_eq_ok.1 hok
    obtain ⟨⟨⟩, s₂, h₂, h₃⟩ := bind_eq_ok.1 hrest
    obtain ⟨s₃, h₁', h₂'⟩ := hswap b a s s₁ s₂ hb ha hba hs h₁ h₂
    exact bind_eq_ok.2 ⟨⟨⟩, s₃, h₁', bind_eq_ok.2 ⟨⟨⟩, s₂, h₂', h₃⟩⟩
  | trans hab _ ih₁ ih₂ =>
    exact ih₂ (fun a ha => hQ a (hab.mem_iff.2 ha)) ((hab.pairwise_iff @hsymm).1 hD) hs
      (ih₁ hQ hD hs hok)

end

/-- Two definitions of functions under different names or arities can be exchanged. -/
theorem Scope.defineFunction_comm {V F : Type} (Γ : Scope V F) {f f' : String} {k k' : Nat}
    {g g' : F} (h : ¬(f' = f ∧ k' = k)) :
    (Γ.defineFunction f k g).defineFunction f' k' g' =
      (Γ.defineFunction f' k' g').defineFunction f k g := by
  have hframe : ∀ φ : Frame V F, (φ.defineFunction f k g).defineFunction f' k' g' =
      (φ.defineFunction f' k' g').defineFunction f k g := by
    intro φ
    rw [Frame.defineFunction, Frame.defineFunction, Frame.mk.injEq]
    refine ⟨rfl, funext fun n => funext fun l => ?_⟩
    simp only [Frame.functions_defineFunction]
    by_cases hn : n = f ∧ l = k
    · have hn' : ¬(n = f' ∧ l = k') := fun h' => h ⟨h'.1.symm.trans hn.1, h'.2.symm.trans hn.2⟩
      rw [if_neg hn', if_pos hn, if_pos hn]
    · rw [if_neg hn, if_neg hn]
  cases Γ with
  | nil => exact congrArg (· :: []) (hframe {})
  | cons φ Γ => exact congrArg (· :: Γ) (hframe φ)

/-! ## Analysis -/

namespace Analysis

theorem SameAt.symm {id : Nat} {a b : Analysis} (h : SameAt id a b) : SameAt id b a :=
  ⟨h.types.symm, h.bindings.symm, h.declarations.symm, h.signatures.symm⟩

theorem recordSignature_comm (a : Analysis) {i j : Nat} (h : i ≠ j) (σ τ : Signature) :
    (a.recordSignature i σ).recordSignature j τ = (a.recordSignature j τ).recordSignature i σ := by
  refine ext_sameAt fun id => ⟨rfl, rfl, rfl, ?_⟩
  simp only [recordSignature, Std.ExtTreeMap.getElem?_insert, Nat.compare_eq_eq]
  split
  · rename_i hi
    rw [if_neg fun hj => h (hi.trans hj.symm)]
  · rfl

/-- Two changes of the table at identities of their own can be exchanged. -/
theorem comm_of_within {ps qs : List Part} {f g : Analysis → Analysis} {a : Analysis}
    (hf : Pointwise f) (hg : Pointwise g) (hd : ∀ p ∈ ps, p.id ∉ qs.map Part.id)
    (hfa : Within ps a (f a)) (hga : Within qs a (g a)) (hfga : Within ps (g a) (f (g a)))
    (hgfa : Within qs (f a) (g (f a))) : g (f a) = f (g a) := by
  refine ext_sameAt fun id => ?_
  by_cases hid : id ∈ qs.map Part.id
  · have hid' : id ∉ ps.map Part.id := by
      intro hids
      obtain ⟨p, hp, rfl⟩ := List.mem_map.1 hids
      exact hd p hp hid
    exact (hg (hfa.sameAt hid')).symm.trans (hfga.sameAt hid')
  · exact (hgfa.sameAt hid).symm.trans (hf (hga.sameAt hid))

end Analysis

namespace Check

open Analysis

variable {r : Registry}

/-- Finding the type of a parameter does not touch the state. -/
theorem parameterType_eq_pure {p : Parameter} {t : Ty} {s s' : CheckState}
    (h : parameterType r p s = .ok t s') : parameterType r p = pure t := by
  unfold parameterType at h ⊢
  cases hp : p.typeName with
  | none =>
    rw [hp] at h
    cases h
    rfl
  | some name =>
    simp only [hp, resolve] at h ⊢
    rw [(resolve_eq_ok h).1]

theorem parameterTypes_eq_pure {ps : List Parameter} {ts : List Ty} {s s' : CheckState}
    (h : ps.mapM (parameterType r) s = .ok ts s') : ps.mapM (parameterType r) = pure ts := by
  induction ps generalizing ts s with
  | nil =>
    cases h
    rfl
  | cons p ps ih =>
    rw [List.mapM_cons] at h
    obtain ⟨t, s₁, hp, hrest⟩ := bind_eq_ok.1 h
    obtain ⟨us, s₂, hps, hus⟩ := bind_eq_ok.1 hrest
    cases hus
    rw [List.mapM_cons, parameterType_eq_pure hp, ih hps]
    rfl

theorem resultType_eq_pure {m : Method} {t : Ty} {s s' : CheckState}
    (h : resultType r m s = .ok t s') : resultType r m = pure t := by
  unfold resultType at h ⊢
  cases hm : m.resultName with
  | none =>
    rw [hm] at h
    cases h
    rfl
  | some name =>
    simp only [hm] at h ⊢
    obtain ⟨hresolve, hcapability, -⟩ := resolveConcrete_eq_ok h
    simp only [resolveConcrete, resolve, hresolve, pure_bind, hcapability]
    rfl

/-- The state after a method has been registered. -/
def registered (m : Method) (signature : Signature) (s : CheckState) : CheckState :=
  { s with
    scope := s.scope.defineFunction m.name m.arity signature
    analysis := s.analysis.recordSignature m.node.id signature }

/-- A method that can be registered can be registered, with the same signature, wherever its
    name and arity are free. -/
theorem registerMethod_eq_ok {m : Method} {s s' : CheckState} {u : Unit}
    (h : registerMethod r m s = .ok u s') :
    ∃ signature, s.scope.hasLocalFunction m.name m.arity = false ∧ s' = registered m signature s ∧
      ∀ s₁ : CheckState, s₁.scope.hasLocalFunction m.name m.arity = false →
        registerMethod r m s₁ = .ok () (registered m signature s₁) := by
  obtain ⟨ts, s₁, hparameters, hrest⟩ := bind_eq_ok.1 h
  obtain ⟨t, s₂, hresult, -⟩ := bind_eq_ok.1 hrest
  have harity : Signature.arity ⟨m.name, ts, t⟩ = m.arity :=
    (parameterTypes_eq_ok hparameters).1.length_eq.symm
  have hregister : registerMethod r m = (do
      if (← get).scope.hasLocalFunction m.name m.arity then
        throw (.functionRedefinition m.name m.arity)
      else modify (registered m ⟨m.name, ts, t⟩)) := by
    rw [registerMethod, parameterTypes_eq_pure hparameters, pure_bind, resultType_eq_pure hresult,
      pure_bind]
    simp only [harity]
    rfl
  rw [hregister, get_bind] at h
  refine ⟨⟨m.name, ts, t⟩, ?_⟩
  split at h
  · cases h
  · rename_i hlocal
    cases h
    refine ⟨by simpa using hlocal, rfl, fun s₁ hs₁ => ?_⟩
    rw [hregister, get_bind, hs₁]
    rfl

/-- Two registrations can be exchanged. -/
theorem registerMethod_swap {m m' : Method} {s s₁ s₂ : CheckState} (hid : m.node.id ≠ m'.node.id)
    (h : registerMethod r m s = .ok () s₁) (h' : registerMethod r m' s₁ = .ok () s₂) :
    ∃ s₃, registerMethod r m' s = .ok () s₃ ∧ registerMethod r m s₃ = .ok () s₂ := by
  obtain ⟨signature, hfree, rfl, hagain⟩ := registerMethod_eq_ok h
  obtain ⟨signature', hfree', rfl, hagain'⟩ := registerMethod_eq_ok h'
  simp only [registered, Scope.hasLocalFunction_defineFunction, Bool.or_eq_false_iff,
    decide_eq_false_iff_not] at hfree'
  refine ⟨_, hagain' s hfree'.2, ?_⟩
  rw [hagain]
  · simp only [registered]
    rw [Scope.defineFunction_comm _ hfree'.1, recordSignature_comm _ hid]
  · simp only [registered, Scope.hasLocalFunction_defineFunction, Bool.or_eq_false_iff,
      decide_eq_false_iff_not]
    exact ⟨fun heq => hfree'.1 ⟨heq.1.symm, heq.2.symm⟩, hfree⟩

/-- What analysis of bodies relies on: every method has been registered. -/
def Registered (ms : List Method) (s : CheckState) : Prop :=
  s.scope.Keyed ∧ ∀ m ∈ ms, ∃ signature, s.analysis.signatures[m.node.id]? = some signature ∧
    m.parameters.length = signature.parameters.length

/-- Analysis of a registered method leaves everything but the table as it was, and changes the
    table at identities in the body only. -/
theorem Registered.passes {ms : List Method} {m : Method} {s s' : CheckState}
    (hs : Registered ms s) (hm : m ∈ ms) (hn : Part.Distinct (Stmt.partsList m.body))
    (h : methodBody r m s = .ok () s') :
    s' = { s with analysis := s'.analysis } ∧
      Within (Stmt.partsList m.body) s.analysis s'.analysis := by
  obtain ⟨signature, hsignature, hlength⟩ := hs.2 m hm
  obtain ⟨hscope, hpass⟩ := passes_body hs.1 hn hsignature hlength h
  refine ⟨?_, hpass.within⟩
  rw [← hscope, ← hpass.result]

/-- Analysis of a registered method makes the same changes in every table that has its
    signature. -/
theorem Registered.methodBody_eq_ok {ms : List Method} {m : Method} {s s' : CheckState}
    (hs : Registered ms s) (hm : m ∈ ms) (hn : Part.Distinct (Stmt.partsList m.body))
    (h : methodBody r m s = .ok () s') :
    ∃ g, Pointwise g ∧ s'.analysis = g s.analysis ∧ ∀ b, SameAt m.node.id s.analysis b →
      methodBody r m { s with analysis := b } = .ok () { s with analysis := g b } := by
  obtain ⟨hs', -⟩ := hs.passes hm hn h
  obtain ⟨g, Γ, hg, hanalysis, -, hb⟩ := carries_methodBody (I := (· = m.node.id))
    (.refl r) rfl h (.refl s.scope)
  have hsame : EStateM.Result.ok () s' = _ := h.symm.trans (hb s.analysis fun id _ => .refl id _)
  have hΓ : s'.scope = Γ := congrArg CheckState.scope (EStateM.Result.ok.inj hsame).2
  refine ⟨g, hg, hanalysis, fun b hid => ?_⟩
  have hok := hb b fun id heq => heq ▸ hid
  rw [← hΓ] at hok
  rw [hs'] at hok
  exact hok

/-- After the analysis of a body every method is still registered. -/
theorem Registered.after {ms : List Method} {m : Method} {s s' : CheckState}
    (hs : Registered ms s) (hm : m ∈ ms)
    (hn : Part.Distinct (ms.map .method ++ Stmt.partsList m.body))
    (h : methodBody r m s = .ok () s') : Registered ms s' := by
  obtain ⟨hs', hwithin⟩ := hs.passes hm hn.right h
  refine ⟨by rw [hs']; exact hs.1, fun m' hm' => ?_⟩
  obtain ⟨signature, hsignature, hlength⟩ := hs.2 m' hm'
  have hid := hn.notMem_right (List.mem_map_of_mem (f := Part.method) hm')
  exact ⟨signature, (hwithin.sameAt hid).signatures.trans hsignature, hlength⟩

/-- Two bodies can be analysed in either order. -/
theorem methodBody_swap {ms : List Method} {m m' : Method} {s s₁ s₂ : CheckState}
    (hs : Registered ms s) (hm : m ∈ ms) (hm' : m' ∈ ms)
    (hn : Part.Distinct (ms.map .method ++ Stmt.partsList m.body))
    (hn' : Part.Distinct (ms.map .method ++ Stmt.partsList m'.body))
    (hd : ∀ p ∈ Stmt.partsList m.body, p.id ∉ (Stmt.partsList m'.body).map Part.id)
    (h : methodBody r m s = .ok () s₁) (h' : methodBody r m' s₁ = .ok () s₂) :
    ∃ s₃, methodBody r m' s = .ok () s₃ ∧ methodBody r m s₃ = .ok () s₂ := by
  have hid := hn.notMem_right (List.mem_map_of_mem (f := Part.method) hm')
  have hid' := hn'.notMem_right (List.mem_map_of_mem (f := Part.method) hm)
  have hs₁ : Registered ms s₁ := hs.after hm hn h
  obtain ⟨heq₁, hw₁⟩ := hs.passes hm hn.right h
  obtain ⟨heq₂, hw₂⟩ := hs₁.passes hm' hn'.right h'
  obtain ⟨f, hf, hfs, hagain⟩ := hs.methodBody_eq_ok hm hn.right h
  obtain ⟨g, hg, hgs, hagain'⟩ := hs₁.methodBody_eq_ok hm' hn'.right h'
  -- the second body first, on the table that has nothing of the first body yet
  have h₃ : methodBody r m' s = .ok () { s with analysis := g s.analysis } := by
    have hok := hagain' s.analysis (hw₁.sameAt hid).symm
    rwa [heq₁] at hok
  have hs₃ := hs.after hm' hn' h₃
  obtain ⟨-, hw₃⟩ := hs.passes hm' hn'.right h₃
  have h₄ := hagain (g s.analysis) (hw₃.sameAt hid')
  obtain ⟨-, hw₄⟩ := hs₃.passes hm hn.right h₄
  refine ⟨_, h₃, h₄.trans ?_⟩
  rw [hgs, hfs] at hw₂
  rw [hfs] at hw₁
  rw [heq₂, heq₁, hgs, hfs, comm_of_within hf hg hd hw₁ hw₃ hw₄ hw₂]

/-- The identities in the bodies of two methods are different. -/
def Apart (m m' : Method) : Prop :=
  ∀ p ∈ Stmt.partsList m.body, p.id ∉ (Stmt.partsList m'.body).map Part.id

theorem Apart.symm {m m' : Method} (h : Apart m m') : Apart m' m := by
  intro p hp hids
  obtain ⟨q, hq, heq⟩ := List.mem_map.1 hids
  exact h q hq (heq ▸ List.mem_map_of_mem hp)

/-- The bodies of methods, and their own identities, have nothing in common. -/
theorem distinct_body {ms : List Method} {m : Method} (hm : m ∈ ms)
    (hn : Part.Distinct (ms.map .method ++ ms.flatMap fun m => Stmt.partsList m.body)) :
    Part.Distinct (ms.map .method ++ Stmt.partsList m.body) := by
  refine List.Nodup.sublist (List.Sublist.map Part.id ?_) hn
  rw [List.flatMap_def]
  exact (List.Sublist.refl _).append (List.sublist_flatten_of_mem (List.mem_map_of_mem hm))

theorem pairwise_apart {ms : List Method}
    (hn : Part.Distinct (ms.flatMap fun m => Stmt.partsList m.body)) : ms.Pairwise Apart := by
  rw [Part.Distinct, List.map_flatMap, List.nodup_flatMap] at hn
  exact hn.2.imp fun hd p hp hids => hd (List.mem_map_of_mem hp) hids

theorem requireMain_state {s s' : CheckState} {u : Unit} (h : requireMain s = .ok u s') :
    s' = s := by
  rw [requireMain, get_bind] at h
  cases hmain : s.scope.function? "main" 0 with
  | none =>
    rw [hmain] at h
    cases h
  | some main =>
    simp only [hmain] at h
    split at h <;> cases h
    rfl

/-- A permuted list of methods is analysed like the list itself. -/
theorem source_of_perm {s : Source} {ms : List Method} {σ σ' : CheckState}
    (hkeyed : σ.scope.Keyed) (hn : Part.Distinct s.parts) (hms : s.methods.Perm ms)
    (h : source r s σ = .ok () σ') : source r { s with methods := ms } σ = .ok () σ' := by
  have hv : Part.Distinct s.visits := (s.visits_perm.map Part.id).nodup_iff.2 hn
  obtain ⟨σ₄, hbody, rfl⟩ := inChild_eq_ok.1 h
  obtain ⟨⟨⟩, σ₁, hfields, hrest⟩ := bind_eq_ok.1 hbody
  obtain ⟨⟨⟩, σ₂, hregister, hrest⟩ := bind_eq_ok.1 hrest
  obtain ⟨⟨⟩, σ₃, hmain, hbodies⟩ := bind_eq_ok.1 hrest
  have hpassed := passes_fields hkeyed.child hv.left hfields
  have hregistered := passes_registers hpassed.keyed hv.right.left hregister
  have hregister' : ms.forM (registerMethod r) σ₁ = .ok ⟨⟩ σ₂ := by
    refine forM_of_perm (D := fun m m' => m.node.id ≠ m'.node.id) (Q := fun _ => True)
      (P := fun _ => True) (fun _ _ => Ne.symm) (fun _ _ _ _ _ _ => trivial) ?_ hms
      (fun _ _ => trivial) ?_ trivial hregister
    · exact fun m m' s s₁ t _ _ hid _ => registerMethod_swap hid
    · have hids := hv.right.left
      rw [Part.Distinct, List.map_map] at hids
      exact List.pairwise_map.1 hids
  obtain rfl := requireMain_state hmain
  have hmethods : Registered s.methods σ₃ := by
    refine ⟨hregistered.keyed, fun m hm => ?_⟩
    obtain ⟨signature, hsignature, -, hparameters, -⟩ :=
      (hregistered.sound σ₃.analysis fun p _ => SameAt.refl _ _).obeys m hm
    exact ⟨signature, hsignature, hparameters.length_eq⟩
  have hbodies' : ms.forM (methodBody r) σ₃ = .ok ⟨⟩ σ₄ := by
    refine forM_of_perm (D := Apart) (Q := (· ∈ s.methods)) (P := Registered s.methods)
      (fun _ _ => Apart.symm) ?_ ?_ hms (fun _ hm => hm) (pairwise_apart hv.right.right)
      hmethods hbodies
    · exact fun m _ _ hm hs => hs.after hm (distinct_body hm hv.right)
    · exact fun m m' _ _ _ hm hm' hd hs => methodBody_swap hs hm hm'
        (distinct_body hm hv.right) (distinct_body hm' hv.right) hd
  refine inChild_eq_ok.2 ⟨σ₄, ?_, rfl⟩
  exact bind_eq_ok.2 ⟨⟨⟩, σ₁, hfields, bind_eq_ok.2 ⟨⟨⟩, σ₃, hregister',
    bind_eq_ok.2 ⟨⟨⟩, σ₃, hmain, hbodies'⟩⟩⟩

end Check

/-! ## Execution -/

/-- Two methods of different names or arities. -/
def Method.Differs (d d' : Method) : Prop := ¬(d'.name = d.name ∧ d'.arity = d.arity)

theorem Method.Differs.symm {d d' : Method} (h : d.Differs d') : d'.Differs d :=
  fun heq => h ⟨heq.1.symm, heq.2.symm⟩

/-- Methods that are registered one after the other are new to the scope, and any two of them
    differ. -/
theorem Methods.Scoped.differ {r : Registry} {a : Analysis} {Γ Γ' : Scope Ty Signature}
    {ds : List Method} (h : Methods.Scoped r a Γ ds Γ') :
    (∀ d ∈ ds, Γ.hasLocalFunction d.name d.arity = false) ∧ ds.Pairwise Method.Differs := by
  induction h with
  | nil => exact ⟨List.forall_mem_nil _, .nil⟩
  | cons _ hfree _ ih =>
    obtain ⟨hnew, hpairwise⟩ := ih
    simp only [Scope.hasLocalFunction_defineFunction, Bool.or_eq_false_iff,
      decide_eq_false_iff_not] at hnew
    exact ⟨List.forall_mem_cons.2 ⟨hfree, fun d hd => (hnew d hd).2⟩,
      .cons (fun d hd => (hnew d hd).1) hpairwise⟩

namespace Eval

/-- Two declarations of methods that differ can be exchanged. -/
theorem defineMethod_swap {d d' : Method} {m m₁ m₂ : Machine} (hd : d.Differs d')
    (h : defineMethod d m = .ok ⟨⟩ m₁) (h' : defineMethod d' m₁ = .ok ⟨⟩ m₂) :
    ∃ m₃, defineMethod d' m = .ok ⟨⟩ m₃ ∧ defineMethod d m₃ = .ok ⟨⟩ m₂ := by
  rw [defineMethod_apply] at h h'
  obtain ⟨-, rfl⟩ := EStateM.Result.ok.inj h
  obtain ⟨-, rfl⟩ := EStateM.Result.ok.inj h'
  refine ⟨_, defineMethod_apply d' m, ?_⟩
  simp only [defineMethod_apply, Scope.defineFunction_comm _ hd]

/-- A permuted list of methods that differ is declared like the list itself. -/
theorem defineMethods_of_perm {ds ds' : List Method} (hds : ds.Perm ds')
    (hd : ds.Pairwise Method.Differs) : ds'.forM defineMethod = ds.forM defineMethod := by
  funext m
  cases h : ds.forM defineMethod m with
  | ok u m' =>
    refine forM_of_perm (f := defineMethod) (Q := fun _ => True) (P := fun _ => True)
      (fun _ _ => Method.Differs.symm) (fun _ _ _ _ _ _ => trivial) ?_ hds (fun _ _ => trivial)
      hd trivial h
    exact fun _ _ _ _ _ _ _ hd _ => defineMethod_swap hd
  | error e m' => exact absurd h defineMethods_ne_error

end Eval

/-! ## Programs -/

/-- **The order of methods does not matter.**  An accepted program is accepted in every other
    order of its methods, with the same facts about every node, and has the same value or error
    and the same effect on the world whatever fuel it is given. -/
theorem order_irrelevant {tokens : List Token} {r : Registry} {s : Source} {a : Analysis}
    {ms : List Method} (hp : parse tokens = .ok s) (ha : analyze r s = .ok a)
    (hms : s.methods.Perm ms) :
    analyze r { s with methods := ms } = .ok a ∧
      ∀ w fuel, Program.value r w fuel { s with methods := ms } = Program.value r w fuel s := by
  have hn : Part.Distinct s.parts := nodup_ids_of_parse hp
  obtain ⟨σ, hσ, rfl⟩ := analyze_eq_ok.1 ha
  refine ⟨analyze_eq_ok.2 ⟨σ, Check.source_of_perm (keyed_ofRegistry r) hn hms hσ, rfl⟩, ?_⟩
  intro w fuel
  obtain ⟨⟨Γ₁, Γ₂, -, hscoped, -⟩, -⟩ := sound_of_analyze hn ha
  have hsource : Eval.source r fuel { s with methods := ms } = Eval.source r fuel s := by
    rw [Eval.source, Eval.source, Eval.defineMethods_of_perm hms hscoped.differ.2]
  rw [Program.value, hsource, Program.value]

/-- A program whose `main` calls a method declared after it. -/
def twiceText : String :=
  "DEF main(): Integer DO RETURN twice(3); END DEF twice(n: Integer): Integer DO RETURN n + n; END"

/-- The names of the methods of a program, in order. -/
def Source.methodNames (s : Source) : List String := s.methods.map Method.name

theorem order_irrelevant_twice : ∃ tokens s a,
    lex twiceText = .ok tokens ∧ parse tokens = .ok s ∧ analyze Registry.standard s = .ok a ∧
      s.methodNames = ["main", "twice"] ∧ s.methods.Perm s.methods.reverse ∧
      analyze Registry.standard { s with methods := s.methods.reverse } = .ok a ∧
      ∀ w fuel, Program.value Registry.standard w fuel { s with methods := s.methods.reverse } =
        Program.value Registry.standard w fuel s := by
  have hcheck : (Program.read twiceText).toOption.map (fun s =>
      s.methodNames == ["main", "twice"] && (analyze Registry.standard s).isOk) = some true := by
    decide +kernel
  obtain ⟨tokens, s, a, hl, hp, ha, hnames⟩ := exists_of_check hcheck
  have hperm : s.methods.Perm s.methods.reverse := (List.reverse_perm _).symm
  exact ⟨tokens, s, a, hl, hp, ha, beq_iff_eq.1 hnames, hperm, order_irrelevant hp ha hperm⟩

end TinyScript
