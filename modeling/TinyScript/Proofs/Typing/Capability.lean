import TinyScript.Proofs.Typing.Universe

/-
  Where capability types are recorded.

  A capability says what a value can do, and only parameters may be declared with
  one.  Annotations are checked for this, but a declaration without annotation takes
  over the type of its value, whatever it is.  So a variable that is initialised with
  a parameter of a capability type has this type too, and so has everything
  initialised with that variable.

  There is no other way out of a parameter: the facts recorded about an accepted
  program are concrete away from its parameters exactly if no declaration copies a
  parameter of a capability type (`concrete_iff_not_copiesCapability`).

  What a variable stands for is read off the tree (`Source.occurrences`); that this
  is also what analysis takes it for is the invariant `Sites.Explain`.
-/

namespace TinyScript

/-! ## What variables stand for -/

/-- What introduces a variable. -/
inductive Site where
  /-- A global variable. -/
  | field (f : Field)
  /-- A parameter of a method. -/
  | parameter (p : Parameter)
  /-- A local declaration. -/
  | declaration (d : Declaration)
  /-- A loop over a range, whose elements it takes. -/
  | element

/-- The visible variables, with what introduced them. -/
abbrev Sites := Scope Site Empty

/-- A part of a program, with the variables that are visible there. -/
structure Occurrence where
  /-- The visible variables. -/
  sites : Sites
  /-- The part. -/
  part : Part

namespace Sites

/-- Some parts, all with the same visible variables. -/
def see (env : Sites) (ps : List Part) : List Occurrence := ps.map (Occurrence.mk env)

/-- Global variables become visible one after the other. -/
def bindFields (env : Sites) (fs : List Field) : Sites :=
  fs.foldl (fun env f => env.defineVariable f.name (.field f)) env

/-- Parameters become visible one after the other. -/
def bindParameters (env : Sites) (ps : List Parameter) : Sites :=
  ps.foldl (fun env p => env.defineVariable p.name (.parameter p)) env

/-- A declaration is visible after it; other statements show nothing. -/
def bindStmt (env : Sites) : Stmt → Sites
  | .declare d => env.defineVariable d.name (.declaration d)
  | _ => env

end Sites

mutual

/-- The parts of a statement, with what is visible there. -/
def Stmt.occurrences : Stmt → Sites → List Occurrence
  | .branch c thenBody elseBody, env =>
    env.see c.parts ++ Stmt.occurrencesList thenBody env.child ++
      Stmt.occurrencesList elseBody env.child
  | .forEach x value body, env =>
    env.see value.parts ++ Stmt.occurrencesList body (env.child.defineVariable x .element)
  | .loop c body, env => env.see c.parts ++ Stmt.occurrencesList body env.child
  | s, env => env.see s.parts
termination_by structural s => s

/-- The parts of some statements, each of which sees those before it. -/
def Stmt.occurrencesList : List Stmt → Sites → List Occurrence
  | [], _ => []
  | s :: ss, env => s.occurrences env ++ Stmt.occurrencesList ss (env.bindStmt s)
termination_by structural ss => ss

end

/-- The parts of global variables, each of which sees those before it. -/
def Field.occurrencesList : List Field → Sites → List Occurrence
  | [], _ => []
  | f :: fs, env =>
    env.see f.parts ++ Field.occurrencesList fs (env.defineVariable f.name (.field f))

/-- The parts of a method: the body sees the parameters. -/
def Method.occurrences (env : Sites) (m : Method) : List Occurrence :=
  Stmt.occurrencesList m.body (Sites.bindParameters env.child m.parameters) ++ env.see [.method m]

/-- The parts of a program, with what is visible there. -/
def Source.occurrences (s : Source) : List Occurrence :=
  Field.occurrencesList s.fields Scope.root ++
    s.methods.flatMap (Method.occurrences (Sites.bindFields Scope.root s.fields))

/-! ## Capabilities -/

/-- Whether the declared type of a parameter is a capability; without annotation it
    is. -/
def Parameter.isCapability (r : Registry) (p : Parameter) : Bool :=
  match p.typeName with
  | some name => (r.resolve? name).any Ty.isCapability
  | none => true

/-- Whether a variable is a parameter with a capability as its declared type. -/
def Site.isCapability (r : Registry) : Site → Bool
  | parameter p => p.isCapability r
  | _ => false

/-- Whether an expression is nothing but such a parameter. -/
def Expr.isCapability (r : Registry) (env : Sites) : Expr → Bool
  | .var _ x => (env.lookup? x).any (Site.isCapability r)
  | _ => false

/-- Whether the part is a declaration without annotation whose value is such a
    parameter. -/
def Occurrence.copiesCapability (r : Registry) : Occurrence → Bool
  | ⟨env, .declaration d⟩ => d.typeName.isNone && d.value.any (Expr.isCapability r env)
  | _ => false

/-- Whether some declaration in the program copies a parameter like this. -/
def Source.copiesCapability (r : Registry) (s : Source) : Bool :=
  s.occurrences.any (Occurrence.copiesCapability r)

/-- The part is a variable that stands for a parameter declared with this type. -/
def Occurrence.ReadsParameter (r : Registry) (t : Ty) (o : Occurrence) : Prop :=
  ∃ n x p, o.part = .expr (.var n x) ∧ o.sites.lookup? x = some (.parameter p) ∧ p.HasType r t

/-- Recorded types are concrete except at parameters: declared types are no
    capabilities, and an expression whose type is one is a variable that stands for
    a parameter declared with it. -/
structure Analysis.Concrete (r : Registry) (a : Analysis) (s : Source) : Prop where
  declarations : ∀ p ∈ s.parts, p.isDeclared = true → ∀ t, a.declarations[p.id]? = some t →
    t.isCapability = false
  expressions : ∀ e, Part.expr e ∈ s.parts → ∀ t, a.types[e.id]? = some t →
    t.isCapability = true → ∃ o ∈ s.occurrences, o.part = .expr e ∧ o.ReadsParameter r t

/-- No result of a function or method of the host and no field of its objects is a
    capability. -/
structure Registry.Definite (r : Registry) : Prop where
  functions : ∀ f ∈ r.functions, f.2.signature.result.isCapability = false
  fields : ∀ type x t, (r.describe type).fieldType? x = some t → t.isCapability = false
  methods : ∀ type x k f, (r.describe type).method? x k = some f →
    f.signature.result.isCapability = false

theorem definite_standard : Registry.standard.Definite := by
  have hdescribe : ∀ type, Registry.standard.describe type = { name := type.name } := fun _ => rfl
  refine ⟨by decide, fun type x t ht => ?_, fun type x k f hf => ?_⟩
  · rw [hdescribe] at ht
    cases ht
  · rw [hdescribe] at hf
    cases hf

/-! ## The occurrences are the parts -/

section
variable (env : Sites)

@[simp] theorem Sites.mem_see {ps : List Part} {o : Occurrence} :
    o ∈ env.see ps ↔ o.part ∈ ps ∧ o.sites = env := by
  constructor
  · intro ho
    obtain ⟨p, hp, rfl⟩ := List.mem_map.1 ho
    exact ⟨hp, rfl⟩
  · rintro ⟨hp, rfl⟩
    exact List.mem_map.2 ⟨o.part, hp, rfl⟩

theorem Sites.see_append (ps qs : List Part) : env.see (ps ++ qs) = env.see ps ++ env.see qs :=
  List.map_append

theorem Sites.see_singleton (p : Part) : env.see [p] = [⟨env, p⟩] := rfl

@[simp] theorem Sites.map_part_see (ps : List Part) : (env.see ps).map Occurrence.part = ps := by
  rw [see, List.map_map]
  exact List.map_id ps

end

mutual

theorem Stmt.map_part_occurrences : (s : Stmt) → (env : Sites) →
    (s.occurrences env).map Occurrence.part = s.parts
  | .expression e, env => by simp [Stmt.occurrences]
  | .declare d, env => by simp [Stmt.occurrences]
  | .assign receiver value, env => by simp [Stmt.occurrences]
  | .branch c ss ss', env => by
    simp [Stmt.occurrences, Stmt.parts, Stmt.map_part_occurrencesList ss,
      Stmt.map_part_occurrencesList ss']
  | .forEach x value ss, env => by
    simp [Stmt.occurrences, Stmt.parts, Stmt.map_part_occurrencesList ss]
  | .loop c ss, env => by
    simp [Stmt.occurrences, Stmt.parts, Stmt.map_part_occurrencesList ss]
  | .ret offset value, env => by simp [Stmt.occurrences]
termination_by structural s => s

theorem Stmt.map_part_occurrencesList : (ss : List Stmt) → (env : Sites) →
    (Stmt.occurrencesList ss env).map Occurrence.part = Stmt.partsList ss
  | [], _ => rfl
  | s :: ss, env => by
    simp [Stmt.occurrencesList, Stmt.partsList, Stmt.map_part_occurrences s,
      Stmt.map_part_occurrencesList ss]
termination_by structural ss => ss

end

theorem Field.map_part_occurrencesList (fs : List Field) (env : Sites) :
    (Field.occurrencesList fs env).map Occurrence.part = fs.flatMap Field.parts := by
  induction fs generalizing env with
  | nil => rfl
  | cons f fs ih => simp [Field.occurrencesList, ih]

/-- Every part of a program occurs, once and in order. -/
theorem Source.map_part_occurrences (s : Source) :
    s.occurrences.map Occurrence.part = s.parts := by
  have hmethod : ∀ (env : Sites) (m : Method),
      (m.occurrences env).map Occurrence.part = m.parts := by
    intro env m
    simp [Method.occurrences, Method.parts, Stmt.map_part_occurrencesList]
  simp [Source.occurrences, Source.parts, Field.map_part_occurrencesList, List.map_flatMap, hmethod]

/-! ## Sites and scopes -/

/-- What a variable introduced here can have as its type: a parameter the declared
    one, anything else no capability. -/
def Site.HasType (r : Registry) : Site → Ty → Prop
  | parameter p, t => p.HasType r t
  | _, t => t.isCapability = false

/-- The types of the variables in scope fit what introduced them, and the results
    of functions are no capabilities. -/
structure Sites.Explain (r : Registry) (env : Sites) (Γ : Scope Ty Signature) : Prop where
  vars : ∀ x t, Γ.lookup? x = some t → ∃ site, env.lookup? x = some site ∧ site.HasType r t
  results : ∀ f k signature, Γ.function? f k = some signature →
    signature.result.isCapability = false

section
variable {r : Registry} {a : Analysis} {env : Sites} {Γ Γ' : Scope Ty Signature}

theorem Parameter.HasType.isCapability_eq {p : Parameter} {t : Ty} (h : p.HasType r t) :
    t.isCapability = p.isCapability r := by
  cases hname : p.typeName with
  | some name =>
    simp only [Parameter.HasType, hname] at h
    simp only [Parameter.isCapability, hname, h, Option.any_some]
  | none =>
    simp only [Parameter.HasType, hname] at h
    simp only [Parameter.isCapability, hname, h, Ty.isCapability]

theorem Site.HasType.isCapability_eq {site : Site} {t : Ty} (h : site.HasType r t) :
    t.isCapability = site.isCapability r := by
  cases site with
  | parameter p => exact Parameter.HasType.isCapability_eq h
  | field f => exact h
  | declaration d => exact h
  | element => exact h

namespace Sites.Explain

theorem child (h : env.Explain r Γ) : Sites.Explain r env.child Γ.child := ⟨h.vars, h.results⟩

theorem defineVariable (h : env.Explain r Γ) {site : Site} {t : Ty} (ht : site.HasType r t)
    (x : String) : Sites.Explain r (env.defineVariable x site) (Γ.defineVariable x t) := by
  refine ⟨fun y s hs => ?_, fun f k signature hf => ?_⟩
  · rw [Scope.lookup?_defineVariable] at hs ⊢
    split at hs
    · obtain rfl := Option.some.inj hs
      exact ⟨site, if_pos ‹_›, ht⟩
    · rw [if_neg ‹_›]
      exact h.vars y s hs
  · rw [function?_defineVariable] at hf
    exact h.results f k signature hf

theorem defineFunction (h : env.Explain r Γ) {signature : Signature}
    (hs : signature.result.isCapability = false) (f : String) (k : Nat) :
    env.Explain r (Γ.defineFunction f k signature) := by
  refine ⟨fun y s hy => ?_, fun g j signature' hg => ?_⟩
  · rw [Scope.lookup?_defineFunction] at hy
    exact h.vars y s hy
  · rw [Scope.function?_defineFunction] at hg
    split at hg
    · obtain rfl := Option.some.inj hg
      exact hs
    · exact h.results g j signature' hg

end Sites.Explain

theorem explain_ofRegistry (hr : r.Definite) :
    Sites.Explain r Scope.root (CheckState.ofRegistry r).scope.child := by
  refine ⟨fun x t hx => ?_, fun f k signature hf => ?_⟩
  · rw [Scope.lookup?_child, lookup?_ofRegistry] at hx
    cases hx
  · rw [Scope.function?_child] at hf
    obtain ⟨g, hg, rfl⟩ := exists_of_function?_ofRegistry hf
    exact hr.functions g hg

/-! ## Expressions -/

theorem Expr.Sound.of_mem_subs {e e' : Expr} (h : e.Sound r a Γ) (he : e' ∈ e.subs) :
    e'.Sound r a Γ :=
  fun x hx => h x (e.subs_subset e' he hx)

theorem BinaryRule.isCapability {o : BinaryOperator} {s t u : Ty} (h : BinaryRule o s t u) :
    u.isCapability = false := by
  cases h with
  | logical _ => rfl
  | comparison _ _ => rfl
  | concatenation _ => rfl
  | arithmetic _ ht => rcases ht with rfl | rfl <;> rfl

/-- The variable of an accepted read has the type that its site allows. -/
theorem Sites.Explain.var (h : env.Explain r Γ) {n : Node} {x : String} {t : Ty}
    (hs : (Expr.var n x).Sound r a Γ) (ht : a.types[n.id]? = some t) :
    ∃ site, env.lookup? x = some site ∧ site.HasType r t := by
  obtain ⟨t₁, hb, ht₁⟩ := hs.obeys
  obtain ⟨t₂, hx, hb₂⟩ := hs.resolves
  obtain rfl : t₁ = t := Option.some.inj (ht₁.symm.trans ht)
  obtain rfl : t₁ = t₂ := by simpa using hb.symm.trans hb₂
  exact h.vars x t₁ hx

/-- An expression has a capability as its type exactly if it is a parameter declared
    with one. -/
theorem Sites.Explain.isCapability_expr (h : env.Explain r Γ) (hr : r.Definite) {e : Expr} {t : Ty}
    (hs : e.Sound r a Γ) (ht : a.types[e.id]? = some t) :
    t.isCapability = e.isCapability r env := by
  cases e with
  | literal n l =>
    obtain rfl : l.type = t := Option.some.inj (hs.obeys.symm.trans ht)
    cases l <;> rfl
  | group n inner =>
    -- A group holds a binary operation, whose type is never a capability.
    obtain ⟨hbinary, t', hinner, ht'⟩ := hs.obeys
    obtain rfl : t' = t := Option.some.inj (ht'.symm.trans ht)
    cases inner with
    | binary n' o left right =>
      obtain ⟨_, _, u, -, -, hrule, hu⟩ := hs.group.obeys
      obtain rfl : u = t' := Option.some.inj (hu.symm.trans hinner)
      exact hrule.isCapability
    | _ => cases hbinary
  | binary n o left right =>
    obtain ⟨_, _, u, -, -, hrule, hu⟩ := hs.obeys
    obtain rfl : u = t := Option.some.inj (hu.symm.trans ht)
    exact hrule.isCapability
  | var n x =>
    obtain ⟨site, hsite, htype⟩ := h.var hs ht
    rw [Expr.isCapability, hsite, Option.any_some]
    exact htype.isCapability_eq
  | field n receiver x =>
    obtain ⟨owner, t', -, hx, -, ht'⟩ := hs.obeys
    obtain rfl : t' = t := Option.some.inj (ht'.symm.trans ht)
    exact hr.fields owner x t' hx
  | call n f es =>
    obtain ⟨signature, -, hb, -, ht'⟩ := hs.obeys
    obtain ⟨signature', hf, hb'⟩ := hs.resolves
    obtain rfl : signature = signature' := by simpa using hb.symm.trans hb'
    obtain rfl : signature.result = t := Option.some.inj (ht'.symm.trans ht)
    exact h.results f _ signature hf
  | methodCall n receiver f es =>
    obtain ⟨owner, method, -, hm, -, -, ht'⟩ := hs.obeys
    obtain rfl : method.signature.result = t := Option.some.inj (ht'.symm.trans ht)
    exact hr.methods owner f _ method hm

/-- A declaration gives its variable a capability as its type exactly if it copies
    a parameter declared with one. -/
theorem Sites.Explain.isCapability_declaration (h : env.Explain r Γ) (hr : r.Definite)
    {d : Declaration} {t : Ty} (hs : ∀ e ∈ d.value, e.Sound r a Γ)
    (ht : DeclarationRule r a d.typeName d.value t) :
    t.isCapability = Occurrence.copiesCapability r ⟨env, .declaration d⟩ := by
  rw [Occurrence.copiesCapability]
  cases hname : d.typeName with
  | some name =>
    rw [hname] at ht
    exact ht.2.1
  | none =>
    rw [hname] at ht
    obtain ⟨e, he, hte⟩ := ht
    rw [he, Option.any_some, Option.isNone_none, Bool.true_and]
    exact h.isCapability_expr hr (hs e he) hte

/-! ## Statements -/

/-- Away from parameters the facts at the occurrence are concrete, and it is no copy
    of a parameter of a capability type. -/
structure Occurrence.Clear (r : Registry) (a : Analysis) (o : Occurrence) : Prop where
  copies : o.copiesCapability r = false
  declared : o.part.isDeclared = true → ∀ t, a.declarations[o.part.id]? = some t →
    t.isCapability = false
  reads : ∀ e, o.part = .expr e → ∀ t, a.types[e.id]? = some t → t.isCapability = true →
    o.ReadsParameter r t

/-- The occurrence is no copy of a parameter of a capability type, or else it is a
    declaration that got a concrete type. -/
def Occurrence.Settled (r : Registry) (a : Analysis) (o : Occurrence) : Prop :=
  o.copiesCapability r = true → ∀ t, a.declarations[o.part.id]? = some t → t.isCapability = false

theorem Sites.Explain.clear_expr (h : env.Explain r Γ) (hr : r.Definite) {e : Expr}
    (hs : e.Sound r a Γ) : ∀ o ∈ env.see e.parts, o.Clear r a := by
  rintro ⟨sites, p⟩ ho
  obtain ⟨hp, rfl⟩ := (Sites.mem_see env).1 ho
  obtain ⟨e', he', rfl⟩ := List.mem_map.1 hp
  have hs' := hs.of_mem_subs he'
  refine ⟨rfl, fun hd => (by cases hd), fun e'' heq t ht hc => ?_⟩
  obtain rfl : e' = e'' := by simpa using heq
  rw [h.isCapability_expr hr hs' ht] at hc
  cases e' with
  | var n x =>
    obtain ⟨site, hsite, htype⟩ := h.var hs' ht
    rw [Expr.isCapability, hsite, Option.any_some] at hc
    cases site with
    | parameter p => exact ⟨n, x, p, rfl, hsite, htype⟩
    | _ => cases hc
  | _ => cases hc

theorem Sites.Explain.clear_optional (h : env.Explain r Γ) (hr : r.Definite) {v : Option Expr}
    (hs : ∀ e ∈ v, e.Sound r a Γ) : ∀ o ∈ env.see (Expr.optionalParts v), o.Clear r a := by
  cases v with
  | none => exact fun o ho => absurd ho List.not_mem_nil
  | some e => exact h.clear_expr hr (hs e rfl)

/-- A settled declaration gives its variable a concrete type. -/
theorem Sites.Explain.clear_declaration (h : env.Explain r Γ) (hr : r.Definite) {d : Declaration}
    {t : Ty} (hs : ∀ e ∈ d.value, e.Sound r a Γ) (ht : a.declarations[d.node.id]? = some t)
    (hrule : DeclarationRule r a d.typeName d.value t)
    (hsettled : Occurrence.Settled r a ⟨env, .declaration d⟩) :
    t.isCapability = false ∧ Occurrence.Clear r a ⟨env, .declaration d⟩ := by
  have hcopies := h.isCapability_declaration hr hs hrule
  -- With a capability as its type the declaration would be a copy, and settled
  -- copies have concrete types.
  have hconcrete : t.isCapability = false := by
    by_contra hc
    rw [Bool.not_eq_false] at hc
    exact absurd (hsettled (hcopies.symm.trans hc) t ht) (by simp [hc])
  refine ⟨hconcrete, hcopies.symm.trans hconcrete, fun _ t' ht' => ?_, fun e he => by cases he⟩
  obtain rfl : t = t' := Option.some.inj (ht.symm.trans ht')
  exact hconcrete

mutual

/-- If all declarations in a statement are settled, it is clear throughout, and what
    is visible after it explains the scope after it. -/
theorem clear_stmt (hr : r.Definite) : (st : Stmt) → {env : Sites} → {Γ Γ' : Scope Ty Signature} →
    {result : Ty} → env.Explain r Γ → Stmt.Scoped r a result Γ st Γ' →
    (∀ o ∈ st.occurrences env, o.Settled r a) →
    (∀ o ∈ st.occurrences env, o.Clear r a) ∧ (env.bindStmt st).Explain r Γ'
  | .expression e, _, _, _, _, h, .expression _ hs, _ => ⟨h.clear_expr hr hs, h⟩
  | .declare d, env, _, _, _, h, .declare ⟨t, ht, hrule⟩ hs ht' _, hset => by
    rw [ht] at ht'
    obtain rfl := Option.some.inj ht'
    have hsettled : Occurrence.Settled r a ⟨env, .declaration d⟩ :=
      hset _ (by simp [Stmt.occurrences, Stmt.parts])
    obtain ⟨hconcrete, hclear⟩ := h.clear_declaration hr hs ht hrule hsettled
    have htype : (Site.declaration d).HasType r t := hconcrete
    refine ⟨?_, h.defineVariable htype d.name⟩
    simp only [Stmt.occurrences, Stmt.parts, Sites.see_append, Sites.see_singleton,
      List.forall_mem_append, List.forall_mem_singleton]
    exact ⟨h.clear_optional hr hs, hclear⟩
  | .assign receiver value, _, _, _, _, h, .assign _ hs hs', _ => by
    refine ⟨?_, h⟩
    simp only [Stmt.occurrences, Stmt.parts, Sites.see_append, List.forall_mem_append]
    exact ⟨h.clear_expr hr hs, h.clear_expr hr hs'⟩
  | .branch c ss ss', _, _, _, _, h, .branch _ hs hss hss', hset => by
    simp only [Stmt.occurrences, List.forall_mem_append] at hset ⊢
    exact ⟨⟨⟨h.clear_expr hr hs, clear_stmts hr ss h.child hss hset.1.2⟩,
      clear_stmts hr ss' h.child hss' hset.2⟩, h⟩
  | .forEach x e ss, _, _, _, _, h, .forEach _ hs hss, hset => by
    have htype : Site.element.HasType r .integer := rfl
    simp only [Stmt.occurrences, List.forall_mem_append] at hset ⊢
    exact ⟨⟨h.clear_expr hr hs, clear_stmts hr ss (h.child.defineVariable htype x) hss hset.2⟩, h⟩
  | .loop c ss, _, _, _, _, h, .loop _ hs hss, hset => by
    simp only [Stmt.occurrences, List.forall_mem_append] at hset ⊢
    exact ⟨⟨h.clear_expr hr hs, clear_stmts hr ss h.child hss hset.2⟩, h⟩
  | .ret offset e, _, _, _, _, h, .ret _ hs, _ => ⟨h.clear_expr hr hs, h⟩
termination_by structural st => st

/-- The same of some statements. -/
theorem clear_stmts (hr : r.Definite) : (ss : List Stmt) → {env : Sites} →
    {Γ Γ' : Scope Ty Signature} → {result : Ty} → env.Explain r Γ →
    Stmts.Scoped r a result Γ ss Γ' → (∀ o ∈ Stmt.occurrencesList ss env, o.Settled r a) →
    ∀ o ∈ Stmt.occurrencesList ss env, o.Clear r a
  | [], _, _, _, _, _, _, _ => fun o ho => absurd ho List.not_mem_nil
  | st :: ss, _, _, _, _, h, .cons hs hss, hset => by
    simp only [Stmt.occurrencesList, List.forall_mem_append] at hset ⊢
    obtain ⟨hst, h₁⟩ := clear_stmt hr st h hs hset.1
    exact ⟨hst, clear_stmts hr ss h₁ hss hset.2⟩
termination_by structural ss => ss

end

/-! ## Programs -/

theorem clear_fields (hr : r.Definite) {fs : List Field} (hs : Fields.Scoped r a Γ fs Γ')
    (h : env.Explain r Γ) :
    (∀ o ∈ Field.occurrencesList fs env, o.Clear r a) ∧ (env.bindFields fs).Explain r Γ' := by
  induction hs generalizing env with
  | nil => exact ⟨fun o ho => absurd ho List.not_mem_nil, h⟩
  | @cons Γ Γ' f fs t ho hsound ht _ _ ih =>
    obtain ⟨t', ht', -, hconcrete, -⟩ := ho
    obtain rfl : t = t' := Option.some.inj (ht.symm.trans ht')
    have htype : (Site.field f).HasType r t := hconcrete
    obtain ⟨hfs, h'⟩ := ih (h.defineVariable htype f.name)
    refine ⟨?_, h'⟩
    simp only [Field.occurrencesList, Field.parts, Sites.see_append, Sites.see_singleton,
      List.forall_mem_append, List.forall_mem_singleton]
    refine ⟨⟨h.clear_optional hr hsound, rfl, fun _ t' ht' => ?_, fun e he => by cases he⟩, hfs⟩
    obtain rfl : t = t' := Option.some.inj (ht.symm.trans ht')
    exact hconcrete

theorem explain_methods {ds : List Method} (hs : Methods.Scoped r a Γ ds Γ')
    (h : env.Explain r Γ) : env.Explain r Γ' := by
  induction hs with
  | nil => exact h
  | @cons Γ Γ' d ds signature ho _ _ ih =>
    obtain ⟨-, -, -, hresult⟩ := ho
    refine ih (h.defineFunction ?_ _ _)
    unfold Method.HasResult at hresult
    split at hresult
    · exact hresult.2
    · rw [hresult]
      rfl

theorem explain_parameters {ps : List Parameter} {ts : List Ty}
    (hs : Parameters.Scoped Γ ps ts Γ') (ht : List.Forall₂ (Parameter.HasType r) ps ts)
    (h : env.Explain r Γ) : (env.bindParameters ps).Explain r Γ' := by
  induction hs generalizing env with
  | nil => exact h
  | @cons Γ Γ' p ps t ts _ _ ih =>
    cases ht with
    | cons hp hps =>
      have htype : (Site.parameter p).HasType r t := hp
      exact ih hps (h.defineVariable htype p.name)

/-- If all declarations in a checked program are settled, it is clear throughout. -/
theorem Source.Checked.clear {s : Source} (hs : s.Checked r a) (hr : r.Definite)
    (hset : ∀ o ∈ s.occurrences, o.Settled r a) : ∀ o ∈ s.occurrences, o.Clear r a := by
  obtain ⟨Γ₁, Γ₂, hfs, hms, -, hbodies⟩ := hs
  obtain ⟨hfields, h₁⟩ := clear_fields hr hfs (explain_ofRegistry hr)
  have h₂ := explain_methods hms h₁
  simp only [Source.occurrences, List.forall_mem_append, List.forall_mem_flatMap,
    Method.occurrences, Sites.see_singleton, List.forall_mem_singleton] at hset ⊢
  refine ⟨hfields, fun m hm => ⟨?_, rfl, fun hd => (by cases hd), fun e he => (by cases he)⟩⟩
  obtain ⟨signature, ho, Γ, Γ', hps, hbody⟩ := hbodies m hm
  have h := explain_parameters hps ho.2.2.1 h₂.child
  exact clear_stmts hr m.body h hbody (hset.2 m hm).1

theorem Source.mem_parts_of_mem_occurrences {s : Source} {o : Occurrence}
    (ho : o ∈ s.occurrences) : o.part ∈ s.parts :=
  s.map_part_occurrences ▸ List.mem_map_of_mem ho

theorem Source.exists_occurrence {s : Source} {p : Part} (hp : p ∈ s.parts) :
    ∃ o ∈ s.occurrences, o.part = p :=
  List.mem_map.1 (s.map_part_occurrences ▸ hp)

theorem Occurrence.isDeclared_of_copiesCapability {o : Occurrence}
    (h : o.copiesCapability r = true) : o.part.isDeclared = true := by
  obtain ⟨env, p⟩ := o
  cases p with
  | declaration d => rfl
  | _ => cases h

/-- The facts about a checked program are concrete away from its parameters exactly
    if it copies no parameter of a capability type. -/
theorem Source.Checked.concrete_iff {s : Source} (hs : s.Checked r a) (hr : r.Definite) :
    a.Concrete r s ↔ s.copiesCapability r = false := by
  rw [Source.copiesCapability, List.any_eq_false]
  -- Either side settles all declarations: concrete types do, and so do no copies.
  constructor
  · intro h o ho
    have hset : ∀ o ∈ s.occurrences, o.Settled r a := fun o ho hcopies =>
      h.declarations o.part (mem_parts_of_mem_occurrences ho)
        (Occurrence.isDeclared_of_copiesCapability hcopies)
    simp [(hs.clear hr hset o ho).copies]
  · intro h
    have hclear := hs.clear hr fun o ho hcopies => absurd hcopies (h o ho)
    refine ⟨fun p hp hd t ht => ?_, fun e he t ht hc => ?_⟩
    · obtain ⟨o, ho, rfl⟩ := exists_occurrence hp
      exact (hclear o ho).declared hd t ht
    · obtain ⟨o, ho, hpart⟩ := exists_occurrence he
      exact ⟨o, ho, hpart, (hclear o ho).reads e hpart t ht hc⟩

end

/-- **Recorded types are concrete except at parameters** in exactly those accepted
    programs in which no declaration without annotation copies a parameter of a
    capability type. -/
theorem concrete_iff_not_copiesCapability {tokens : List Token} {s : Source} {a : Analysis}
    (hp : parse tokens = .ok s) (ha : analyze Registry.standard s = .ok a) :
    a.Concrete Registry.standard s ↔ s.copiesCapability Registry.standard = false :=
  (sound_of_analyze (nodup_ids_of_parse hp) ha).1.concrete_iff definite_standard

/-- A program that uses parameters of capability types and copies none of them. -/
def showText : String :=
  "DEF show(x, y: Comparable) DO LET n = 2; print(y); END
   DEF main(): Integer DO show(1, 'c'); RETURN 0; END"

theorem concrete_iff_not_copiesCapability_show : ∃ tokens s a, lex showText = .ok tokens ∧
    parse tokens = .ok s ∧ analyze Registry.standard s = .ok a ∧
    s.copiesCapability Registry.standard = false ∧ a.Concrete Registry.standard s := by
  have hcheck : (Program.read showText).toOption.map (fun s =>
      !s.copiesCapability Registry.standard && (analyze Registry.standard s).isOk) = some true := by
    decide +kernel
  obtain ⟨tokens, s, a, hl, hp, ha, hcopies⟩ := exists_of_check hcheck
  have hnot : s.copiesCapability Registry.standard = false := by simpa using hcopies
  exact ⟨tokens, s, a, hl, hp, ha, hnot, (concrete_iff_not_copiesCapability hp ha).2 hnot⟩

/-- An accepted program with a declaration that copies a parameter. -/
def copyText : String :=
  "DEF f(p) DO LET x = p; END DEF main(): Integer DO RETURN 0; END"

/-- The declared type of the copy is a capability. -/
theorem copied_capability_recorded : ∃ tokens s a, lex copyText = .ok tokens ∧
    parse tokens = .ok s ∧ analyze Registry.standard s = .ok a ∧
    (∃ p ∈ s.parts, p.isDeclared = true ∧ a.declarations[p.id]? = some .any) ∧
    ¬ a.Concrete Registry.standard s := by
  have hcheck : (Program.read copyText).toOption.map (fun s =>
      (analyze Registry.standard s).toOption.any (fun a =>
        s.parts.any fun p => p.isDeclared && decide (a.declarations[p.id]? = some .any)) &&
      (analyze Registry.standard s).isOk) = some true := by
    decide +kernel
  obtain ⟨tokens, s, a, hl, hp, ha, hany⟩ := exists_of_check hcheck
  obtain ⟨p, hpart, htype⟩ : ∃ p ∈ s.parts,
      p.isDeclared = true ∧ a.declarations[p.id]? = some .any := by
    simpa [ha, Except.toOption] using hany
  exact ⟨tokens, s, a, hl, hp, ha, ⟨p, hpart, htype⟩,
    fun h => Bool.noConfusion (h.declarations p hpart htype.1 _ htype.2)⟩

end TinyScript
