import TinyScript.Proofs.Typing.Facts

/-
  The object types that a program can meet.

  Two object types of one name are taken for the same, so a program is safe only if
  among the types it can meet a name determines its type.  These are the types that
  can be named, those in the signatures of functions, and those in the fields and
  methods of types that can be met (`Registry.Unambiguous`).  Every type that
  analysis records is one of them (`within_of_mentions`).
-/

namespace TinyScript

/-- The type, if it is an object type, is one of the given ones. -/
def Ty.Within (U : TypeRef → Prop) : Ty → Prop
  | .object type => U type
  | _ => True

/-- All object types in the signature are among the given ones. -/
def Signature.Within (U : TypeRef → Prop) (signature : Signature) : Prop :=
  (∀ t ∈ signature.parameters, t.Within U) ∧ signature.result.Within U

/-- The object types that can be met are among the given ones, and no two different
    ones of these have the same name. -/
structure Registry.Unambiguous (r : Registry) (U : TypeRef → Prop) : Prop where
  unique : ∀ s t, U s → U t → s.name = t.name → r.describe s = r.describe t
  named : ∀ name type, r.typeRef? name = some type → U type
  functions : ∀ f ∈ r.functions.map Prod.snd, f.signature.Within U
  fields : ∀ type, U type → ∀ x t, (r.describe type).fieldType? x = some t → t.Within U
  methods : ∀ type, U type → ∀ x k f, (r.describe type).method? x k = some f → f.signature.Within U

/-- The variables and the results of functions in scope are of given types. -/
structure Scope.Within (U : TypeRef → Prop) (Γ : Scope Ty Signature) : Prop where
  vars : ∀ x t, Γ.lookup? x = some t → t.Within U
  results : ∀ f k signature, Γ.function? f k = some signature → signature.result.Within U

/-- The types recorded for the expressions among the parts are of given types. -/
def Analysis.TypesWithin (U : TypeRef → Prop) (a : Analysis) (ps : List Part) : Prop :=
  ∀ e, Part.expr e ∈ ps → ∀ t, a.types[e.id]? = some t → t.Within U

section
variable {r : Registry} {a : Analysis} {U : TypeRef → Prop} {Γ Γ' : Scope Ty Signature}

theorem Registry.Unambiguous.resolve? (h : r.Unambiguous U) {name : String} {t : Ty}
    (hr : r.resolve? name = some t) : t.Within U := by
  unfold Registry.resolve? at hr
  split at hr
  · rename_i b hb
    obtain rfl := Option.some.inj hr
    have hmem : b ∈ Ty.builtins := List.mem_of_find?_eq_some hb
    cases b with
    | object type => simp [Ty.builtins] at hmem
    | _ => trivial
  · obtain ⟨type, htype, rfl⟩ := Option.map_eq_some_iff.1 hr
    exact h.named name type htype

/-! ## Scopes -/

theorem function?_defineVariable {V F : Type} (Γ : Scope V F) (x f : String) (v : V) (k : Nat) :
    (Γ.defineVariable x v).function? f k = Γ.function? f k := by
  cases Γ with
  | nil => rfl
  | cons g Γ =>
    simp only [Scope.function?, Scope.defineVariable, Scope.modifyTop, Scope.findFunction?,
      Frame.functions_defineVariable]
    split <;> rfl

namespace Scope.Within

theorem child (h : Γ.Within U) : Γ.child.Within U := ⟨h.vars, h.results⟩

theorem defineVariable (h : Γ.Within U) {t : Ty} (ht : t.Within U) (x : String) :
    (Γ.defineVariable x t).Within U := by
  refine ⟨fun y s hs => ?_, fun f k signature hf => ?_⟩
  · rw [lookup?_defineVariable] at hs
    split at hs
    · obtain rfl := Option.some.inj hs
      exact ht
    · exact h.vars y s hs
  · rw [function?_defineVariable] at hf
    exact h.results f k signature hf

theorem defineFunction (h : Γ.Within U) {signature : Signature}
    (hs : signature.result.Within U) (f : String) (k : Nat) :
    (Γ.defineFunction f k signature).Within U := by
  refine ⟨fun y s hy => ?_, fun g j signature' hg => ?_⟩
  · rw [lookup?_defineFunction] at hy
    exact h.vars y s hy
  · rw [function?_defineFunction] at hg
    split at hg
    · obtain rfl := Option.some.inj hg
      exact hs
    · exact h.results g j signature' hg

end Scope.Within

/-- The functions that a program starts with are those of the host. -/
theorem exists_of_function?_ofRegistry {f : String} {k : Nat} {signature : Signature}
    (hf : (CheckState.ofRegistry r).scope.function? f k = some signature) :
    ∃ g ∈ r.functions, g.2.signature = signature := by
  suffices hfold : ∀ (fs : List ((String × Nat) × NativeFunction)) (Γ : Scope Ty Signature),
      (∀ g ∈ fs, g ∈ r.functions) →
      (∀ f k s, Γ.function? f k = some s → ∃ g ∈ r.functions, g.2.signature = s) →
      ∀ f k s, (fs.foldl
        (fun Γ g => Γ.defineFunction g.2.signature.name g.2.signature.arity g.2.signature)
        Γ).function? f k = some s → ∃ g ∈ r.functions, g.2.signature = s from
    hfold r.functions Scope.root (fun _ => id)
      (fun f k s hs => by simp [Scope.root, Scope.function?, Scope.findFunction?] at hs) _ _ _ hf
  intro fs
  induction fs with
  | nil => exact fun Γ _ hΓ => hΓ
  | cons g fs ih =>
    intro Γ hmem hΓ
    refine ih _ (fun g' hg' => hmem g' (by simp [hg'])) fun f k s hs => ?_
    rw [Scope.function?_defineFunction] at hs
    split at hs
    · exact ⟨g, hmem g (by simp), Option.some.inj hs⟩
    · exact hΓ f k s hs

/-- A program starts without variables. -/
theorem lookup?_ofRegistry (r : Registry) (x : String) :
    (CheckState.ofRegistry r).scope.lookup? x = none := by
  suffices hfold : ∀ (fs : List ((String × Nat) × NativeFunction)) (Γ : Scope Ty Signature),
      Γ.lookup? x = none → (fs.foldl
        (fun Γ g => Γ.defineFunction g.2.signature.name g.2.signature.arity g.2.signature)
        Γ).lookup? x = none from hfold r.functions Scope.root rfl
  intro fs
  induction fs with
  | nil => exact fun Γ hΓ => hΓ
  | cons g fs ih => exact fun Γ hΓ => ih _ (by rw [Scope.lookup?_defineFunction, hΓ])

theorem within_ofRegistry (h : r.Unambiguous U) : (CheckState.ofRegistry r).scope.Within U := by
  refine ⟨fun x t hx => ?_, fun f k signature hf => ?_⟩
  · rw [lookup?_ofRegistry] at hx
    cases hx
  · obtain ⟨g, hg, rfl⟩ := exists_of_function?_ofRegistry hf
    exact (h.functions g.2 (List.mem_map_of_mem hg)).2

/-! ## Expressions -/

namespace Analysis.TypesWithin

variable {ps qs : List Part}

theorem append (hp : a.TypesWithin U ps) (hq : a.TypesWithin U qs) :
    a.TypesWithin U (ps ++ qs) := by
  intro e he
  rcases List.mem_append.1 he with he | he
  · exact hp e he
  · exact hq e he

theorem singleton {e : Expr} {t : Ty} (ht : a.types[e.id]? = some t) (hw : t.Within U) :
    a.TypesWithin U [.expr e] := by
  intro e' he' s hs
  obtain rfl : e' = e := by simpa using he'
  exact Option.some.inj (ht.symm.trans hs) ▸ hw

theorem flatMap {es : List Expr} (h : ∀ e ∈ es, a.TypesWithin U e.parts) :
    a.TypesWithin U (es.flatMap Expr.parts) := by
  intro e he
  obtain ⟨e', he', hmem⟩ := List.mem_flatMap.1 he
  exact h e' he' e hmem

theorem owner {e : Expr} {t : Ty} (h : a.TypesWithin U e.parts) (ht : a.types[e.id]? = some t) :
    t.Within U :=
  h e (List.mem_map_of_mem e.self_mem_subs) t ht

end Analysis.TypesWithin

theorem BinaryRule.within {o : BinaryOperator} {s t u : Ty} (h : BinaryRule o s t u) :
    u.Within U := by
  cases h with
  | logical _ => trivial
  | comparison _ _ => trivial
  | concatenation _ => trivial
  | arithmetic _ ht => rcases ht with rfl | rfl <;> trivial

mutual

/-- The types recorded in an expression are of given types if the scope is. -/
theorem within_expr (h : r.Unambiguous U) : (e : Expr) → {Γ : Scope Ty Signature} → Γ.Within U →
    e.Sound r a Γ → a.TypesWithin U e.parts
  | .literal n l, _, _, hs => .singleton hs.obeys (by cases l <;> trivial)
  | .group n e, _, hΓ, hs => by
    have he := within_expr h e hΓ hs.group
    obtain ⟨-, t, ht, ht'⟩ := hs.obeys
    rw [Expr.parts_group]
    exact he.append (.singleton ht' (he.owner ht))
  | .binary n o left right, _, hΓ, hs => by
    obtain ⟨_, _, _, -, -, hrule, hu⟩ := hs.obeys
    rw [Expr.parts_binary]
    exact ((within_expr h left hΓ hs.left).append (within_expr h right hΓ hs.right)).append
      (.singleton hu hrule.within)
  | .var n x, _, hΓ, hs => by
    obtain ⟨t, hb, ht⟩ := hs.obeys
    obtain ⟨t', hx, hb'⟩ := hs.resolves
    rw [hb] at hb'
    obtain rfl : t = t' := by simpa using hb'
    exact .singleton ht (hΓ.vars x t hx)
  | .field n e x, _, hΓ, hs => by
    have he := within_expr h e hΓ hs.fieldOwner
    obtain ⟨type, t, hty, hx, -, ht⟩ := hs.obeys
    rw [Expr.parts_field]
    exact he.append (.singleton ht (h.fields type (he.owner hty) x t hx))
  | .call n f es, _, hΓ, hs => by
    obtain ⟨signature, -, hb, -, ht⟩ := hs.obeys
    obtain ⟨signature', hf, hb'⟩ := hs.resolves
    rw [hb] at hb'
    obtain rfl : signature = signature' := by simpa using hb'
    rw [Expr.parts_call]
    exact (Analysis.TypesWithin.flatMap (within_exprs h es hΓ hs.arguments)).append
      (.singleton ht (hΓ.results f _ signature hf))
  | .methodCall n e f es, _, hΓ, hs => by
    have he := within_expr h e hΓ hs.methodOwner
    obtain ⟨type, g, hty, hg, -, -, ht⟩ := hs.obeys
    rw [Expr.parts_methodCall]
    exact (he.append (.flatMap (within_exprs h es hΓ hs.methodArguments))).append
      (.singleton ht (h.methods type (he.owner hty) f _ g hg).2)
termination_by structural e => e

/-- The same of some expressions. -/
theorem within_exprs (h : r.Unambiguous U) : (es : List Expr) → {Γ : Scope Ty Signature} →
    Γ.Within U → (∀ e ∈ es, e.Sound r a Γ) → ∀ e ∈ es, a.TypesWithin U e.parts
  | [], _, _, _ => by simp
  | e :: es, _, hΓ, hs => by
    have he := within_expr h e hΓ (hs e (by simp))
    have hes := within_exprs h es hΓ fun e' he' => hs e' (by simp [he'])
    simp only [List.forall_mem_cons]
    exact ⟨he, hes⟩
termination_by structural es => es

end

/-! ## Statements -/

theorem within_optional (h : r.Unambiguous U) {v : Option Expr} (hΓ : Γ.Within U)
    (hs : ∀ e ∈ v, e.Sound r a Γ) : a.TypesWithin U (Expr.optionalParts v) := by
  cases v with
  | none => exact fun e he => absurd he List.not_mem_nil
  | some e => exact within_expr h e hΓ (hs e rfl)

/-- The type of a declaration is a given one. -/
theorem DeclarationRule.within (h : r.Unambiguous U) {typeName : Option String} {v : Option Expr}
    {t : Ty} (hr : DeclarationRule r a typeName v t) (hΓ : Γ.Within U)
    (hs : ∀ e ∈ v, e.Sound r a Γ) : t.Within U := by
  cases typeName with
  | some name => exact h.resolve? hr.1
  | none =>
    obtain ⟨e, rfl, ht⟩ := hr
    exact (within_expr h e hΓ (hs e rfl)).owner ht

mutual

/-- The types recorded in a statement are of given types, and those of its scope
    stay so. -/
theorem within_stmt (h : r.Unambiguous U) : (st : Stmt) → {Γ Γ' : Scope Ty Signature} →
    {result : Ty} → Γ.Within U → Stmt.Scoped r a result Γ st Γ' →
    a.TypesWithin U st.parts ∧ Γ'.Within U
  | .expression e, _, _, _, hΓ, .expression _ hs => by
    simp only [Stmt.parts]
    exact ⟨within_expr h e hΓ hs, hΓ⟩
  | .declare d, _, _, _, hΓ, .declare ⟨t, ht, hr⟩ hs ht' _ => by
    rw [ht] at ht'
    obtain rfl := Option.some.inj ht'
    simp only [Stmt.parts]
    exact ⟨(within_optional h hΓ hs).append fun e he => by simp at he,
      hΓ.defineVariable (hr.within h hΓ hs) d.name⟩
  | .assign receiver value, _, _, _, hΓ, .assign _ hs hs' => by
    simp only [Stmt.parts]
    exact ⟨(within_expr h receiver hΓ hs).append (within_expr h value hΓ hs'), hΓ⟩
  | .branch c ss ss', _, _, _, hΓ, .branch _ hs hss hss' => by
    simp only [Stmt.parts]
    exact ⟨((within_expr h c hΓ hs).append (within_stmts h ss hΓ.child hss).1).append
      (within_stmts h ss' hΓ.child hss').1, hΓ⟩
  | .forEach x e ss, _, _, _, hΓ, .forEach _ hs hss => by
    have hx : (Ty.integer).Within U := trivial
    simp only [Stmt.parts]
    exact ⟨(within_expr h e hΓ hs).append
      (within_stmts h ss (hΓ.child.defineVariable hx x) hss).1, hΓ⟩
  | .loop c ss, _, _, _, hΓ, .loop _ hs hss => by
    simp only [Stmt.parts]
    exact ⟨(within_expr h c hΓ hs).append (within_stmts h ss hΓ.child hss).1, hΓ⟩
  | .ret offset e, _, _, _, hΓ, .ret _ hs => by
    simp only [Stmt.parts]
    exact ⟨within_expr h e hΓ hs, hΓ⟩
termination_by structural st => st

/-- The same of some statements. -/
theorem within_stmts (h : r.Unambiguous U) : (ss : List Stmt) → {Γ Γ' : Scope Ty Signature} →
    {result : Ty} → Γ.Within U → Stmts.Scoped r a result Γ ss Γ' →
    a.TypesWithin U (Stmt.partsList ss) ∧ Γ'.Within U
  | [], _, _, _, hΓ, .nil => ⟨fun e he => by simp [Stmt.partsList] at he, hΓ⟩
  | st :: ss, _, _, _, hΓ, .cons hs hss => by
    obtain ⟨hst, hΓ₁⟩ := within_stmt h st hΓ hs
    obtain ⟨hrest, hΓ₂⟩ := within_stmts h ss hΓ₁ hss
    simp only [Stmt.partsList]
    exact ⟨hst.append hrest, hΓ₂⟩
termination_by structural ss => ss

end

/-! ## Programs -/

theorem within_fields (h : r.Unambiguous U) {fs : List Field} (hs : Fields.Scoped r a Γ fs Γ')
    (hΓ : Γ.Within U) : a.TypesWithin U (fs.flatMap Field.parts) ∧ Γ'.Within U := by
  induction hs with
  | nil => exact ⟨fun e he => absurd he List.not_mem_nil, hΓ⟩
  | @cons Γ Γ' f fs t ho hsound ht _ _ ih =>
    obtain ⟨t', ht', hr⟩ := ho
    obtain rfl : t = t' := Option.some.inj (ht.symm.trans ht')
    obtain ⟨hfs, hΓ'⟩ := ih (hΓ.defineVariable (hr.within h hΓ hsound) f.name)
    rw [List.flatMap_cons, Field.parts]
    exact ⟨((within_optional h hΓ hsound).append fun e he => by simp at he).append hfs, hΓ'⟩

theorem within_methods (h : r.Unambiguous U) {ds : List Method}
    (hs : Methods.Scoped r a Γ ds Γ') (hΓ : Γ.Within U) : Γ'.Within U := by
  induction hs with
  | nil => exact hΓ
  | @cons Γ Γ' d ds signature ho _ _ ih =>
    obtain ⟨-, -, -, hr⟩ := ho
    refine ih (hΓ.defineFunction ?_ _ _)
    unfold Method.HasResult at hr
    split at hr
    · exact h.resolve? hr.1
    · rw [hr]
      trivial

theorem within_parameters (h : r.Unambiguous U) {ps : List Parameter} {ts : List Ty}
    (hs : Parameters.Scoped Γ ps ts Γ') (ht : List.Forall₂ (Parameter.HasType r) ps ts)
    (hΓ : Γ.Within U) : Γ'.Within U := by
  induction hs with
  | nil => exact hΓ
  | @cons Γ Γ' p ps t ts _ _ ih =>
    cases ht with
    | cons hp hps =>
      refine ih hps (hΓ.defineVariable ?_ p.name)
      unfold Parameter.HasType at hp
      split at hp
      · exact h.resolve? hp
      · rw [hp]
        trivial

/-- The types recorded in a program are of given types. -/
theorem Source.Checked.typesWithin {s : Source} (hs : s.Checked r a) (h : r.Unambiguous U) :
    a.TypesWithin U s.parts := by
  obtain ⟨Γ₁, Γ₂, hfs, hms, -, hb⟩ := hs
  obtain ⟨hfields, hΓ₁⟩ := within_fields h hfs (within_ofRegistry h).child
  have hΓ₂ := within_methods h hms hΓ₁
  refine hfields.append fun e he => ?_
  obtain ⟨d, hd, he⟩ := List.mem_flatMap.1 he
  obtain ⟨signature, ho, Γ, Γ', hps, hbody⟩ := hb d hd
  have hΓ := within_parameters h hps ho.2.2.1 hΓ₂.child
  have hparts := (within_stmts h d.body hΓ hbody).1
  rw [Method.parts, List.mem_append] at he
  rcases he with he | he
  · exact hparts e he
  · simp at he

end

/-- Every object type that analysis records can be met. -/
theorem within_of_mentions {r : Registry} {s : Source} {a : Analysis} {U : TypeRef → Prop}
    (hs : s.Checked r a) (hc : a.Complete s) (h : r.Unambiguous U) {id : Nat} {type : TypeRef}
    (ht : a.types[id]? = some (.object type)) : U type := by
  have hid : id ∈ a.types := Std.ExtTreeMap.mem_iff_isSome_getElem?.2 (by rw [ht]; rfl)
  obtain ⟨p, hp, hk, rfl⟩ := (hc.types id).1 hid
  cases p with
  | expr e => exact hs.typesWithin h e hp _ ht
  | declaration d => cases hk
  | field f => cases hk
  | method m => cases hk

end TinyScript
