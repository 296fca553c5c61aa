import TinyScript.Proofs.Typing.SourceChecker

/-
  The table of an accepted program is complete and consistent.

  * `Analysis.Complete`: exactly the expressions have types, exactly the variables,
    fields and calls have bindings, exactly the declarations have declared types,
    and exactly the methods have signatures;
  * `Analysis.Consistent`: what is recorded at a part, and at every statement, obeys
    the rule of that part or statement.

  Both follow from the soundness of analysis once the identities in a parsed
  program are known to be distinct.
-/

namespace TinyScript

mutual

/-- A statement and all statements in it. -/
def Stmt.nested : Stmt → List Stmt
  | .branch c thenBody elseBody =>
    .branch c thenBody elseBody :: (Stmt.nestedList thenBody ++ Stmt.nestedList elseBody)
  | .forEach x value body => .forEach x value body :: Stmt.nestedList body
  | .loop c body => .loop c body :: Stmt.nestedList body
  | s => [s]
termination_by structural s => s

/-- Some statements and all statements in them. -/
def Stmt.nestedList : List Stmt → List Stmt
  | [] => []
  | s :: ss => s.nested ++ Stmt.nestedList ss
termination_by structural ss => ss

end

/-- The facts recorded at a part fit those recorded inside it. -/
def Part.Obeys (r : Registry) (a : Analysis) : Part → Prop
  | expr e => e.Obeys r a
  | declaration d =>
    ∃ t, a.declarations[d.node.id]? = some t ∧ DeclarationRule r a d.typeName d.value t
  | field f => f.Obeys r a
  | method m => ∃ signature, m.Obeys r a signature

namespace Analysis

/-- The parts of a program that have facts are those that should. -/
structure Complete (a : Analysis) (s : Source) : Prop where
  types : ∀ id, id ∈ a.types ↔ ∃ p ∈ s.parts, p.isExpr = true ∧ p.id = id
  bindings : ∀ id, id ∈ a.bindings ↔ ∃ p ∈ s.parts, p.isName = true ∧ p.id = id
  declarations : ∀ id, id ∈ a.declarations ↔ ∃ p ∈ s.parts, p.isDeclared = true ∧ p.id = id
  signatures : ∀ id, id ∈ a.signatures ↔ ∃ p ∈ s.parts, p.isMethod = true ∧ p.id = id

/-- All facts about a program obey the rules. -/
structure Consistent (r : Registry) (a : Analysis) (s : Source) : Prop where
  parts : ∀ p ∈ s.parts, p.Obeys r a
  statements : ∀ m ∈ s.methods, ∃ signature, m.Obeys r a signature ∧
    ∀ st ∈ Stmt.nestedList m.body, st.Obeys r a signature.result

end Analysis

/-! ## Consistency -/

section
variable {r : Registry} {a : Analysis} {result : Ty}

theorem Expr.Sound.parts {Γ : Scope Ty Signature} {e : Expr} (h : e.Sound r a Γ) :
    ∀ p ∈ e.parts, p.Obeys r a := by
  intro p hp
  obtain ⟨e', he', rfl⟩ := List.mem_map.1 hp
  exact (h e' he').1

theorem Expr.Sound.optionalParts {Γ : Scope Ty Signature} {v : Option Expr}
    (h : ∀ e ∈ v, e.Sound r a Γ) : ∀ p ∈ Expr.optionalParts v, p.Obeys r a := by
  cases v with
  | none => simp [Expr.optionalParts]
  | some e => exact (h e rfl).parts

mutual

/-- A statement that obeys the rules in a scope does so in all its parts. -/
theorem Stmt.Scoped.obeys : (st : Stmt) → {Γ Γ' : Scope Ty Signature} →
    Stmt.Scoped r a result Γ st Γ' →
    (∀ p ∈ st.parts, p.Obeys r a) ∧ ∀ st' ∈ st.nested, st'.Obeys r a result
  | .expression e, _, _, .expression ho hs => by
    simpa [Stmt.parts, Stmt.nested, ho] using hs.parts
  | .declare d, _, _, .declare ho hs hd _ => by
    refine ⟨?_, by simpa [Stmt.nested] using ho⟩
    simp only [Stmt.parts, List.forall_mem_append, List.forall_mem_singleton]
    exact ⟨Expr.Sound.optionalParts hs, ho⟩
  | .assign receiver value, _, _, .assign ho hs hs' => by
    refine ⟨?_, by simpa [Stmt.nested] using ho⟩
    simp only [Stmt.parts, List.forall_mem_append]
    exact ⟨hs.parts, hs'.parts⟩
  | .branch c thenBody elseBody, _, _, .branch ho hs ht he => by
    have hthen := Stmts.Scoped.obeys thenBody ht
    have helse := Stmts.Scoped.obeys elseBody he
    simp only [Stmt.parts, Stmt.nested, List.forall_mem_append, List.forall_mem_cons]
    exact ⟨⟨⟨hs.parts, hthen.1⟩, helse.1⟩, ho, hthen.2, helse.2⟩
  | .forEach x value body, _, _, .forEach ho hs hb => by
    have hbody := Stmts.Scoped.obeys body hb
    simp only [Stmt.parts, Stmt.nested, List.forall_mem_append, List.forall_mem_cons]
    exact ⟨⟨hs.parts, hbody.1⟩, ho, hbody.2⟩
  | .loop c body, _, _, .loop ho hs hb => by
    have hbody := Stmts.Scoped.obeys body hb
    simp only [Stmt.parts, Stmt.nested, List.forall_mem_append, List.forall_mem_cons]
    exact ⟨⟨hs.parts, hbody.1⟩, ho, hbody.2⟩
  | .ret offset value, _, _, .ret ho hs => by
    refine ⟨?_, by simpa [Stmt.nested] using ho⟩
    simpa [Stmt.parts] using hs.parts
termination_by structural st => st

/-- The same of some statements. -/
theorem Stmts.Scoped.obeys : (ss : List Stmt) → {Γ Γ' : Scope Ty Signature} →
    Stmts.Scoped r a result Γ ss Γ' →
    (∀ p ∈ Stmt.partsList ss, p.Obeys r a) ∧ ∀ st ∈ Stmt.nestedList ss, st.Obeys r a result
  | [], _, _, _ => by simp [Stmt.partsList, Stmt.nestedList]
  | st :: ss, _, _, .cons hs hss => by
    have hst := Stmt.Scoped.obeys st hs
    have hrest := Stmts.Scoped.obeys ss hss
    simp only [Stmt.partsList, Stmt.nestedList, List.forall_mem_append]
    exact ⟨⟨hst.1, hrest.1⟩, hst.2, hrest.2⟩
termination_by structural ss => ss

end

theorem Fields.Scoped.obeys {Γ Γ' : Scope Ty Signature} {fs : List Field}
    (h : Fields.Scoped r a Γ fs Γ') : ∀ p ∈ fs.flatMap Field.parts, p.Obeys r a := by
  induction h with
  | nil => simp
  | cons ho hs _ _ _ ih =>
    simp only [List.flatMap_cons, Field.parts, List.forall_mem_append, List.forall_mem_singleton]
    exact ⟨⟨Expr.Sound.optionalParts hs, ho⟩, ih⟩

/-- A program that obeys the rules in its scopes has consistent facts. -/
theorem Source.Checked.consistent {s : Source} (h : s.Checked r a) : a.Consistent r s := by
  obtain ⟨Γ₁, Γ₂, hfs, -, -, hms⟩ := h
  have hbody : ∀ m ∈ s.methods, ∃ signature, m.Obeys r a signature ∧
      (∀ p ∈ Stmt.partsList m.body, p.Obeys r a) ∧
      ∀ st ∈ Stmt.nestedList m.body, st.Obeys r a signature.result := by
    intro m hm
    obtain ⟨signature, hsig, Γ, Γ', -, hb⟩ := hms m hm
    exact ⟨signature, hsig, Stmts.Scoped.obeys m.body hb⟩
  refine ⟨fun p hp => ?_, fun m hm => ?_⟩
  · rcases List.mem_append.1 hp with hp | hp
    · exact hfs.obeys p hp
    · obtain ⟨m, hm, hp⟩ := List.mem_flatMap.1 hp
      obtain ⟨signature, hsig, hparts, -⟩ := hbody m hm
      rcases List.mem_append.1 hp with hp | hp
      · exact hparts p hp
      · obtain rfl := List.mem_singleton.1 hp
        exact ⟨signature, hsig⟩
  · obtain ⟨signature, hsig, -, hsts⟩ := hbody m hm
    exact ⟨signature, hsig, hsts⟩

/-! ## Completeness -/

theorem Expr.Obeys.types {e : Expr} (h : e.Obeys r a) : a.types[e.id]?.isSome = true := by
  cases e with
  | literal n v => exact Option.isSome_of_eq_some h
  | group n inner =>
    obtain ⟨-, t, -, ht⟩ := h
    exact Option.isSome_of_eq_some ht
  | binary n o left right =>
    obtain ⟨s, t, u, -, -, -, hu⟩ := h
    exact Option.isSome_of_eq_some hu
  | var n x =>
    obtain ⟨t, -, ht⟩ := h
    exact Option.isSome_of_eq_some ht
  | field n receiver x =>
    obtain ⟨owner, t, -, -, -, ht⟩ := h
    exact Option.isSome_of_eq_some ht
  | call n f es =>
    obtain ⟨signature, -, -, -, ht⟩ := h
    exact Option.isSome_of_eq_some ht
  | methodCall n receiver f es =>
    obtain ⟨owner, method, -, -, -, -, ht⟩ := h
    exact Option.isSome_of_eq_some ht

theorem Expr.Obeys.bindings {e : Expr} (h : e.Obeys r a) (he : Part.isName (.expr e) = true) :
    a.bindings[e.id]?.isSome = true := by
  cases e with
  | literal n v => simp [Part.isName, isAccess, isCall] at he
  | group n inner => simp [Part.isName, isAccess, isCall] at he
  | binary n o left right => simp [Part.isName, isAccess, isCall] at he
  | var n x =>
    obtain ⟨t, hb, -⟩ := h
    exact Option.isSome_of_eq_some hb
  | field n receiver x =>
    obtain ⟨owner, t, -, -, hb, -⟩ := h
    exact Option.isSome_of_eq_some hb
  | call n f es =>
    obtain ⟨signature, -, hb, -, -⟩ := h
    exact Option.isSome_of_eq_some hb
  | methodCall n receiver f es =>
    obtain ⟨owner, method, -, -, hb, -, -⟩ := h
    exact Option.isSome_of_eq_some hb

/-- A table that differs from another only at some parts has the keys of these parts
    only, and all of them if they have facts. -/
theorem mem_iff_of_within {ν : Type} {t : Std.ExtTreeMap Nat ν} {ps : List Part}
    {kind : Part → Bool}
    (hw : ∀ id, (∀ p ∈ ps, kind p = true → p.id ≠ id) → t[id]? = (∅ : Std.ExtTreeMap Nat ν)[id]?)
    (hs : ∀ p ∈ ps, kind p = true → t[p.id]?.isSome = true) (id : Nat) :
    id ∈ t ↔ ∃ p ∈ ps, kind p = true ∧ p.id = id := by
  rw [Std.ExtTreeMap.mem_iff_isSome_getElem?]
  constructor
  · intro hid
    by_contra hne
    push Not at hne
    rw [hw id hne] at hid
    simp at hid
  · rintro ⟨p, hp, hk, rfl⟩
    exact hs p hp hk

theorem Analysis.Consistent.complete {s : Source} (h : a.Consistent r s)
    (hw : Analysis.Within s.parts {} a) : a.Complete s := by
  refine ⟨mem_iff_of_within hw.types fun p hp hk => ?_,
    mem_iff_of_within hw.bindings fun p hp hk => ?_,
    mem_iff_of_within hw.declarations fun p hp hk => ?_,
    mem_iff_of_within hw.signatures fun p hp hk => ?_⟩
  all_goals have ho := h.parts p hp
  · cases p with
    | expr e => exact Expr.Obeys.types ho
    | declaration d => cases hk
    | field f => cases hk
    | method m => cases hk
  · cases p with
    | expr e => exact Expr.Obeys.bindings ho hk
    | declaration d => cases hk
    | field f => cases hk
    | method m => cases hk
  · cases p with
    | expr e => cases hk
    | declaration d =>
      obtain ⟨t, ht, -⟩ := ho
      exact Option.isSome_of_eq_some ht
    | field f =>
      obtain ⟨t, ht, -⟩ := ho
      exact Option.isSome_of_eq_some ht
    | method m => cases hk
  · cases p with
    | expr e => cases hk
    | declaration d => cases hk
    | field f => cases hk
    | method m =>
      obtain ⟨signature, hsig, -⟩ := ho
      exact Option.isSome_of_eq_some hsig

/-- With distinct identities, the number of types is that of expressions. -/
theorem Analysis.Complete.expressionCount {s : Source} (h : a.Complete s)
    (hn : Part.Distinct s.parts) :
    a.expressionCount = (s.parts.filter Part.isExpr).length := by
  have hids : ((s.parts.filter Part.isExpr).map Part.id).Nodup :=
    hn.sublist (List.filter_sublist.map Part.id)
  have hperm : a.types.keys.Perm ((s.parts.filter Part.isExpr).map Part.id) := by
    refine (List.perm_ext_iff_of_nodup a.types.nodup_keys hids).2 fun id => ?_
    rw [Std.ExtTreeMap.mem_keys, h.types]
    simp [and_assoc]
  show a.types.size = _
  rw [← Std.ExtTreeMap.length_keys, hperm.length_eq, List.length_map]

end

/-- **The table of an accepted program is complete and consistent**, and counts its
    expressions. -/
theorem complete_and_consistent_of_analyze {tokens : List Token} {r : Registry} {s : Source}
    {a : Analysis} (hp : parse tokens = .ok s) (ha : analyze r s = .ok a) :
    a.Complete s ∧ a.expressionCount = (s.parts.filter Part.isExpr).length ∧ a.Consistent r s := by
  have hn : Part.Distinct s.parts := nodup_ids_of_parse hp
  obtain ⟨hchecked, hwithin⟩ := sound_of_analyze hn ha
  have hcomplete := hchecked.consistent.complete hwithin
  exact ⟨hcomplete, hcomplete.expressionCount hn, hchecked.consistent⟩

/-- A program with a global variable, a parameter, a loop and calls. -/
def counterText : String :=
  "LET count: Integer = 0;
   DEF tick(step: Integer) DO count = count + step; END
   DEF main(): Integer DO
     FOR i IN range(0, 3) DO tick(i); END
     RETURN count;
   END"

theorem complete_and_consistent_counter : ∃ tokens s a,
    lex counterText = .ok tokens ∧ parse tokens = .ok s ∧ analyze Registry.standard s = .ok a ∧
      a.Complete s ∧ a.expressionCount = (s.parts.filter Part.isExpr).length ∧
      a.Consistent Registry.standard s := by
  have h : (Program.process Registry.standard {} .checkOnly 0 counterText).1 = .accepted := by
    decide +kernel
  obtain ⟨s, a, hs, ha⟩ := exists_of_accepted counterText h
  obtain ⟨tokens, hl, hp⟩ := Program.read_eq_ok.1 hs
  exact ⟨tokens, s, a, hl, hp, ha, complete_and_consistent_of_analyze hp ha⟩

end TinyScript
