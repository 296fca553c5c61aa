import TinyScript.Proofs.Outcome
import TinyScript.Proofs.Typing.Rules

/-
  How the table of facts grows.

  Analysis of a part of the tree records facts at the identities of that part and
  changes nothing else (`Analysis.Within`).  With distinct identities, what it has
  recorded for one part is therefore still there after the analysis of every
  other (`Analysis.SameAt`).
-/

namespace TinyScript

namespace Part

/-- Whether the part is an expression: it gets a type. -/
def isExpr : Part → Bool
  | expr _ => true
  | _ => false

/-- Whether the part is a variable, a field or a call: it gets a binding. -/
def isName : Part → Bool
  | expr e => e.isAccess || e.isCall
  | _ => false

/-- Whether the part declares a variable: it gets a declared type. -/
def isDeclared : Part → Bool
  | declaration _ | field _ => true
  | _ => false

/-- Whether the part is a method: it gets a signature. -/
def isMethod : Part → Bool
  | method _ => true
  | _ => false

/-- No two of the parts have the same identity. -/
def Distinct (ps : List Part) : Prop := (ps.map Part.id).Nodup

theorem Distinct.left {ps qs : List Part} (h : Distinct (ps ++ qs)) : Distinct ps := by
  rw [Distinct, List.map_append, List.nodup_append] at h
  exact h.1

theorem Distinct.right {ps qs : List Part} (h : Distinct (ps ++ qs)) : Distinct qs := by
  rw [Distinct, List.map_append, List.nodup_append] at h
  exact h.2.1

theorem Distinct.notMem_right {ps qs : List Part} (h : Distinct (ps ++ qs)) {p : Part}
    (hp : p ∈ ps) : p.id ∉ qs.map Part.id := by
  rw [Distinct, List.map_append, List.nodup_append] at h
  exact fun hq => h.2.2 p.id (List.mem_map_of_mem hp) p.id hq rfl

end Part

namespace Analysis

/-- The two tables have the same facts at an identity. -/
structure SameAt (id : Nat) (a b : Analysis) : Prop where
  types : b.types[id]? = a.types[id]?
  bindings : b.bindings[id]? = a.bindings[id]?
  declarations : b.declarations[id]? = a.declarations[id]?
  signatures : b.signatures[id]? = a.signatures[id]?

/-- The second table differs from the first only in facts about the parts: types of
    expressions, bindings of names, declared types and signatures. -/
structure Within (ps : List Part) (a b : Analysis) : Prop where
  types : ∀ id, (∀ p ∈ ps, p.isExpr = true → p.id ≠ id) → b.types[id]? = a.types[id]?
  bindings : ∀ id, (∀ p ∈ ps, p.isName = true → p.id ≠ id) → b.bindings[id]? = a.bindings[id]?
  declarations : ∀ id, (∀ p ∈ ps, p.isDeclared = true → p.id ≠ id) →
    b.declarations[id]? = a.declarations[id]?
  signatures : ∀ id, (∀ p ∈ ps, p.isMethod = true → p.id ≠ id) →
    b.signatures[id]? = a.signatures[id]?

/-- The two tables have the same facts about all parts. -/
def Agrees (ps : List Part) (a b : Analysis) : Prop := ∀ p ∈ ps, SameAt p.id a b

variable {ps qs : List Part} {a b c : Analysis} {id : Nat}

theorem SameAt.refl (id : Nat) (a : Analysis) : SameAt id a a := ⟨rfl, rfl, rfl, rfl⟩

theorem SameAt.trans (h : SameAt id a b) (h' : SameAt id b c) : SameAt id a c :=
  ⟨h'.types.trans h.types, h'.bindings.trans h.bindings,
    h'.declarations.trans h.declarations, h'.signatures.trans h.signatures⟩

theorem Within.refl (ps : List Part) (a : Analysis) : Within ps a a :=
  ⟨fun _ _ => rfl, fun _ _ => rfl, fun _ _ => rfl, fun _ _ => rfl⟩

theorem Within.mono (hs : ps ⊆ qs) (h : Within ps a b) : Within qs a b :=
  ⟨fun id hid => h.types id fun p hp => hid p (hs hp),
    fun id hid => h.bindings id fun p hp => hid p (hs hp),
    fun id hid => h.declarations id fun p hp => hid p (hs hp),
    fun id hid => h.signatures id fun p hp => hid p (hs hp)⟩

theorem Within.trans (h : Within ps a b) (h' : Within qs b c) : Within (ps ++ qs) a c := by
  have hl : ps ⊆ ps ++ qs := List.subset_append_left ps qs
  have hr : qs ⊆ ps ++ qs := List.subset_append_right ps qs
  obtain ⟨t, u, v, w⟩ := h.mono hl
  obtain ⟨t', u', v', w'⟩ := h'.mono hr
  exact ⟨fun id hid => (t' id hid).trans (t id hid), fun id hid => (u' id hid).trans (u id hid),
    fun id hid => (v' id hid).trans (v id hid), fun id hid => (w' id hid).trans (w id hid)⟩

/-- Facts at other identities stay. -/
theorem Within.sameAt (h : Within ps a b) (hid : id ∉ ps.map Part.id) : SameAt id a b := by
  have hne : ∀ p ∈ ps, p.id ≠ id := by
    rintro p hp rfl
    exact hid (List.mem_map_of_mem hp)
  exact ⟨h.types id fun p hp _ => hne p hp, h.bindings id fun p hp _ => hne p hp,
    h.declarations id fun p hp _ => hne p hp, h.signatures id fun p hp _ => hne p hp⟩

theorem Agrees.mono (hs : ps ⊆ qs) (h : Agrees qs a b) : Agrees ps a b := fun p hp => h p (hs hp)

theorem Agrees.append_left (h : Agrees (ps ++ qs) a b) : Agrees ps a b :=
  h.mono (List.subset_append_left ps qs)

theorem Agrees.append_right (h : Agrees (ps ++ qs) a b) : Agrees qs a b :=
  h.mono (List.subset_append_right ps qs)

/-- What was recorded for some parts is still there after the analysis of others. -/
theorem Agrees.before (hn : Part.Distinct (ps ++ qs)) (hw : Within qs a b)
    (h : Agrees (ps ++ qs) b c) : Agrees ps a c := by
  intro p hp
  exact (hw.sameAt (hn.notMem_right hp)).trans (h.append_left p hp)

/-! ## Recording -/

theorem within_recordType (a : Analysis) (e : Expr) (t : Ty) :
    Within [.expr e] a (a.recordType e.id t) := by
  refine ⟨fun id hid => ?_, fun _ _ => rfl, fun _ _ => rfl, fun _ _ => rfl⟩
  have hne : e.id ≠ id := hid (.expr e) (by simp) rfl
  simp [recordType, Std.ExtTreeMap.getElem?_insert, hne]

theorem within_recordBinding (a : Analysis) {e : Expr} (he : Part.isName (.expr e) = true)
    (binding : Binding) : Within [.expr e] a (a.recordBinding e.id binding) := by
  refine ⟨fun _ _ => rfl, fun id hid => ?_, fun _ _ => rfl, fun _ _ => rfl⟩
  have hne : e.id ≠ id := hid (.expr e) (by simp) he
  simp [recordBinding, Std.ExtTreeMap.getElem?_insert, hne]

theorem within_recordDeclaration (a : Analysis) {p : Part} (hp : p.isDeclared = true) (t : Ty) :
    Within [p] a (a.recordDeclaration p.id t) := by
  refine ⟨fun _ _ => rfl, fun _ _ => rfl, fun id hid => ?_, fun _ _ => rfl⟩
  have hne : p.id ≠ id := hid p (by simp) hp
  simp [recordDeclaration, Std.ExtTreeMap.getElem?_insert, hne]

theorem within_recordSignature (a : Analysis) (m : Method) (signature : Signature) :
    Within [.method m] a (a.recordSignature m.node.id signature) := by
  refine ⟨fun _ _ => rfl, fun _ _ => rfl, fun _ _ => rfl, fun id hid => ?_⟩
  have hne : m.node.id ≠ id := hid (.method m) (by simp) rfl
  simp [recordSignature, Std.ExtTreeMap.getElem?_insert, hne]

@[simp] theorem types_recordType (a : Analysis) (id : Nat) (t : Ty) :
    (a.recordType id t).types[id]? = some t := by
  simp [recordType]

@[simp] theorem bindings_recordType (a : Analysis) (id : Nat) (t : Ty) :
    (a.recordType id t).bindings = a.bindings := rfl

@[simp] theorem bindings_recordBinding (a : Analysis) (id : Nat) (binding : Binding) :
    (a.recordBinding id binding).bindings[id]? = some binding := by
  simp [recordBinding]

@[simp] theorem declarations_recordDeclaration (a : Analysis) (id : Nat) (t : Ty) :
    (a.recordDeclaration id t).declarations[id]? = some t := by
  simp [recordDeclaration]

@[simp] theorem signatures_recordSignature (a : Analysis) (id : Nat) (signature : Signature) :
    (a.recordSignature id signature).signatures[id]? = some signature := by
  simp [recordSignature]

end Analysis

end TinyScript
