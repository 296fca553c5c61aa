import TinyScript.Proofs.Machine.Correspondence
import TinyScript.Proofs.Machine.Returns

/-
  Disciplines of values.

  A discipline says which values may stand for a type and which worlds are in
  order, and knows that literals, operators, fields and the functions of the host
  respect it.  A run of an accepted program then respects it throughout, if the
  program leaves nothing without a value where `NIL` is not allowed; this is shown once
  for all disciplines (`invoke_keeps`).

  * `Discipline.trivial` allows everything: what remains is that names are found;
  * other disciplines say what values look like;
  * `Discipline.Covers`: a part of a program leaves nothing without a value.
-/

namespace TinyScript

/-- Analysis has found an expression of the object type. -/
def Analysis.Mentions (a : Analysis) (type : TypeRef) : Prop :=
  ∃ id : Nat, a.types[id]? = some (.object type)

/-- Which values may stand for a type, in which worlds. -/
structure Discipline (r : Registry) (a : Analysis) where
  /-- The value may stand for the type. -/
  val : World → Ty → Value → Prop
  /-- The world is in order. -/
  world : World → Prop
  /-- The second world may come after the first. -/
  later : World → World → Prop
  later_refl (w : World) : later w w
  later_trans {w w' w'' : World} : later w w' → later w' w'' → later w w''
  val_later {w w' : World} {t : Ty} {v : Value} : later w w' → val w t v → val w' t v
  val_accepts {w : World} {s t : Ty} {v : Value} : t.accepts s = true → val w s v → val w t v
  val_literal (w : World) (l : Literal) : val w l.type (.ofLiteral l)
  val_binary {w : World} {o : BinaryOperator} {s t u : Ty} {x y z : Value} :
    ¬(o = .and ∨ o = .or) → BinaryRule o s t u → val w s x → val w t y →
    w.binary o x y = .ok z → val w u z
  val_field {w : World} {type : TypeRef} {ref : ObjectRef} {x : String} {t : Ty} {v : Value} :
    a.Mentions type → world w → val w (.object type) (.object ref) →
    (r.describe type).fieldType? x = some t → w.field ref x = .ok v → val w t v
  setField {w w' : World} {type : TypeRef} {ref : ObjectRef} {x : String} {t : Ty} {v : Value} :
    a.Mentions type → world w → val w (.object type) (.object ref) →
    (r.describe type).fieldType? x = some t → val w t v → w.setField ref x v = .ok w' →
    world w' ∧ later w w'
  function {w w' : World} {f : NativeFunction} {vs : List Value} {v : Value} :
    f ∈ r.functions.map Prod.snd → world w → List.Forall₂ (val w) f.signature.parameters vs →
    f.body vs w = .ok v w' → val w' f.signature.result v ∧ world w' ∧ later w w'
  method {w w' : World} {type : TypeRef} {ref : ObjectRef} {x : String} {k : Nat}
    {f g : NativeFunction} {vs : List Value} {v : Value} :
    a.Mentions type → (r.describe type).method? x k = some f →
    (r.describe ref.type).method? x k = some g → world w → val w (.object type) (.object ref) →
    List.Forall₂ (val w) f.signature.parameters vs → g.body (.object ref :: vs) w = .ok v w' →
    val w' f.signature.result v ∧ world w' ∧ later w w'

/-- The discipline that allows everything. -/
def Discipline.trivial (r : Registry) (a : Analysis) : Discipline r a where
  val _ _ _ := True
  world _ := True
  later _ _ := True
  later_refl _ := .intro
  later_trans _ _ := .intro
  val_later _ _ := .intro
  val_accepts _ _ := .intro
  val_literal _ _ := .intro
  val_binary _ _ _ _ _ := .intro
  val_field _ _ _ _ _ := .intro
  setField _ _ _ _ _ _ := ⟨.intro, .intro⟩
  function _ _ _ _ := ⟨.intro, .intro, .intro⟩
  method _ _ _ _ _ _ _ := ⟨.intro, .intro, .intro⟩

variable {r : Registry} {a : Analysis}

/-- `NIL` may stand for the type. -/
def Discipline.AllowsNil (D : Discipline r a) (t : Ty) : Prop := ∀ w, D.val w t .nil

/-- A variable without initial value, and a method that may end without `RETURN`, have a
    type that `NIL` may stand for. -/
def Discipline.Covers (D : Discipline r a) : Part → Prop
  | .expr _ => True
  | .declaration d => d.value = none → ∀ t, a.declarations[d.node.id]? = some t → D.AllowsNil t
  | .field f => f.value = none → ∀ t, a.declarations[f.node.id]? = some t → D.AllowsNil t
  | .method d => ∀ signature, a.signatures[d.node.id]? = some signature →
      D.AllowsNil signature.result ∨ Stmt.returnsList d.body = true

/-- `NIL` may stand for every type. -/
class Discipline.Lenient (D : Discipline r a) : Prop where
  allowsNil : ∀ t, D.AllowsNil t

instance : (Discipline.trivial r a).Lenient := ⟨fun _ _ => .intro⟩

/-- Where `NIL` may stand for every type, nothing needs a value. -/
theorem Discipline.covers_of_lenient (D : Discipline r a) [D.Lenient] (p : Part) :
    D.Covers p := by
  cases p with
  | expr e => exact .intro
  | declaration d | field f => exact fun _ t _ => Lenient.allowsNil t
  | method d => exact fun signature _ => Or.inl (Lenient.allowsNil signature.result)

/-- The machine respects the discipline: its world is in order, and its cells hold
    values of the types `Δ`. -/
structure Machine.Typed (D : Discipline r a) (Δ : List Ty) (m : Machine) : Prop where
  world : D.world m.world
  cells : List.Forall₂ (D.val m.world) Δ m.cells.toList

/-- From one machine that respects the discipline to another. -/
structure Machine.Moves (D : Discipline r a) (Δ : List Ty) (m : Machine) (Δ' : List Ty)
    (m' : Machine) : Prop where
  typing : Δ <+: Δ'
  typed : m'.Typed D Δ'
  later : D.later m.world m'.world

section
variable {D : Discipline r a} {Δ Δ' Δ'' : List Ty} {m m' m'' : Machine}

namespace Machine.Typed

/-- The scope and the depth of calls do not matter. -/
theorem congr (h : m.Typed D Δ) (hw : m'.world = m.world) (hc : m'.cells = m.cells) :
    m'.Typed D Δ := by
  refine ⟨hw ▸ h.world, ?_⟩
  rw [hw, hc]
  exact h.cells

theorem enter (h : m.Typed D Δ) (S : RunScope) :
    ({ m with scope := S } : Machine).Typed D Δ :=
  h.congr rfl rfl

theorem call (h : m.Typed D Δ) (S : RunScope) (k : Nat) :
    ({ m with scope := S, depth := k } : Machine).Typed D Δ :=
  h.congr rfl rfl

theorem load (h : m.Typed D Δ) {c : Nat} {t : Ty} (hc : Δ[c]? = some t) :
    D.val m.world t ((m.cells[c]?).getD .nil) := by
  obtain ⟨hlt, rfl⟩ := List.getElem?_eq_some_iff.1 hc
  have hlt' : c < m.cells.toList.length := h.cells.length_eq ▸ hlt
  have hv := h.cells.get hlt hlt'
  rw [Array.length_toList] at hlt'
  simpa [Array.getElem?_eq_getElem hlt'] using hv

theorem define (h : m.Typed D Δ) {t : Ty} {v : Value} (hv : D.val m.world t v) (x : String) :
    (m.define x v).Typed D (Δ ++ [t]) := by
  refine ⟨h.world, ?_⟩
  simp only [Machine.define, Array.toList_push]
  exact List.rel_append h.cells (.cons hv .nil)

theorem store (h : m.Typed D Δ) {c : Nat} {t : Ty} {v : Value} (hc : Δ[c]? = some t)
    (hv : D.val m.world t v) :
    ({ m with cells := m.cells.setIfInBounds c v } : Machine).Typed D Δ := by
  refine ⟨h.world, List.forall₂_iff_get.2 ⟨?_, fun i hi hi' => ?_⟩⟩
  · simpa using h.cells.length_eq
  · have hi₁ : i < m.cells.toList.length := by simpa using hi'
    have hvi := h.cells.get hi hi₁
    simp only [List.get_eq_getElem, Array.getElem_toList]
    rw [Array.getElem_setIfInBounds (by simpa using hi₁)]
    split
    · rename_i heq
      subst heq
      obtain ⟨_, rfl⟩ := List.getElem?_eq_some_iff.1 hc
      exact hv
    · simpa using hvi

theorem later (h : m.Typed D Δ) {w : World} (hw : D.world w) (hl : D.later m.world w) :
    ({ m with world := w } : Machine).Typed D Δ :=
  ⟨hw, h.cells.imp fun _ _ => D.val_later hl⟩

end Machine.Typed

namespace Machine.Moves

theorem refl (h : m.Typed D Δ) : m.Moves D Δ Δ m :=
  ⟨List.prefix_rfl, h, D.later_refl _⟩

theorem trans (h : m.Moves D Δ Δ' m') (h' : m'.Moves D Δ' Δ'' m'') : m.Moves D Δ Δ'' m'' :=
  ⟨h.typing.trans h'.typing, h'.typed, D.later_trans h.later h'.later⟩

/-- Into another scope and out of it. -/
theorem leave {S S' : RunScope} (h : ({ m with scope := S } : Machine).Moves D Δ Δ' m') :
    m.Moves D Δ Δ' { m' with scope := S' } :=
  ⟨h.typing, h.typed.congr rfl rfl, h.later⟩

theorem define (h : m.Typed D Δ) {t : Ty} {v : Value} (hv : D.val m.world t v) (x : String) :
    m.Moves D Δ (Δ ++ [t]) (m.define x v) :=
  ⟨List.prefix_append _ _, h.define hv x, D.later_refl _⟩

end Machine.Moves

/-- A new variable corresponds to one of analysis. -/
theorem Scope.Matches.define {C : Part → Prop} {Γ : Scope Ty Signature}
    (h : m.scope.Matches r a C Δ Γ) (hp : Γ.Plain) (hm : m.Typed D Δ) (t : Ty) (v : Value)
    (x : String) : (m.define x v).scope.Matches r a C (Δ ++ [t]) (Γ.defineVariable x t) := by
  refine (h.extend (List.prefix_append Δ [t])).defineVariable hp ?_ x
  have hl : Δ.length = m.cells.size := hm.cells.length_eq
  rw [← hl, List.getElem?_concat_length]

end

end TinyScript
