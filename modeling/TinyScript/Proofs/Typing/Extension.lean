import Mathlib.Data.List.Induction
import TinyScript.Proofs.Typing.Weakening

/-
  Hosts that provide more.

  A host is extended by further functions, under names and arities that it lacks, and by
  further object types, under names that it does not have or under none.  Nothing that it has
  changes: neither its functions, nor the places of its types, nor what its names mean.  So
  every program that is accepted is accepted by the extended host, with the same facts.

  * `Registry.Extends`: one host is another one with further functions and types;
  * `Registry.Extends.extendedBy`: names and types mean what they meant;
  * `Registry.Extends.analyze`: analysis finds what it found.
-/

namespace TinyScript

/-! ## Tables -/

/-- A new key goes behind the entries that there are. -/
theorem Table.put_append {κ ν : Type} [DecidableEq κ] {k : κ} {v : ν} {t : List (κ × ν)}
    (h : ∀ e ∈ t, e.1 ≠ k) (u : List (κ × ν)) : put k v (t ++ u) = t ++ put k v u := by
  induction t with
  | nil => rfl
  | cons e t ih =>
    obtain ⟨he, ht⟩ := List.forall_mem_cons.1 h
    rw [List.cons_append, put, if_neg he, ih ht]
    rfl

/-! ## Extensions -/

namespace Registry

/-- No function of the host has this name and arity. -/
def Lacks (r : Registry) (name : String) (arity : Nat) : Prop :=
  ∀ e ∈ r.functions,
    e.1 ≠ (name, arity) ∧ ¬(e.2.signature.name = name ∧ e.2.signature.arity = arity)

instance (r : Registry) (name : String) (arity : Nat) : Decidable (r.Lacks name arity) :=
  inferInstanceAs (Decidable (∀ e ∈ r.functions, _))

/-- The second host is the first one with further functions and object types. -/
inductive Extends (r : Registry) : Registry → Prop
  /-- Nothing is added. -/
  | refl : Extends r r
  /-- A function is defined, under a name and arity that the first host lacks. -/
  | define {r'} (f : NativeFunction) : Extends r r' →
      r.Lacks f.signature.name f.signature.arity → Extends r (r'.define f)
  /-- A type is defined, under a name that the first host does not have. -/
  | defineType {r'} (t : ObjectType) : Extends r r' → r.typeRef? t.name = none →
      Extends r (r'.defineType t).2
  /-- A type is added that programs cannot name. -/
  | addType {r'} (t : ObjectType) : Extends r r' → Extends r (r'.addType t).2

namespace Extends

variable {r r' : Registry}

/-- The further functions stand behind those of the first host. -/
theorem functions (h : r.Extends r') : ∃ more, r'.functions = r.functions ++ more ∧
    ∀ e ∈ more, r.Lacks e.2.signature.name e.2.signature.arity := by
  induction h with
  | refl => exact ⟨[], (List.append_nil _).symm, List.forall_mem_nil _⟩
  | define f _ hf ih =>
    obtain ⟨more, hfunctions, hmore⟩ := ih
    refine ⟨Table.put (f.signature.name, f.signature.arity) f more, ?_, fun e he => ?_⟩
    · rw [Registry.define, hfunctions, Table.put_append fun e he => (hf e he).1]
    · rcases Table.mem_put he with rfl | he
      · exact hf
      · exact hmore e he
  | defineType t _ _ ih => exact ih
  | addType t _ ih => exact ih

/-- Types keep their places. -/
theorem types (h : r.Extends r') {i : Nat} (hi : i < r.types.size) :
    r'.types[i]? = r.types[i]? := by
  have hpush : ∀ (r' : Registry) (t : ObjectType), r'.types[i]? = r.types[i]? →
      (r'.types.push t)[i]? = r.types[i]? := by
    intro r' t ih
    rw [Array.getElem?_push, if_neg, ih]
    rintro rfl
    rw [Array.getElem?_eq_none (Nat.le_refl _), eq_comm, Array.getElem?_eq_none_iff] at ih
    exact absurd hi (Nat.not_lt.2 ih)
  induction h with
  | refl => rfl
  | define f _ _ ih => exact ih
  | defineType t _ _ ih => exact hpush _ t ih
  | addType t _ ih => exact hpush _ t ih

/-- Names of types keep their meaning. -/
theorem typeRef? (h : r.Extends r') {x : String} {ref : TypeRef} (hx : r.typeRef? x = some ref) :
    r'.typeRef? x = some ref := by
  induction h with
  | refl => exact hx
  | define f _ _ ih => exact ih
  | addType t _ ih => exact ih
  | defineType t _ ht ih =>
    rw [← ih]
    show Option.map _ (Table.get? x (Table.put t.name _ _)) = _
    rw [Table.get?_put, if_neg]
    · rfl
    · rintro rfl
      rw [ht] at hx
      cases hx

theorem extendedBy (h : r.Extends r') : r.ExtendedBy r' where
  resolve? x t hx := by
    rw [Registry.resolve?] at hx ⊢
    cases hb : Ty.ofBuiltinName? x with
    | some u =>
      rw [hb] at hx
      exact hx
    | none =>
      rw [hb] at hx
      obtain ⟨ref, href, rfl⟩ := Option.map_eq_some_iff.1 hx
      exact Option.map_eq_some_iff.2 ⟨ref, h.typeRef? href, rfl⟩
  describe ref href := by rw [Registry.describe, h.types href, Registry.describe]

end Extends

end Registry

/-! ## The functions of the host -/

namespace Scope

variable {V F : Type}

/-- The scope with the functions of some host defined in it. -/
abbrev defineHost (g : NativeFunction → F) (Γ : Scope V F)
    (fs : List ((String × Nat) × NativeFunction)) : Scope V F :=
  fs.foldl (fun Γ e => Γ.defineFunction e.2.signature.name e.2.signature.arity (g e.2)) Γ

/-- A name and arity that no function of the host has keep their meaning. -/
theorem function?_defineHost {g : NativeFunction → F} {fs : List ((String × Nat) × NativeFunction)}
    {f : String} {k : Nat}
    (h : ∀ e ∈ fs, ¬(e.2.signature.name = f ∧ e.2.signature.arity = k)) (Γ : Scope V F) :
    (Γ.defineHost g fs).function? f k = Γ.function? f k := by
  induction fs generalizing Γ with
  | nil => rfl
  | cons e fs ih =>
    obtain ⟨he, hfs⟩ := List.forall_mem_cons.1 h
    refine (ih hfs _).trans ?_
    rw [function?_defineFunction, if_neg]
    rintro ⟨rfl, rfl⟩
    exact he ⟨rfl, rfl⟩

/-- What is found where only functions of the host are defined is one of them. -/
theorem mem_of_function?_defineHost {g : NativeFunction → F}
    {fs : List ((String × Nat) × NativeFunction)} {f : String} {k : Nat} {c : F}
    (h : (defineHost g (root : Scope V F) fs).function? f k = some c) :
    ∃ e ∈ fs, e.2.signature.name = f ∧ e.2.signature.arity = k ∧ g e.2 = c := by
  induction fs using List.reverseRecOn with
  | nil => cases h
  | append_singleton fs e ih =>
    rw [defineHost, List.foldl_append] at h
    change (Scope.defineFunction _ _ _ _).function? f k = some c at h
    rw [function?_defineFunction] at h
    split at h
    · rename_i heq
      exact ⟨e, by simp, heq.1.symm, heq.2.symm, Option.some.inj h⟩
    · obtain ⟨e', he', hfound⟩ := ih h
      exact ⟨e', List.mem_append_left _ he', hfound⟩

theorem exists_function?_defineHost {g : NativeFunction → F}
    {fs : List ((String × Nat) × NativeFunction)} {e : (String × Nat) × NativeFunction}
    (he : e ∈ fs) (Γ : Scope V F) :
    ∃ c, (Γ.defineHost g fs).function? e.2.signature.name e.2.signature.arity = some c := by
  induction fs using List.reverseRecOn with
  | nil => exact absurd he List.not_mem_nil
  | append_singleton fs e' ih =>
    rw [defineHost, List.foldl_append]
    change ∃ c, (Scope.defineFunction _ _ _ _).function? _ _ = some c
    rw [function?_defineFunction]
    split
    · exact ⟨_, rfl⟩
    · rename_i hne
      rcases List.mem_append.1 he with he | he
      · exact ih he
      · obtain rfl := List.mem_singleton.1 he
        exact absurd ⟨rfl, rfl⟩ hne

/-- The functions of a host are found with those of an extension. -/
theorem function?_of_extends {r r' : Registry} (h : r.Extends r') {g : NativeFunction → F}
    {f : String} {k : Nat} {c : F}
    (hf : (defineHost g (root : Scope V F) r.functions).function? f k = some c) :
    (defineHost g (root : Scope V F) r'.functions).function? f k = some c := by
  obtain ⟨more, hfunctions, hmore⟩ := h.functions
  obtain ⟨e, he, rfl, rfl, -⟩ := mem_of_function?_defineHost hf
  rw [hfunctions, defineHost, List.foldl_append, ← hf]
  exact function?_defineHost (fun e' he' hsame => (hmore e' he' e he).2 ⟨hsame.1.symm, hsame.2.symm⟩) _

end Scope

namespace Registry.Extends

variable {r r' : Registry} (h : r.Extends r')
include h

/-- One level further in, only the outermost frame has more functions. -/
theorem scope_extendedBy :
    (CheckState.ofRegistry r).scope.child.ExtendedBy (CheckState.ofRegistry r').scope.child where
  lookup? x := by
    show (CheckState.ofRegistry r').scope.lookup? x = (CheckState.ofRegistry r).scope.lookup? x
    rw [lookup?_ofRegistry, lookup?_ofRegistry]
  function? _ _ _ hf := Scope.function?_of_extends h hf
  hasLocalVariable _ := rfl
  hasLocalFunction _ _ := rfl

/-- Analysis finds the same facts. -/
theorem analyze {s : Source} {a : Analysis} (ha : TinyScript.analyze r s = .ok a) :
    TinyScript.analyze r' s = .ok a := by
  obtain ⟨σ, hσ, rfl⟩ := analyze_eq_ok.1 ha
  exact analyze_eq_ok.2 ⟨_, Check.source_of_extendedBy h.extendedBy h.scope_extendedBy hσ, rfl⟩

end Registry.Extends

end TinyScript
