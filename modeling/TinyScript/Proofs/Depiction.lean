import Mathlib.Data.List.Perm.Subperm
import Mathlib.Logic.Relation
import TinyScript.World

/-
  Texts of values, and objects that contain themselves.

  The text of an object is made of those of its fields, so it ends exactly if following the
  fields ends.  There are only so many objects, hence all that can go on without end is going
  round.

  * `World.Contains`: a field of one object holds another;
  * `World.Acyclic`: no object that a value leads to contains itself;
  * `World.Shallow`: following the fields of an object ends after so many objects;
  * `World.Kept`: objects store the fields that their types declare;
  * `text?_object`: the text of an object shows its fields;
  * `isSome_text?`, `acyclic_of_text?`: the text ends for values without cycles, and for no
    others.
-/

namespace TinyScript

/-- Answers for all elements of a list make one answer. -/
theorem isSome_mapM_iff {α β : Type} {f : α → Option β} {l : List α} :
    (l.mapM f).isSome ↔ ∀ a ∈ l, (f a).isSome := by
  induction l with
  | nil => simp
  | cons a l ih =>
    rw [List.mapM_cons, List.forall_mem_cons, ← ih]
    cases f a <;> cases l.mapM f <;> simp

theorem mapM_eq_some_of_forall {α β : Type} {f : α → Option β} {g : α → β} {l : List α}
    (h : ∀ a ∈ l, f a = some (g a)) : l.mapM f = some (l.map g) := by
  induction l with
  | nil => rfl
  | cons a l ih =>
    obtain ⟨ha, hl⟩ := List.forall_mem_cons.1 h
    rw [List.mapM_cons, ha, ih hl]
    rfl

namespace World

/-- A field of the first object holds the second. -/
def Contains (w : World) (a b : ObjectRef) : Prop := ∃ name, (name, .object b) ∈ w.fields a

/-- No object that the value leads to contains itself, directly or through others. -/
def Acyclic (w : World) (v : Value) : Prop :=
  ∀ a b, v = .object a → Relation.ReflTransGen w.Contains a b → ¬Relation.TransGen w.Contains b b

/-- The fields of the object lead fewer than `n` objects further. -/
def Shallow (w : World) : Nat → ObjectRef → Prop
  | 0, _ => False
  | n + 1, a => ∀ b, w.Contains a b → w.Shallow n b

/-- Every object stores the fields that its type declares, each of them once. -/
def Kept (w : World) : Prop :=
  ∀ o ∈ w.objects, o.fields.map Prod.fst = o.declared ∧ o.declared.Nodup

section
variable {w : World} {a b : ObjectRef} {v : Value} {n : Nat}

/-! ## Going from object to object -/

theorem fields_congr (h : a.location = b.location) : w.fields a = w.fields b := by
  rw [fields, fields, h]

/-- Only an object of the store contains something. -/
theorem Contains.location_lt (h : w.Contains a b) : a.location < w.objects.size := by
  obtain ⟨name, h⟩ := h
  rw [fields] at h
  split at h
  · rename_i o ho
    exact (Array.getElem?_eq_some_iff.1 ho).1
  · cases h

/-- An object contains itself only if one of the objects in its fields does. -/
theorem acyclic_of_contained (h : ∀ b, w.Contains a b → w.Acyclic (.object b)) :
    w.Acyclic (.object a) := by
  rintro _ c ⟨⟩ hc hcycle
  rcases Relation.ReflTransGen.cases_head hc with rfl | ⟨b, hb, hc⟩
  · obtain ⟨b, hb, ha⟩ := Relation.TransGen.head'_iff.1 hcycle
    exact h b hb b a rfl ha hcycle
  · exact h b hb b c rfl hc hcycle

theorem acyclic_of_not_object (h : ∀ a, v ≠ .object a) : w.Acyclic v :=
  fun a _ ha => absurd ha (h a)

/-- An object that is reached through `above`, and leads to nothing that contains itself, cannot
    lead further than there are objects: no object is passed twice. -/
theorem shallow_of_reached (above : List ObjectRef)
    (hreached : ∀ c ∈ above, Relation.TransGen w.Contains c a)
    (hdistinct : (above.map ObjectRef.location).Nodup)
    (hstored : ∀ c ∈ above, c.location < w.objects.size)
    (hsize : w.objects.size < n + above.length)
    (hacyclic : ∀ b, Relation.ReflTransGen w.Contains a b → ¬Relation.TransGen w.Contains b b) :
    w.Shallow n a := by
  induction n generalizing a above with
  | zero =>
    have hsubset : above.map ObjectRef.location ⊆ List.range w.objects.size := by
      intro l hl
      obtain ⟨c, hc, rfl⟩ := List.mem_map.1 hl
      exact List.mem_range.2 (hstored c hc)
    have hle := (List.subperm_of_subset hdistinct hsubset).length_le
    simp only [List.length_map, List.length_range] at hle
    omega
  | succ n ih =>
    intro b hb
    refine ih (a :: above) ?_ ?_ ?_ ?_ fun c hc => hacyclic c (.head hb hc)
    · refine List.forall_mem_cons.2 ⟨.single hb, fun c hc => ?_⟩
      exact (hreached c hc).tail hb
    · refine List.nodup_cons.2 ⟨fun hmem => ?_, hdistinct⟩
      -- an object above at the place of `a` has the fields of `a`, so `a` would contain itself
      obtain ⟨c, hc, hlocation⟩ := List.mem_map.1 hmem
      obtain ⟨d, hcd, hda⟩ := Relation.TransGen.head'_iff.1 (hreached c hc)
      have had : w.Contains a d := by
        obtain ⟨name, hcd⟩ := hcd
        exact ⟨name, fields_congr hlocation ▸ hcd⟩
      exact hacyclic a .refl (Relation.TransGen.head' had hda)
    · exact List.forall_mem_cons.2 ⟨hb.location_lt, hstored⟩
    · rw [List.length_cons]
      omega

theorem shallow_of_acyclic (h : w.Acyclic (.object a)) : w.Shallow (w.objects.size + 1) a :=
  shallow_of_reached [] (by simp) .nil (by simp) (by simp) fun b hb => h a b rfl hb

/-! ## Fields that are shown -/

/-- A field is shown with what is stored in it, or else as `NIL`. -/
theorem mem_fields_of_mem_shown {e : String × Value} (h : e ∈ w.shown a) :
    e.2 = .nil ∨ e ∈ w.fields a := by
  unfold shown at h
  unfold fields
  split at h
  · rename_i o ho
    obtain ⟨name, -, rfl⟩ := List.mem_map.1 h
    cases hv : Table.get? name o.fields with
    | none => exact .inl rfl
    | some v => exact .inr (Table.mem_of_get? hv)
  · cases h

theorem Kept.shown_eq (h : w.Kept) (a : ObjectRef) : w.shown a = w.fields a := by
  unfold shown fields
  split
  · rename_i o ho
    obtain ⟨hkeys, hnodup⟩ := h o (Array.mem_of_getElem? ho)
    rw [← hkeys] at hnodup ⊢
    rw [List.map_map]
    refine (List.map_congr_left fun e he => ?_).trans (List.map_id' _)
    exact Prod.ext rfl (by simp [Table.get?_of_mem hnodup he])
  · rfl

/-! ## Texts -/

/-- **The text of an object shows its fields**, those that its type declares, and has an end
    if the texts of their values have one. -/
theorem text?_object (w : World) (a : ObjectRef) :
    w.text? (.object a) =
      ((w.shown a).mapM fun e => (w.text? e.2).map (e.1 ++ ": " ++ ·)).map fun texts =>
        objectText a.type.name texts (w.fields a).isEmpty := by
  simp only [text?, Option.map_eq_bind]
  rfl

theorem isSome_text?_object_iff :
    (w.text? (.object a)).isSome ↔ ∀ e ∈ w.shown a, (w.text? e.2).isSome := by
  rw [text?_object, Option.isSome_map, isSome_mapM_iff]
  simp only [Option.isSome_map]

theorem isSome_text?_of_not_object (h : ∀ a, v ≠ .object a) : (w.text? v).isSome := by
  cases v with
  | object a => exact absurd rfl (h a)
  | boolean b => cases b <;> simp [text?]
  | _ => simp [text?]

theorem isSome_text?_of_shallow (h : w.Shallow n a) : (w.text? (.object a)).isSome := by
  induction n generalizing a with
  | zero => exact h.elim
  | succ n ih =>
    refine isSome_text?_object_iff.2 fun e he => ?_
    rcases mem_fields_of_mem_shown he with hnil | hmem
    · exact isSome_text?_of_not_object (by simp [hnil])
    · obtain ⟨name, v⟩ := e
      cases v with
      | object b => exact ih (h b ⟨name, hmem⟩)
      | _ => exact isSome_text?_of_not_object (by simp)

/-- **Without cycles, texts end.** -/
theorem isSome_text? (h : w.Acyclic v) : (w.text? v).isSome := by
  cases v with
  | object a => exact isSome_text?_of_shallow (shallow_of_acyclic h)
  | _ => exact isSome_text?_of_not_object (by simp)

/-- **A text that ends leads to no object that contains itself.**  By induction on the
    computation of the text, which for an object comprises those for its fields. -/
theorem acyclic_of_text? (hw : w.Kept) {text : String} (h : w.text? v = some text) :
    w.Acyclic v := by
  refine text?.partial_correctness w (fun v _ => w.Acyclic v) (fun text? ih v text h => ?_) v text h
  cases v with
  | object a =>
    obtain ⟨texts, htexts, -⟩ := Option.bind_eq_some_iff.1 h
    have hsome := isSome_mapM_iff.1 (Option.isSome_of_eq_some htexts)
    refine acyclic_of_contained fun b ⟨name, hb⟩ => ?_
    rw [← hw.shown_eq] at hb
    obtain ⟨text, htext⟩ := Option.isSome_iff_exists.1 (hsome _ hb)
    obtain ⟨t, ht, -⟩ := Option.bind_eq_some_iff.1 htext
    exact ih _ t ht
  | _ => exact acyclic_of_not_object (by simp)

end

end World

end TinyScript
