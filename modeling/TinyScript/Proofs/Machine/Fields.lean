import Mathlib.Data.List.Induction
import Mathlib.Data.List.Nodup
import TinyScript.Proofs.Depiction
import TinyScript.Proofs.Machine.Likeness
import TinyScript.Proofs.Machine.Soundness

/-
  Fields of object types and of objects.

  The fields that a type declares and the fields that an object stores are kept in two tables.
  Into the first one declarations are put, into the second one values, and only under names
  that it has.  An object starts with the names of its type, so the two tables have the same
  names at all times, whatever programs and functions of the host do.

  * `Table.putAll`: a table into which entries are put one after the other;
  * `Table.latest?`: the entry that came last for a key;
  * `ObjectType.ofMembers`: an object type from its declarations;
  * `World.Deed`, `World.replay`: what can be done to the world, and what it leads to;
  * `World.writes`: what is written to an object on the way, without what fails;
  * `World.fields_replay`: the fields of an object are those before with these put in;
  * `World.Kept.replay`: objects keep the fields that their types declare;
  * `Registry.Orderly`, `exists_replay`: runs of programs do nothing but deeds;
  * `declared_fields_kept`: types, objects and runs together.
-/

namespace TinyScript

/-! ## Tables into which entries are put -/

namespace Table

variable {κ ν : Type} [DecidableEq κ]

/-- Puts entries in, one after the other. -/
def putAll (es t : List (κ × ν)) : List (κ × ν) := es.foldl (fun t e => put e.1 e.2 t) t

/-- The entry that comes last for a key. -/
def latest? (k : κ) (es : List (κ × ν)) : Option ν := es.reverse.lookup k

section
variable {k : κ} {v : ν} {es es' t : List (κ × ν)}

@[simp] theorem putAll_nil : putAll [] t = t := rfl

@[simp] theorem putAll_singleton : putAll [(k, v)] t = put k v t := rfl

theorem putAll_append : putAll (es ++ es') t = putAll es' (putAll es t) := List.foldl_append

theorem latest?_concat (j : κ) :
    latest? j (es ++ [(k, v)]) = if k = j then some v else latest? j es := by
  rw [latest?, List.reverse_concat, List.lookup_cons, latest?]
  by_cases h : j = k
  · simp [h]
  · rw [beq_false_of_ne h, if_neg (Ne.symm h)]

/-- The entry of a key is the last one that was put in, or else the one from before. -/
theorem get?_putAll (j : κ) : get? j (putAll es t) = (latest? j es).or (get? j t) := by
  induction es using List.reverseRecOn with
  | nil => rfl
  | append_singleton es e ih =>
    rw [putAll_append, putAll_singleton, get?_put, ih, latest?_concat]
    split <;> rfl

theorem keys_put (k : κ) (v : ν) (t : List (κ × ν)) :
    (put k v t).map Prod.fst =
      if k ∈ t.map Prod.fst then t.map Prod.fst else t.map Prod.fst ++ [k] := by
  induction t with
  | nil => simp [put]
  | cons e t ih =>
    obtain ⟨k', v'⟩ := e
    by_cases h : k' = k
    · simp [put, h]
    · simp only [put, if_neg h, List.map_cons, ih, List.mem_cons, or_iff_right (Ne.symm h)]
      split <;> rfl

/-- Entries for keys that are there leave the keys as they are. -/
theorem keys_putAll_of_mem (h : ∀ e ∈ es, e.1 ∈ t.map Prod.fst) :
    (putAll es t).map Prod.fst = t.map Prod.fst := by
  induction es using List.reverseRecOn with
  | nil => rfl
  | append_singleton es e ih =>
    have hkeys := ih fun e' he' => h e' (List.mem_append_left _ he')
    rw [putAll_append, putAll_singleton, keys_put, hkeys, if_pos (h e (by simp))]

/-- Without any keys before, the keys are those put in, in the order in which they first
    came. -/
theorem keys_putAll_nil : (putAll es []).map Prod.fst = (es.map Prod.fst).eraseDups := by
  induction es using List.reverseRecOn with
  | nil => rfl
  | append_singleton es e ih =>
    rw [putAll_append, putAll_singleton, keys_put, ih, List.map_append, List.eraseDups_append]
    simp only [List.mem_eraseDups]
    split <;> simp_all [List.removeAll, List.eraseDups_cons]

theorem nodup_keys_put (h : (t.map Prod.fst).Nodup) : ((put k v t).map Prod.fst).Nodup := by
  rw [keys_put]
  split
  · exact h
  · rename_i hk
    exact List.nodup_append.2 ⟨h, List.nodup_singleton k, by grind⟩

theorem nodup_keys_putAll (h : (t.map Prod.fst).Nodup) :
    ((putAll es t).map Prod.fst).Nodup := by
  induction es using List.reverseRecOn with
  | nil => exact h
  | append_singleton es e ih =>
    rw [putAll_append]
    exact nodup_keys_put ih

/-- A table is made up of its keys and their entries. -/
theorem eq_map_keys {f : κ → ν} (hkeys : (t.map Prod.fst).Nodup)
    (hf : ∀ k ∈ t.map Prod.fst, get? k t = some (f k)) :
    t = (t.map Prod.fst).map fun k => (k, f k) := by
  rw [List.map_map]
  refine (List.map_id' t).symm.trans (List.map_congr_left fun e he => ?_)
  have hget := hf e.1 (List.mem_map_of_mem he)
  rw [get?_of_mem hkeys he, Option.some.injEq] at hget
  exact Prod.ext rfl hget

theorem get?_map (f : κ → ν) (ks : List κ) (j : κ) :
    get? j (ks.map fun k => (k, f k)) = if j ∈ ks then some (f j) else none := by
  induction ks with
  | nil => rfl
  | cons k ks ih =>
    rw [List.map_cons, get?, ih]
    by_cases h : k = j
    · simp [h]
    · simp [h, Ne.symm h]

theorem replace?_eq_some {t' : List (κ × ν)} (h : replace? k v t = some t') :
    t' = put k v t := by
  induction t generalizing t' with
  | nil => cases h
  | cons e t ih =>
    obtain ⟨k', v'⟩ := e
    by_cases hk : k' = k
    · rw [replace?, if_pos hk, Option.some.injEq] at h
      rw [put, if_pos hk, h]
    · rw [replace?, if_neg hk, Option.map_eq_some_iff] at h
      obtain ⟨t₁, ht₁, rfl⟩ := h
      rw [put, if_neg hk, ih ht₁]

end

end Table

/-! ## Object types -/

/-- A declaration in an object type. -/
inductive Member where
  /-- A field. -/
  | field (name : String) (type : Ty)
  /-- A method. -/
  | method (function : NativeFunction)

/-- The name and type of a field. -/
def Member.field? : Member → Option (String × Ty)
  | field name type => some (name, type)
  | method _ => none

namespace ObjectType

/-- Adds a member. -/
def declare (t : ObjectType) : Member → ObjectType
  | .field name type => t.withField name type
  | .method f => t.withMethod f

/-- The object type with these members, declared one after the other. -/
def ofMembers (name : String) (ms : List Member) : ObjectType := ms.foldl declare { name }

variable (name : String) (ms : List Member)

theorem ofMembers_concat (m : Member) :
    ofMembers name (ms ++ [m]) = (ofMembers name ms).declare m :=
  List.foldl_concat ..

theorem name_ofMembers : (ofMembers name ms).name = name := by
  induction ms using List.reverseRecOn with
  | nil => rfl
  | append_singleton ms m ih =>
    rw [ofMembers_concat]
    cases m <;> exact ih

/-- The fields are the declared ones, put in one after the other. -/
theorem fields_ofMembers :
    (ofMembers name ms).fields = Table.putAll (ms.filterMap Member.field?) [] := by
  induction ms using List.reverseRecOn with
  | nil => rfl
  | append_singleton ms m ih =>
    rw [ofMembers_concat, List.filterMap_append, Table.putAll_append, ← ih]
    cases m <;> rfl

end ObjectType

/-! ## What can be done to the world -/

/-- The world that a computation of the host leaves, however it ends. -/
def Native.after {α : Type} (n : Native α) (w : World) : World :=
  match n w with
  | .ok _ w' => w'
  | .error _ w' => w'

namespace World

/-- Something that programs and functions of the host do to the world. -/
inductive Deed where
  /-- Creates an object. -/
  | create (type : TypeRef) (names : List String)
  /-- Writes to a field, or fails to. -/
  | set (ref : ObjectRef) (name : String) (value : Value)
  /-- Prints or counts. -/
  | note (output : String) (tally : Nat)

/-- The computation of a deed. -/
def Deed.run : Deed → Native Unit
  | create type names => modify fun w => (w.create type names).2
  | set ref name value => Native.setField ref name value
  | note output tally => modify fun w => { w with output, tally }

/-- The world after deeds, failed ones included. -/
def replay (w : World) (ds : List Deed) : World := ds.foldl (fun w d => d.run.after w) w

/-- What a deed writes to the object at a place, if it does not fail. -/
def written (w : World) (place : Nat) : Deed → List (String × Value)
  | .set ref name value =>
    match w.setField ref name value with
    | .ok _ => if ref.location = place then [(name, value)] else []
    | .error _ => []
  | _ => []

/-- What deeds write to the object at a place, without what fails. -/
def writes (w : World) (place : Nat) : List Deed → List (String × Value)
  | [] => []
  | d :: ds => w.written place d ++ (d.run.after w).writes place ds

variable {w w' : World} {ref : ObjectRef} {x : String} {v : Value}

theorem after_set_of_ok (h : w.setField ref x v = .ok w') :
    (Deed.set ref x v).run.after w = w' := by
  rw [Native.after, Deed.run, Native.setField_eq_ok (u := ()).2 h]

theorem after_set_of_error {e : RuntimeError} (h : w.setField ref x v = .error e) :
    (Deed.set ref x v).run.after w = w := by
  rw [Native.after, Deed.run, Native.setField_eq_error.2 ⟨e, h, rfl, rfl⟩]

/-- A field can be written to if the object has it. -/
theorem exists_setField_iff :
    (∃ w', w.setField ref x v = .ok w') ↔ x ∈ (w.fields ref).map Prod.fst := by
  rw [← Table.isSome_get?_iff, Option.isSome_iff_ne_none, ne_eq, ← Table.replace?_eq_none_iff x v,
    setField]
  cases Table.replace? x v (w.fields ref) <;> simp

/-- Writing to a field puts it into the object, and leaves all other objects alone. -/
theorem fields_of_setField {other : ObjectRef} (h : w.setField other x v = .ok w') :
    w'.fields ref =
      if other.location = ref.location then Table.put x v (w.fields ref) else w.fields ref := by
  unfold setField at h
  split at h <;> cases h
  rename_i t ht
  rw [fields, Array.getElem?_modify]
  by_cases hplace : other.location = ref.location
  · rw [if_pos hplace, if_pos hplace, ← fields_congr hplace, ← Table.replace?_eq_some ht, ← hplace]
    -- the object is in the store, since it has the field
    cases ho : w.objects[other.location]? with
    | none =>
      rw [fields, ho] at ht
      cases ht
    | some o => rfl
  · rw [if_neg hplace, if_neg hplace, fields]

/-- No object disappears. -/
theorem size_le_after (d : Deed) : w.objects.size ≤ (d.run.after w).objects.size := by
  cases d with
  | create type names => exact (Array.size_push ..).symm ▸ Nat.le_succ _
  | set other x v =>
    cases h : w.setField other x v with
    | error e => exact Nat.le_of_eq (by rw [after_set_of_error h])
    | ok w' =>
      rw [after_set_of_ok h]
      unfold setField at h
      split at h <;> cases h
      simp
  | note output tally => exact Nat.le_refl _

/-- **A deed puts what it writes into the fields of an object.** -/
theorem fields_after (d : Deed) (href : ref.location < w.objects.size) :
    (d.run.after w).fields ref = Table.putAll (w.written ref.location d) (w.fields ref) := by
  cases d with
  | create type names =>
    show World.fields { w with objects := w.objects.push _ } ref = w.fields ref
    rw [fields, fields, Array.getElem?_push_lt href, Array.getElem?_eq_getElem href]
  | set other x v =>
    cases h : w.setField other x v with
    | error e => rw [after_set_of_error h, written, h, Table.putAll_nil]
    | ok w' =>
      rw [after_set_of_ok h, fields_of_setField h, written, h]
      dsimp only
      split <;> rfl
  | note output tally => rfl

/-- What is written to an object is written to fields that it has. -/
theorem mem_keys_of_written {d : Deed} {e : String × Value} (h : e ∈ w.written ref.location d) :
    e.1 ∈ (w.fields ref).map Prod.fst := by
  unfold written at h
  split at h
  · split at h
    · rename_i w' hset
      split at h
      · rename_i hplace
        obtain rfl := List.mem_singleton.1 h
        rw [← fields_congr hplace]
        exact exists_setField_iff.1 ⟨w', hset⟩
      · cases h
    · cases h
  · cases h

/-- An object keeps the names of its fields. -/
theorem keys_fields_after (d : Deed) (href : ref.location < w.objects.size) :
    ((d.run.after w).fields ref).map Prod.fst = (w.fields ref).map Prod.fst := by
  rw [fields_after d href]
  exact Table.keys_putAll_of_mem fun _ he => mem_keys_of_written he

/-- **Deeds put all that they write into the fields of an object**, in their order, under names
    that it has. -/
theorem fields_replay (ds : List Deed) (href : ref.location < w.objects.size) :
    (w.replay ds).fields ref = Table.putAll (w.writes ref.location ds) (w.fields ref) ∧
      ∀ e ∈ w.writes ref.location ds, e.1 ∈ (w.fields ref).map Prod.fst := by
  induction ds generalizing w with
  | nil => exact ⟨rfl, List.forall_mem_nil _⟩
  | cons d ds ih =>
    obtain ⟨hfields, hkeys⟩ := ih (Nat.lt_of_lt_of_le href (size_le_after d))
    constructor
    · rw [writes, Table.putAll_append, ← fields_after d href, ← hfields]
      rfl
    · intro e he
      rcases List.mem_append.1 he with he | he
      · exact mem_keys_of_written he
      · exact keys_fields_after d href ▸ hkeys e he

/-! ## Objects stay as their types declare them -/

/-- An object that is created has no two fields of one name. -/
def Deed.Regular : Deed → Prop
  | .create _ names => names.Nodup
  | _ => True

/-- An object stays the object of its type. -/
theorem declared_after (d : Deed) {o : Object} (ho : w.objects[ref.location]? = some o) :
    ∃ o', (d.run.after w).objects[ref.location]? = some o' ∧ o'.declared = o.declared := by
  cases d with
  | create type names =>
    have hlt : ref.location < w.objects.size := (Array.getElem?_eq_some_iff.1 ho).1
    refine ⟨o, ?_, rfl⟩
    show (w.objects.push _)[ref.location]? = some o
    rw [Array.getElem?_push_lt hlt, ← Array.getElem?_eq_getElem hlt, ho]
  | set other x v =>
    cases h : w.setField other x v with
    | error e => exact ⟨o, by rw [after_set_of_error h, ho], rfl⟩
    | ok w' =>
      rw [after_set_of_ok h]
      unfold setField at h
      split at h <;> cases h
      simp only [Array.getElem?_modify, ho, Option.map_some]
      split <;> exact ⟨_, rfl, rfl⟩
  | note output tally => exact ⟨o, ho, rfl⟩

theorem declared_replay (ds : List Deed) {o : Object} (ho : w.objects[ref.location]? = some o) :
    ∃ o', (w.replay ds).objects[ref.location]? = some o' ∧ o'.declared = o.declared := by
  induction ds generalizing w o with
  | nil => exact ⟨o, ho, rfl⟩
  | cons d ds ih =>
    obtain ⟨o₁, ho₁, hdeclared₁⟩ := declared_after d ho
    obtain ⟨o₂, ho₂, hdeclared₂⟩ := ih ho₁
    exact ⟨o₂, ho₂, hdeclared₂.trans hdeclared₁⟩

theorem Kept.create (h : w.Kept) (type : TypeRef) {names : List String} (hnames : names.Nodup) :
    (w.create type names).2.Kept := by
  intro o ho
  rcases Array.mem_push.1 ho with ho | rfl
  · exact h o ho
  · exact ⟨by simp [Function.comp_def], hnames⟩

theorem Kept.setField (h : w.Kept) (hset : w.setField ref x v = .ok w') : w'.Kept := by
  intro o ho
  unfold World.setField at hset
  split at hset <;> cases hset
  rename_i t ht
  obtain ⟨i, hi⟩ := Array.getElem?_of_mem ho
  rw [Array.getElem?_modify] at hi
  split at hi
  · rename_i hplace
    obtain ⟨o, hold, rfl⟩ := Option.map_eq_some_iff.1 hi
    obtain ⟨hkeys, hnodup⟩ := h o (Array.mem_of_getElem? hold)
    rw [World.fields, hplace, hold] at ht
    exact ⟨(Table.keys_replace? ht).trans hkeys, hnodup⟩
  · exact h o (Array.mem_of_getElem? hi)

theorem Kept.after (h : w.Kept) {d : Deed} (hd : d.Regular) : (d.run.after w).Kept := by
  cases d with
  | create type names => exact h.create type hd
  | set other x v =>
    cases hset : w.setField other x v with
    | error e => rwa [after_set_of_error hset]
    | ok w' => rw [after_set_of_ok hset]; exact h.setField hset
  | note output tally => exact h

/-- **Objects keep the fields that their types declare**, whatever is done. -/
theorem Kept.replay (h : w.Kept) {ds : List Deed} (hds : ∀ d ∈ ds, d.Regular) :
    (w.replay ds).Kept := by
  induction ds generalizing w with
  | nil => exact h
  | cons d ds ih =>
    obtain ⟨hd, hds⟩ := List.forall_mem_cons.1 hds
    exact ih (h.after hd) hds

/-! ## New objects -/

variable {type : TypeRef} {names : List String}

theorem fields_create :
    (w.create type names).2.fields (w.create type names).1 = names.map (·, .nil) := by
  simp [create, fields]

/-- The value that a field of a new object has after deeds: the last one written to it, or
    `NIL`. -/
def current (w : World) (ref : ObjectRef) (ds : List Deed) (x : String) : Value :=
  (Table.latest? x (w.writes ref.location ds)).getD .nil

/-- The fields of a new object after deeds: exactly those that it was created with. -/
theorem fields_replay_create (hnames : names.Nodup) (ds : List Deed) :
    let ref := (w.create type names).1
    let new := (w.create type names).2
    (new.replay ds).fields ref = names.map fun x => (x, new.current ref ds x) := by
  intro ref new
  have href : ref.location < new.objects.size := by simp [ref, new, create]
  obtain ⟨hfields, hwrites⟩ := fields_replay ds href
  have hstart : new.fields ref = names.map (·, .nil) := fields_create
  have hkeys : (new.fields ref).map Prod.fst = names := by
    rw [hstart, List.map_map]
    exact List.map_id' names
  have hkeys' : ((new.replay ds).fields ref).map Prod.fst = names := by
    rw [hfields, Table.keys_putAll_of_mem hwrites, hkeys]
  have hget : ∀ x ∈ names, Table.get? x (new.fields ref) = some .nil := by
    intro x hx
    rw [hstart, Table.get?_map fun _ => Value.nil, if_pos hx]
  have hcurrent : ∀ x ∈ ((new.replay ds).fields ref).map Prod.fst,
      Table.get? x ((new.replay ds).fields ref) = some (new.current ref ds x) := by
    intro x hx
    rw [hfields, Table.get?_putAll, hget x (hkeys' ▸ hx), current]
    cases Table.latest? x (new.writes ref.location ds) <;> rfl
  have hmap := Table.eq_map_keys (hkeys'.symm ▸ hnames) hcurrent
  rwa [hkeys'] at hmap

/-- A new object shows exactly these fields after deeds. -/
theorem shown_replay_create (hnames : names.Nodup) (ds : List Deed) :
    let ref := (w.create type names).1
    let new := (w.create type names).2
    (new.replay ds).shown ref = names.map fun x => (x, new.current ref ds x) := by
  intro ref new
  have hfields : (new.replay ds).fields ref = names.map fun x => (x, new.current ref ds x) :=
    fields_replay_create hnames ds
  have hnew : new.objects[ref.location]? = some ⟨type, names, names.map (·, .nil)⟩ := by
    simp [new, ref, create]
  obtain ⟨o, ho, hdeclared⟩ := declared_replay ds hnew
  rw [fields, ho] at hfields
  rw [shown, ho]
  simp only [hdeclared, hfields, Table.get?_map]
  exact List.map_congr_left fun x hx => by rw [if_pos hx, Option.getD_some]

theorem objectText_map (name : String) (names : List String) (f : String → String) :
    objectText name (names.map f) names.isEmpty =
      if names = [] then name ++ " \x7b\x7d"
      else name ++ " \x7b " ++ ", ".intercalate (names.map f) ++ " \x7d" := by
  cases names with
  | nil => exact String.ext (by simp [objectText])
  | cons x names => exact String.ext (by simp [objectText])

/-- The text of a new object after deeds shows each of its fields once, with its value. -/
theorem text?_replay_create (hnames : names.Nodup) (ds : List Deed) (text : String) :
    let ref := (w.create type names).1
    let new := (w.create type names).2
    let w' := new.replay ds
    w'.text? (.object ref) = some text ↔
      ∃ texts : String → String,
        (∀ x ∈ names, w'.text? (new.current ref ds x) = some (texts x)) ∧
        text = objectText type.name (names.map fun x => x ++ ": " ++ texts x) names.isEmpty := by
  intro ref new w'
  have hshown : w'.shown ref = names.map fun x => (x, new.current ref ds x) :=
    shown_replay_create hnames ds
  have hempty : (w'.fields ref).isEmpty = names.isEmpty := by
    have hfields : w'.fields ref = names.map fun x => (x, new.current ref ds x) :=
      fields_replay_create hnames ds
    rw [hfields, List.isEmpty_map]
  have htext : ∀ texts : String → String,
      (∀ x ∈ names, w'.text? (new.current ref ds x) = some (texts x)) →
      w'.text? (.object ref) =
        some (objectText type.name (names.map fun x => x ++ ": " ++ texts x) names.isEmpty) := by
    intro texts htexts
    rw [text?_object, hshown, hempty, List.mapM_map]
    rw [mapM_eq_some_of_forall (g := fun x => x ++ ": " ++ texts x) fun x hx => by
      simp [htexts x hx]]
    rfl
  refine ⟨fun h => ?_, fun ⟨texts, htexts, heq⟩ => heq ▸ htext texts htexts⟩
  have hsome : ∀ x ∈ names, (w'.text? (new.current ref ds x)).isSome := by
    intro x hx
    have hmem : (x, new.current ref ds x) ∈ w'.shown ref := hshown ▸ List.mem_map_of_mem hx
    exact isSome_text?_object_iff.1 (Option.isSome_of_eq_some h) _ hmem
  have htexts : ∀ x ∈ names, w'.text? (new.current ref ds x) =
      some ((w'.text? (new.current ref ds x)).getD "") := fun x hx => by
    obtain ⟨t, ht⟩ := Option.isSome_iff_exists.1 (hsome x hx)
    rw [ht, Option.getD_some]
  exact ⟨_, htexts, Option.some.inj (h.symm.trans (htext _ htexts))⟩

/-- Reading a field of a new object after deeds. -/
theorem field_replay_create (hnames : names.Nodup) (ds : List Deed) (x : String) :
    let ref := (w.create type names).1
    let new := (w.create type names).2
    (new.replay ds).field ref x =
      if x ∈ names then .ok (new.current ref ds x) else .error (.unknownField type.name x) := by
  intro ref new
  have hfields : (new.replay ds).fields ref = names.map fun x => (x, new.current ref ds x) :=
    fields_replay_create hnames ds
  rw [field, hfields, Table.get?_map]
  by_cases hx : x ∈ names
  · rw [if_pos hx, if_pos hx]
  · rw [if_neg hx, if_neg hx]
    rfl

end World

/-! ## What runs do to the world -/

open World

/-- All that a computation of the host does to the world are deeds. -/
def Native.Orderly {α : Type} (n : Native α) : Prop :=
  ∀ w : World, ∃ ds, n.after w = w.replay ds

/-- All that the functions and methods of the host do to the world are deeds. -/
structure Registry.Orderly (r : Registry) : Prop where
  functions : ∀ f ∈ r.functions.map Prod.snd, ∀ vs, (f.body vs).Orderly
  methods : ∀ type x k f, (r.describe type).method? x k = some f → ∀ vs, (f.body vs).Orderly

/-- A run beside itself, in worlds that deeds lead to. -/
def Likeness.deeds (start : World) : Likeness where
  shift := 0
  values _ := True
  worlds w w' := w = w' ∧ ∃ ds, w = start.replay ds
  functions f f' := f = f' ∧ ∀ vs, (f.body vs).Orderly
  methods := Eq

theorem World.replay_append (w : World) (ds ds' : List Deed) :
    w.replay (ds ++ ds') = (w.replay ds).replay ds' := List.foldl_append

section
variable {r : Registry} {start : World}

theorem hosts_of_orderly {α : Type} {R : α → α → Prop} {n : Native α} (h : n.Orderly)
    (hR : ∀ a, R a a) : (Likeness.deeds start).Hosts R n n := by
  rintro w _ ⟨rfl, ds, rfl⟩
  obtain ⟨ds', hds'⟩ := h (start.replay ds)
  rw [Native.after, ← replay_append] at hds'
  cases hn : n (start.replay ds) with
  | ok a w' =>
    rw [hn] at hds'
    exact .ok (hR a) ⟨rfl, _, hds'⟩
  | error e w' =>
    rw [hn] at hds'
    exact .error rfl ⟨rfl, _, hds'⟩

namespace Native.Orderly

variable {α β : Type} {n : Native α}

theorem of_unchanged (h : ∀ w, (n.after w).objects = w.objects) : n.Orderly := by
  intro w
  refine ⟨[.note (n.after w).output (n.after w).tally], ?_⟩
  show n.after w = { w with output := (n.after w).output, tally := (n.after w).tally }
  rw [← h w]

theorem throw (e : Stop) : (throw e : Native α).Orderly := fun _ => ⟨[], rfl⟩

theorem pure (a : α) : (pure a : Native α).Orderly := fun _ => ⟨[], rfl⟩

theorem bind {g : α → Native β} (h : n.Orderly) (hg : ∀ a, (g a).Orderly) :
    (n >>= g).Orderly := by
  intro w
  obtain ⟨ds, hds⟩ := h w
  rw [Native.after] at hds
  cases hn : n w with
  | ok a w₁ =>
    rw [hn] at hds
    obtain ⟨ds', hds'⟩ := hg a w₁
    refine ⟨ds ++ ds', ?_⟩
    rw [replay_append, ← hds, ← hds', Native.after, bind_of_ok hn, Native.after]
  | error e w₁ =>
    rw [hn] at hds
    exact ⟨ds, by rw [← hds, Native.after, bind_of_error hn]⟩

theorem setField (ref : ObjectRef) (x : String) (v : Value) : (Native.setField ref x v).Orderly :=
  fun _ => ⟨[.set ref x v], rfl⟩

end Native.Orderly

/-- Calling a method does deeds only. -/
theorem Registry.Orderly.callMethod (hr : r.Orderly) (ref : ObjectRef) (x : String)
    (vs : List Value) : (r.callMethod ref x vs).Orderly := by
  unfold Registry.callMethod
  split
  · rename_i f hf
    exact hr.methods _ _ _ f hf _
  · exact .throw _

theorem faithful_deeds (hr : r.Orderly) : (Likeness.deeds start).Faithful r where
  literal _ := trivial
  integer _ := trivial
  boolean _ := trivial
  operator := by
    rintro w _ a b ⟨rfl, -⟩ - - o
    exact ⟨rfl, fun _ _ => trivial⟩
  field := by
    rintro w _ ref ⟨rfl, -⟩ - x
    exact ⟨rfl, fun _ _ => trivial⟩
  setField _ _ x := hosts_of_orderly (.setField _ x _) fun _ => trivial
  method _ _ x := hosts_of_orderly (hr.callMethod _ x _) fun _ => ⟨rfl, trivial⟩
  function := by
    rintro f _ ⟨rfl, hf⟩
    exact ⟨rfl, fun _ => hosts_of_orderly (hf _) fun _ => ⟨rfl, trivial⟩⟩
  declared := by
    rintro d _ rfl
    exact ⟨rfl, rfl, fun _ _ => rfl⟩

/-- **Runs of programs do nothing but deeds**, if the functions of the host do. -/
theorem exists_replay (hr : r.Orderly) (w : World) (fuel : Nat) (s : Source) :
    ∃ ds, (Program.value r w fuel s).2 = w.replay ds := by
  have hfunctions : ∀ e ∈ r.functions, (Likeness.deeds w).functions e.2 e.2 :=
    fun e he => ⟨rfl, hr.functions e.2 (List.mem_map_of_mem he)⟩
  have hmachines : (Likeness.deeds w).Machines (.ofRegistry r w) (.ofRegistry r w) := {
    scope := Likeness.scopes_ofRegistry hfunctions w w
    depth := rfl
    cells := ⟨rfl, fun _ => rfl, fun _ _ _ => trivial⟩
    world := ⟨rfl, [], rfl⟩ }
  have hmethods : List.Forall₂ Eq s.methods s.methods := List.forall₂_refl _
  have hrun : Related Eq _ _ (Eval.source r fuel s (.ofRegistry r w))
      (Eval.source r fuel s (.ofRegistry r w)) :=
    ((faithful_deeds hr).simulates fuel).source rfl
      (Likeness.agree_defineMethods (faithful_deeds hr) hmethods) hmachines
  rw [Program.value, Program.onFreshMachine, EStateM.run]
  generalize Eval.source r fuel s (.ofRegistry r w) = o at hrun
  cases hrun with
  | ok _ hm => exact hm.world.2
  | error _ hm => exact hm.world.2

end

/-! ## Types, objects and runs -/

/-- **Objects keep the fields that their type declares.**  The names of the fields of a type are
    distinct and stand in the order in which they were first declared, each with the type that
    was declared last.  An object of the type has exactly these fields after whatever is done to
    the world; each holds the last value that was written to it, or `NIL`, and no other one can
    be read or written.  What fails changes nothing, and the text shows each field once, in
    order.  Runs of programs do nothing else to the world, if the functions of the host do
    not. -/
theorem declared_fields_kept (name : String) (ms : List Member) :
    let declared := ms.filterMap Member.field?
    let t := ObjectType.ofMembers name ms
    t.fieldNames.Nodup ∧ t.fieldNames = (declared.map Prod.fst).eraseDups ∧
    (∀ x, t.fieldType? x = Table.latest? x declared) ∧
    (∀ (w : World) (i : Nat) (ds : List Deed),
      let ref := (w.create ⟨t.name, i⟩ t.fieldNames).1
      let new := (w.create ⟨t.name, i⟩ t.fieldNames).2
      let w' := new.replay ds
      let value := new.current ref ds
      (w'.fields ref).map Prod.fst = t.fieldNames ∧
      (∀ x, w'.field ref x =
        if x ∈ t.fieldNames then .ok (value x) else .error (.unknownField name x)) ∧
      (∀ x v, (∃ w'', Native.setField ref x v w' = .ok () w'') ↔ x ∈ t.fieldNames) ∧
      (∀ x v e w'', Native.setField ref x v w' = .error e w'' →
        e = .error (.unknownField name x) ∧ w'' = w') ∧
      (∀ text, w'.text? (.object ref) = some text ↔ ∃ texts : String → String,
        (∀ x ∈ t.fieldNames, w'.text? (value x) = some (texts x)) ∧
        text = if t.fieldNames = [] then name ++ " \x7b\x7d"
          else name ++ " \x7b " ++
            ", ".intercalate (t.fieldNames.map fun x => x ++ ": " ++ texts x) ++ " \x7d") ∧
      (w'.Acyclic (.object ref) → (w'.text? (.object ref)).isSome) ∧
      (w.Kept → (∀ d ∈ ds, d.Regular) → (w'.text? (.object ref)).isSome →
        w'.Acyclic (.object ref))) ∧
    ∀ r : Registry, r.Orderly → ∀ w fuel s, ∃ ds, (Program.value r w fuel s).2 = w.replay ds := by
  intro declared t
  have htable : t.fields = Table.putAll declared [] := ObjectType.fields_ofMembers name ms
  have hname : t.name = name := ObjectType.name_ofMembers name ms
  have hnodup : t.fieldNames.Nodup := by
    rw [ObjectType.fieldNames, htable]
    exact Table.nodup_keys_putAll List.nodup_nil
  refine ⟨hnodup, ?_, fun x => ?_, fun w i ds => ?_, fun r hr w fuel s => exists_replay hr w fuel s⟩
  · rw [ObjectType.fieldNames, htable, Table.keys_putAll_nil]
  · rw [ObjectType.fieldType?, htable, Table.get?_putAll, Table.get?_nil, Option.or_none]
  intro ref new w' value
  have hfields : w'.fields ref = t.fieldNames.map fun x => (x, value x) :=
    fields_replay_create hnodup ds
  have hkeys : (w'.fields ref).map Prod.fst = t.fieldNames := by
    rw [hfields, List.map_map]
    exact List.map_id' _
  refine ⟨hkeys, fun x => ?_, fun x v => ?_, fun x v e w'' h => ?_, fun text => ?_,
    isSome_text?, fun hw hds h => ?_⟩
  · exact hname ▸ field_replay_create hnodup ds x
  · simp only [Native.setField_eq_ok, exists_setField_iff, hkeys]
  · obtain ⟨c, hc, rfl, rfl⟩ := Native.setField_eq_error.1 h
    obtain rfl := Eval.setField_error hc
    exact ⟨hname ▸ rfl, rfl⟩
  · simp only [← objectText_map]
    exact hname ▸ text?_replay_create hnodup ds text
  · obtain ⟨text, htext⟩ := Option.isSome_iff_exists.1 h
    exact acyclic_of_text? ((hw.create _ hnodup).replay hds) htext

/-! ## A point with a box in it -/

namespace Native.Orderly

theorem ofExcept {α : Type} (x : Except RuntimeError α) : (Native.ofExcept x).Orderly := by
  cases x with
  | ok a => exact pure a
  | error e => exact throw _

theorem print (vs : List Value) : (Native.print vs).Orderly := by
  refine of_unchanged fun w => ?_
  unfold Native.print
  split
  · rename_i v
    rw [Native.after, get_bind]
    cases w.text? v <;> rfl
  · rfl

theorem logarithm (vs : List Value) : (Native.logarithm vs).Orderly := by
  unfold Native.logarithm
  split
  · split
    · exact pure _
    · exact throw _
  · exact throw _
  · exact throw _

theorem range (vs : List Value) : (Native.range vs).Orderly := by
  unfold Native.range
  split
  · exact bind (ofExcept _) fun _ => bind (ofExcept _) fun _ => pure _
  · exact throw _

theorem standard {f : NativeFunction} (hf : f ∈ Registry.standardFunctions) (vs : List Value) :
    (f.body vs).Orderly := by
  simp only [Registry.standardFunctions, List.mem_cons, List.not_mem_nil, or_false] at hf
  rcases hf with rfl | rfl | rfl
  · exact print vs
  · exact logarithm vs
  · exact range vs

theorem setFields (ref : ObjectRef) : (names : List String) → (vs : List Value) →
    (Native.setFields ref names vs).Orderly
  | [], _ => pure _
  | _ :: _, [] => pure _
  | x :: names, v :: vs => bind (setField ref x v) fun _ => setFields ref names vs

theorem construct (type : TypeRef) (fieldNames names : List String) (vs : List Value) :
    (Native.construct type fieldNames names vs).Orderly := by
  have hcreate : Native.Orderly (modifyGet fun w => w.create type fieldNames) :=
    fun _ => ⟨[.create type fieldNames], rfl⟩
  exact bind hcreate fun ref => bind (setFields ref names vs) fun _ => pure _

theorem readField (x : String) (vs : List Value) : (Native.readField x vs).Orderly := by
  have hargument : (Native.argument 0 vs).Orderly := by
    unfold Native.argument
    split
    · exact pure _
    · exact throw _
  exact bind hargument fun v => bind (ofExcept _) fun ref w => ofExcept (w.field ref x) w

end Native.Orderly

theorem orderly_boxHost : boxHost.Orderly := by
  refine ⟨fun f hf vs => ?_, fun type x k f hf vs => ?_⟩
  · rcases List.mem_append.1 (show f ∈ Registry.standardFunctions ++ [_] from hf) with hf | hf
    · exact .standard hf vs
    · obtain rfl := List.mem_singleton.1 hf
      exact .construct _ _ _ vs
  · obtain ⟨name, i⟩ := type
    cases i with
    | zero =>
      obtain rfl := method?_box (show (boxHost.describe boxRef).method? x k = some f from hf)
      exact .readField "content" vs
    | succ i =>
      have hnone : (boxHost.describe ⟨name, i + 1⟩).method? x k = none := rfl
      rw [hnone] at hf
      cases hf

/-- A type of points, whose first field is declared twice. -/
def pointMembers : List Member :=
  [.field "x" .integer, .method ⟨⟨"norm", [], .integer⟩, Native.const (.integer 0)⟩,
    .field "y" .any, .field "x" .string]

/-- The first object of a world. -/
def pointRef : ObjectRef := ⟨⟨"Point", 0⟩, 0⟩

/-- Writes to a point, one of which fails, with a box made on the way. -/
def pointDeeds : List Deed :=
  [.set pointRef "x" (.integer 4), .set pointRef "z" (.integer 5), .create boxRef ["content"],
    .set pointRef "y" (.object ⟨boxRef, 1⟩), .set pointRef "x" (.string "a")]

/-- The world with a point in it, after these writes. -/
def pointWorld : World :=
  ((({} : World).create ⟨"Point", 0⟩ ["x", "y"]).2).replay pointDeeds

/-- Of its two objects only the point contains one, which is the box. -/
theorem locations_of_pointWorld {a b : ObjectRef} (h : pointWorld.Contains a b) :
    a.location = 0 ∧ b.location = 1 := by
  have hobjects : pointWorld.objects = #[⟨⟨"Point", 0⟩, ["x", "y"], [("x", .string "a"),
      ("y", .object ⟨boxRef, 1⟩)]⟩, ⟨boxRef, ["content"], [("content", .nil)]⟩] := rfl
  have hlt : a.location < 2 := h.location_lt
  obtain ⟨name, h⟩ := h
  rw [World.fields, hobjects] at h
  rcases Nat.le_one_iff_eq_zero_or_eq_one.1 (Nat.le_of_lt_succ hlt) with ha | ha
  · simp only [ha, List.getElem?_toArray, List.getElem?_cons_zero, List.mem_cons, Prod.mk.injEq,
      Value.object.injEq, reduceCtorEq, and_false, List.not_mem_nil, or_false, false_or] at h
    exact ⟨ha, h.2 ▸ rfl⟩
  · simp [ha] at h

theorem text?_box : pointWorld.text? (.object ⟨boxRef, 1⟩) =
    some "Box \x7b content: NIL \x7d" := by
  have hshown : pointWorld.shown ⟨boxRef, 1⟩ = [("content", .nil)] := rfl
  have hfields : pointWorld.fields ⟨boxRef, 1⟩ = [("content", .nil)] := rfl
  rw [text?_object, hshown, hfields]
  simp only [List.mapM_cons, List.mapM_nil, text?]
  rfl

/-- The point has two fields, with what was last written to them. -/
theorem declared_fields_kept_point :
    let t := ObjectType.ofMembers "Point" pointMembers
    t.fieldNames = ["x", "y"] ∧ t.fieldType? "x" = some .string ∧
    pointWorld.field pointRef "x" = .ok (.string "a") ∧
    pointWorld.field pointRef "z" = .error (.unknownField "Point" "z") ∧
    pointWorld.Acyclic (.object pointRef) ∧ (pointWorld.text? (.object pointRef)).isSome ∧
    pointWorld.text? (.object pointRef) =
      some "Point \x7b x: a, y: Box \x7b content: NIL \x7d \x7d" ∧
    boxHost.Orderly ∧ ∀ fuel s, ∃ ds, (Program.value boxHost pointWorld fuel s).2 =
      pointWorld.replay ds := by
  intro t
  obtain ⟨-, hnames, htypes, hobjects, hruns⟩ := declared_fields_kept "Point" pointMembers
  obtain ⟨-, hfield, -, -, htext, hends, hcycles⟩ := hobjects {} 0 pointDeeds
  have hacyclic : pointWorld.Acyclic (.object pointRef) := by
    intro a b _ _ hcycle
    obtain ⟨c, hc, -⟩ := Relation.TransGen.head'_iff.1 hcycle
    obtain ⟨d, -, hd⟩ := Relation.TransGen.tail'_iff.1 hcycle
    have hfirst := (locations_of_pointWorld hc).1
    have hsecond := (locations_of_pointWorld hd).2
    omega
  have hnames' : t.fieldNames = ["x", "y"] := hnames.trans (by decide +kernel)
  refine ⟨hnames', (htypes "x").trans ?_, (hfield "x").trans ?_, (hfield "z").trans ?_,
    hacyclic, hends hacyclic, (htext _).2 ⟨fun x => if x = "x" then "a" else
      "Box \x7b content: NIL \x7d", ?_, ?_⟩, orderly_boxHost,
    hruns boxHost orderly_boxHost pointWorld⟩
  · decide +kernel
  · rfl
  · rfl
  · intro x hx
    rw [hnames'] at hx
    rcases List.mem_cons.1 hx with rfl | hx
    · show pointWorld.text? (.string "a") = some "a"
      rw [text?]
    · obtain rfl := List.mem_singleton.1 hx
      exact text?_box
  · rw [hnames']
    decide +kernel

/-- A box that is put into itself. -/
def loopedBox : World :=
  (({} : World).create boxRef ["content"]).2.replay
    [.set ⟨boxRef, 0⟩ "content" (.object ⟨boxRef, 0⟩)]

/-- Its field can be read, but it has no text that would show it. -/
theorem loopedBox_shows_no_fields :
    loopedBox.field ⟨boxRef, 0⟩ "content" = .ok (.object ⟨boxRef, 0⟩) ∧
      loopedBox.text? (.object ⟨boxRef, 0⟩) = none := by
  have hkept : loopedBox.Kept :=
    (Kept.create (w := {}) (fun o ho => by simp at ho) boxRef (List.nodup_singleton _)).replay
      (by simp [Deed.Regular])
  have hself : loopedBox.Contains ⟨boxRef, 0⟩ ⟨boxRef, 0⟩ := ⟨"content", List.mem_singleton_self _⟩
  refine ⟨rfl, Option.eq_none_iff_forall_ne_some.2 fun text htext => ?_⟩
  exact acyclic_of_text? hkept htext _ _ rfl .refl (.single hself)

end TinyScript
