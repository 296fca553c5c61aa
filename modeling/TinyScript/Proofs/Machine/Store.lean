import TinyScript.Proofs.Typing.Universe
import TinyScript.Value.Arithmetic

/-
  Values and stores of the right types, up to `NIL`.

  * `Value.Inhabits`: the values of a type;
  * `World.HasType`: a value of a type or `NIL`, whose object is in the store;
  * `World.Typed`: every object of the store has the fields of its type, and they
    hold `NIL` or values of their declared types;
  * `World.Later`: no object disappears or changes its type.

  Operators on values of the right types give values of the right types, and fail
  only on `NIL` or on a division by zero.
-/

namespace TinyScript

/-! ## Values -/

/-- The kind of a value, as a type. -/
def Value.type : Value → Ty
  | nil => .nil
  | boolean _ => .boolean
  | integer _ => .integer
  | decimal _ => .decimal
  | character _ => .character
  | string _ => .string
  | range _ => .integerIterable
  | object ref => .object ref.type

/-- The value is one of the type. -/
def Value.Inhabits (v : Value) : Ty → Prop
  | .any => True
  | .comparable => v.type.isComparable = true
  | .object type => ∃ ref, v = .object ref ∧ ref.type.name = type.name
  | t => v.type = t

theorem Value.inhabits_iff {v : Value} {t : Ty} : v.Inhabits t ↔ t.accepts v.type = true := by
  cases t with
  | any => simp [Inhabits, Ty.accepts]
  | comparable => exact Iff.rfl
  | object type =>
    cases v with
    | object ref => simpa [Inhabits, Value.type, Ty.accepts, Ty.same] using eq_comm
    | _ => simp [Inhabits, Value.type, Ty.accepts, Ty.same]
  | _ => cases v <;> simp [Inhabits, Value.type, Ty.accepts, Ty.same]

theorem Ty.accepts_trans {s t u : Ty} (h : t.accepts s = true) (h' : s.accepts u = true) :
    t.accepts u = true := by
  cases t with
  | any => rfl
  | comparable =>
    cases s <;> simp_all [Ty.accepts, Ty.isComparable, Ty.same] <;> subst h' <;> rfl
  | object type =>
    cases s with
    | object type' =>
      cases u <;> simp_all [Ty.accepts, Ty.same]
    | _ => simp [Ty.accepts, Ty.same] at h
  | _ => cases s <;> simp_all [Ty.accepts, Ty.same]

/-- What accepts a type accepts its values. -/
theorem Value.Inhabits.accepts {v : Value} {s t : Ty} (h : v.Inhabits s)
    (ht : t.accepts s = true) : v.Inhabits t :=
  inhabits_iff.2 (Ty.accepts_trans ht (inhabits_iff.1 h))

theorem Value.inhabits_ofLiteral (l : Literal) : (Value.ofLiteral l).Inhabits l.type := by
  cases l <;> rfl

section
variable {v : Value}

theorem Value.inhabits_boolean : v.Inhabits .boolean ↔ ∃ b, v = .boolean b := by
  cases v <;> simp [Inhabits, Value.type]

theorem Value.inhabits_integer : v.Inhabits .integer ↔ ∃ n, v = .integer n := by
  cases v <;> simp [Inhabits, Value.type]

theorem Value.inhabits_decimal : v.Inhabits .decimal ↔ ∃ d, v = .decimal d := by
  cases v <;> simp [Inhabits, Value.type]

theorem Value.inhabits_character : v.Inhabits .character ↔ ∃ c, v = .character c := by
  cases v <;> simp [Inhabits, Value.type]

theorem Value.inhabits_string : v.Inhabits .string ↔ ∃ s, v = .string s := by
  cases v <;> simp [Inhabits, Value.type]

theorem Value.inhabits_integerIterable : v.Inhabits .integerIterable ↔ ∃ g, v = .range g := by
  cases v <;> simp [Inhabits, Value.type]

end

/-! ## Operators -/

section
variable {w : World} {o : BinaryOperator} {x y z : Value} {s t u : Ty}

theorem comparison_inhabits (h : w.comparison o x y = .ok z) : z.Inhabits .boolean := by
  unfold World.comparison at h
  split at h
  · obtain ⟨b, -, rfl⟩ := Stop.map_answer_eq_ok.1 h
    rfl
  · obtain ⟨b, -, rfl⟩ := Stop.map_answer_eq_ok.1 h
    rfl
  · split at h <;> cases h
    rfl

theorem onIntegers_inhabits {i j : Int} (h : o.onIntegers i j = .ok z) : z.Inhabits .integer := by
  unfold BinaryOperator.onIntegers at h
  split at h
  · cases h; rfl
  · cases h; rfl
  · cases h; rfl
  · split at h <;> cases h
    rfl
  · cases h

theorem onDecimals_inhabits {i j : Decimal} (h : o.onDecimals i j = .ok z) :
    z.Inhabits .decimal := by
  unfold BinaryOperator.onDecimals at h
  split at h
  · cases h; rfl
  · cases h; rfl
  · cases h; rfl
  · split at h <;> cases h
    rfl
  · cases h

/-- The result of an arithmetic operator: a string if an operand of `+` is one, else of
    the kind of both operands. -/
theorem arithmetic_inhabits (h : w.arithmetic o x y = .ok z) :
    (o = .add ∧ (x.Inhabits .string ∨ y.Inhabits .string) ∧ z.Inhabits .string) ∨
      (x.Inhabits .integer ∧ y.Inhabits .integer ∧ z.Inhabits .integer) ∨
      (x.Inhabits .decimal ∧ y.Inhabits .decimal ∧ z.Inhabits .decimal) := by
  unfold World.arithmetic at h
  split at h
  · obtain ⟨t, -, rfl⟩ := Stop.map_answer_eq_ok.1 h
    exact Or.inl ⟨rfl, Or.inl rfl, rfl⟩
  · obtain ⟨t, -, rfl⟩ := Stop.map_answer_eq_ok.1 h
    exact Or.inl ⟨rfl, Or.inr rfl, rfl⟩
  · exact Or.inr (Or.inl ⟨rfl, rfl, onIntegers_inhabits (Stop.mapError_eq_ok.1 h)⟩)
  · exact Or.inr (Or.inr ⟨rfl, rfl, onDecimals_inhabits (Stop.mapError_eq_ok.1 h)⟩)
  · cases h

/-- A value of one concrete type, or `NIL`, is of no other one. -/
theorem Value.eq_of_type_eq (hx : x = .nil ∨ x.type = s) (h : x.type = t) (ht : t ≠ .nil) :
    s = t := by
  rcases hx with rfl | hx
  · exact absurd h.symm ht
  · exact hx.symm.trans h

/-- An operator on values of the right types, or `NIL`, gives a value of the right
    type. -/
theorem binary_inhabits (hr : BinaryRule o s t u) (ho : ¬(o = .and ∨ o = .or))
    (hx : x = .nil ∨ x.Inhabits s) (hy : y = .nil ∨ y.Inhabits t) (h : w.binary o x y = .ok z) :
    z.Inhabits u := by
  rw [World.binary] at h
  cases hr with
  | logical hl => exact absurd hl ho
  | comparison hc _ =>
    rw [if_pos hc] at h
    exact comparison_inhabits h
  | concatenation hs =>
    rw [if_neg (by decide)] at h
    rcases arithmetic_inhabits h with ⟨-, -, hz⟩ | ⟨hxi, hyi, -⟩ | ⟨hxd, hyd, -⟩
    · exact hz
    · rcases hs with rfl | rfl
      · cases Value.eq_of_type_eq hx hxi (by simp)
      · cases Value.eq_of_type_eq hy hyi (by simp)
    · rcases hs with rfl | rfl
      · cases Value.eq_of_type_eq hx hxd (by simp)
      · cases Value.eq_of_type_eq hy hyd (by simp)
  | arithmetic hm ht =>
    have hc : o.isComparison = false := by
      simp only [List.mem_cons, List.not_mem_nil, or_false] at hm
      rcases hm with rfl | rfl | rfl | rfl <;> rfl
    rw [hc, if_neg (by simp)] at h
    rcases arithmetic_inhabits h with ⟨-, hs, -⟩ | ⟨hxi, -, hz⟩ | ⟨hxd, -, hz⟩
    · rcases ht with rfl | rfl <;> rcases hs with hs | hs
      · cases Value.eq_of_type_eq hx hs (by simp)
      · cases Value.eq_of_type_eq hy hs (by simp)
      · cases Value.eq_of_type_eq hx hs (by simp)
      · cases Value.eq_of_type_eq hy hs (by simp)
    · rcases ht with rfl | rfl
      · exact hz
      · cases Value.eq_of_type_eq hx hxi (by simp)
    · rcases ht with rfl | rfl
      · cases Value.eq_of_type_eq hx hxd (by simp)
      · exact hz

theorem compare?_isSome (ht : t.isComparable = true) (hx : x.Inhabits t) (hy : y.Inhabits t) :
    (x.compare? y).isSome = true := by
  cases t with
  | integer =>
    obtain ⟨i, rfl⟩ := Value.inhabits_integer.1 hx
    obtain ⟨j, rfl⟩ := Value.inhabits_integer.1 hy
    rfl
  | decimal =>
    obtain ⟨i, rfl⟩ := Value.inhabits_decimal.1 hx
    obtain ⟨j, rfl⟩ := Value.inhabits_decimal.1 hy
    rfl
  | character =>
    obtain ⟨i, rfl⟩ := Value.inhabits_character.1 hx
    obtain ⟨j, rfl⟩ := Value.inhabits_character.1 hy
    rfl
  | string =>
    obtain ⟨i, rfl⟩ := Value.inhabits_string.1 hx
    obtain ⟨j, rfl⟩ := Value.inhabits_string.1 hy
    rfl
  | _ => cases ht

/-- An operator on values of the right types fails on a division by zero only. -/
theorem binary_error_of_inhabits {e : RuntimeError} (hr : BinaryRule o s t u)
    (ho : ¬(o = .and ∨ o = .or)) (hx : x.Inhabits s) (hy : y.Inhabits t)
    (h : w.binary o x y = .error (.error e)) : e = .divisionByZero := by
  rw [World.binary] at h
  cases hr with
  | logical hl => exact absurd hl ho
  | comparison hc ht =>
    rw [if_pos hc] at h
    obtain ⟨order, horder⟩ := Option.isSome_iff_exists.1 (compare?_isSome ht hx hy)
    cases o <;> simp_all [World.comparison, BinaryOperator.holds?, BinaryOperator.isComparison,
      Stop.map_answer_eq_error]
  | concatenation hs =>
    rw [if_neg (by decide)] at h
    rcases hs with rfl | rfl
    · obtain ⟨i, rfl⟩ := Value.inhabits_string.1 hx
      cases (Stop.map_answer_eq_error.1 h).2
    · obtain ⟨j, rfl⟩ := Value.inhabits_string.1 hy
      cases x <;> cases (Stop.map_answer_eq_error.1 h).2
  | arithmetic hm ht =>
    simp only [List.mem_cons, List.not_mem_nil, or_false] at hm
    rcases ht with rfl | rfl
    · obtain ⟨i, rfl⟩ := Value.inhabits_integer.1 hx
      obtain ⟨j, rfl⟩ := Value.inhabits_integer.1 hy
      rcases hm with rfl | rfl | rfl | rfl
      · cases h
      · cases h
      · cases h
      · obtain ⟨_, hc, ⟨⟩⟩ := Stop.mapError_eq_error.1 h
        simp only [BinaryOperator.onIntegers] at hc
        split at hc <;> cases hc
        rfl
    · obtain ⟨i, rfl⟩ := Value.inhabits_decimal.1 hx
      obtain ⟨j, rfl⟩ := Value.inhabits_decimal.1 hy
      rcases hm with rfl | rfl | rfl | rfl
      · cases h
      · cases h
      · cases h
      · obtain ⟨_, hc, ⟨⟩⟩ := Stop.mapError_eq_error.1 h
        simp only [BinaryOperator.onDecimals] at hc
        split at hc <;> cases hc
        rfl

end

/-! ## Stores -/

/-- The object behind the value, if it is one, is in the store and of its type. -/
def World.Holds (w : World) : Value → Prop
  | .object ref => ∃ o, w.objects[ref.location]? = some o ∧ o.type = ref.type
  | _ => True

/-- `NIL` or a value of the type. -/
def World.HasType (w : World) (t : Ty) (v : Value) : Prop :=
  w.Holds v ∧ (v = .nil ∨ v.Inhabits t)

/-- The object is of a type that can be met, has the fields of its type, and they hold
    `NIL` or values of their declared types. -/
structure Object.Typed (r : Registry) (U : TypeRef → Prop) (w : World) (o : Object) : Prop where
  type : U o.type
  names : o.fields.map Prod.fst = (r.describe o.type).fieldNames
  fields : ∀ x v t, (x, v) ∈ o.fields → (r.describe o.type).fieldType? x = some t → w.HasType t v

/-- All objects of the store are as their types say. -/
def World.Typed (r : Registry) (U : TypeRef → Prop) (w : World) : Prop :=
  ∀ (i : Nat) (o : Object), w.objects[i]? = some o → o.Typed r U w

/-- All objects of the first store are in the second, with the same types. -/
def World.Later (w w' : World) : Prop :=
  ∀ (i : Nat) (o : Object), w.objects[i]? = some o →
    ∃ o', w'.objects[i]? = some o' ∧ o'.type = o.type

section
variable {r : Registry} {U : TypeRef → Prop} {w w' w'' : World} {t : Ty} {v : Value}

theorem World.Later.refl (w : World) : w.Later w := fun _ o ho => ⟨o, ho, rfl⟩

theorem World.Later.trans (h : w.Later w') (h' : w'.Later w'') : w.Later w'' := by
  intro i o ho
  obtain ⟨o', ho', htype⟩ := h i o ho
  obtain ⟨o'', ho'', htype'⟩ := h' i o' ho'
  exact ⟨o'', ho'', htype'.trans htype⟩

theorem World.Holds.later (h : w.Later w') (hv : w.Holds v) : w'.Holds v := by
  cases v with
  | object ref =>
    obtain ⟨o, ho, htype⟩ := hv
    obtain ⟨o', ho', htype'⟩ := h _ o ho
    exact ⟨o', ho', htype'.trans htype⟩
  | _ => trivial

theorem World.HasType.later (h : w.Later w') (hv : w.HasType t v) : w'.HasType t v :=
  ⟨hv.1.later h, hv.2⟩

/-- What an operator gives is no object. -/
theorem BinaryRule.holds {o : BinaryOperator} {s u : Ty} (hr : BinaryRule o s t u)
    (hv : v.Inhabits u) : w.Holds v := by
  cases hr with
  | logical _ | comparison _ _ =>
    obtain ⟨b, rfl⟩ := Value.inhabits_boolean.1 hv
    trivial
  | concatenation _ =>
    obtain ⟨x, rfl⟩ := Value.inhabits_string.1 hv
    trivial
  | arithmetic _ ht =>
    rcases ht with rfl | rfl
    · obtain ⟨i, rfl⟩ := Value.inhabits_integer.1 hv
      trivial
    · obtain ⟨d, rfl⟩ := Value.inhabits_decimal.1 hv
      trivial

/-- Writing a field keeps all objects and their types. -/
theorem World.later_of_setField {ref : ObjectRef} {x : String} (h : w.setField ref x v = .ok w') :
    w.Later w' := by
  unfold World.setField at h
  split at h <;> cases h
  intro i o ho
  simp only [Array.getElem?_modify, ho, Option.map_some]
  by_cases hi : ref.location = i
  · exact ⟨_, if_pos hi, rfl⟩
  · exact ⟨_, if_neg hi, rfl⟩

/-- The object behind a value of an object type, and its description. -/
theorem World.HasType.object {type : TypeRef} {ref : ObjectRef} (h1 : r.Unambiguous U)
    (hw : w.Typed r U) (hU : U type) (h : w.HasType (.object type) (.object ref)) :
    ∃ o, w.objects[ref.location]? = some o ∧ o.Typed r U w ∧ o.type = ref.type ∧
      r.describe ref.type = r.describe type := by
  obtain ⟨⟨o, ho, htype⟩, hnil | ⟨ref', href, hname⟩⟩ := h
  · cases hnil
  · cases href
    have hot := hw _ o ho
    exact ⟨o, ho, hot, htype, h1.unique _ _ (htype ▸ hot.type) hU hname⟩

/-- A declared field can be read, and holds `NIL` or a value of its type. -/
theorem World.HasType.field {type : TypeRef} {ref : ObjectRef} {x : String}
    (h1 : r.Unambiguous U) (hw : w.Typed r U) (hU : U type)
    (h : w.HasType (.object type) (.object ref)) (hx : (r.describe type).fieldType? x = some t) :
    ∃ v, w.field ref x = .ok v ∧ w.HasType t v := by
  obtain ⟨o, ho, hot, htype, hdescribe⟩ := h.object h1 hw hU
  rw [← hdescribe, ← htype] at hx
  have hmem : x ∈ o.fields.map Prod.fst := by
    rw [hot.names]
    exact (Table.isSome_get?_iff x _).1 (Option.isSome_of_eq_some hx)
  obtain ⟨v, hv⟩ := Option.isSome_iff_exists.1 ((Table.isSome_get?_iff x o.fields).2 hmem)
  refine ⟨v, ?_, hot.fields x v t (Table.mem_of_get? hv) hx⟩
  simp [World.field, World.fields, ho, hv]

/-- A declared field can be overwritten with a value of its type, and the store stays
    as it should be. -/
theorem World.HasType.setField {type : TypeRef} {ref : ObjectRef} {x : String}
    (h1 : r.Unambiguous U) (hw : w.Typed r U) (hU : U type)
    (h : w.HasType (.object type) (.object ref)) (hx : (r.describe type).fieldType? x = some t)
    (hv : w.HasType t v) :
    ∃ w', w.setField ref x v = .ok w' ∧ w'.Typed r U ∧ w.Later w' := by
  obtain ⟨o, ho, hot, htype, hdescribe⟩ := h.object h1 hw hU
  rw [← hdescribe, ← htype] at hx
  have hmem : x ∈ o.fields.map Prod.fst := by
    rw [hot.names]
    exact (Table.isSome_get?_iff x _).1 (Option.isSome_of_eq_some hx)
  cases hf : Table.replace? x v o.fields with
  | none =>
    rw [Table.replace?_eq_none_iff] at hf
    have hsome := (Table.isSome_get?_iff x o.fields).2 hmem
    rw [hf] at hsome
    cases hsome
  | some fields =>
    have hset : w.setField ref x v = .ok
        { w with objects := w.objects.modify ref.location fun o => { o with fields } } := by
      simp only [World.setField, World.fields, ho, hf]
    refine ⟨_, hset, ?_⟩
    have hlater := later_of_setField hset
    refine ⟨fun i o' ho' => ?_, hlater⟩
    rw [Array.getElem?_modify] at ho'
    by_cases hi : ref.location = i
    · -- the object that was written to
      rw [if_pos hi, ← hi, ho] at ho'
      cases ho'
      refine ⟨hot.type, (Table.keys_replace? hf).trans hot.names, fun y v' t' hy ht' => ?_⟩
      rcases Table.mem_replace? hf hy with hnew | hold
      · cases hnew
        rw [hx] at ht'
        cases ht'
        exact hv.later hlater
      · exact (hot.fields y v' t' hold ht').later hlater
    · rw [if_neg hi] at ho'
      have hot' := hw i o' ho'
      exact ⟨hot'.type, hot'.names, fun y v' t' hy ht' => (hot'.fields y v' t' hy ht').later hlater⟩

/-- A new object has all its fields, and they are `NIL`. -/
theorem World.Typed.create {type : TypeRef} (hw : w.Typed r U) (hU : U type) :
    (w.create type (r.describe type).fieldNames).2.Typed r U ∧
      w.Later (w.create type (r.describe type).fieldNames).2 ∧
      (w.create type (r.describe type).fieldNames).2.HasType (.object type)
        (.object (w.create type (r.describe type).fieldNames).1) := by
  have hlater : w.Later (w.create type (r.describe type).fieldNames).2 := by
    intro i o ho
    obtain ⟨hi, -⟩ := Array.getElem?_eq_some_iff.1 ho
    refine ⟨o, ?_, rfl⟩
    simp only [World.create]
    rw [Array.getElem?_push, if_neg (Nat.ne_of_lt hi), ho]
  refine ⟨fun i o ho => ?_, hlater, ⟨_, Array.getElem?_push_size, rfl⟩, Or.inr ⟨_, rfl, rfl⟩⟩
  simp only [World.create, Array.getElem?_push] at ho
  split at ho
  · cases ho
    refine ⟨hU, by simp [Function.comp_def], fun x v t hx _ => ?_⟩
    obtain ⟨y, -, hy⟩ := List.mem_map.1 hx
    cases hy
    exact ⟨trivial, Or.inl rfl⟩
  · have hot := hw i o ho
    exact ⟨hot.type, hot.names, fun x v t hx ht => (hot.fields x v t hx ht).later hlater⟩

end

end TinyScript
