/-
  Tables: association lists that keep the order in which keys first came.
-/

namespace TinyScript

namespace Table

variable {κ ν : Type} [DecidableEq κ]

/-- The entry of a key. -/
def get? (k : κ) : List (κ × ν) → Option ν
  | [] => none
  | (k', v) :: rest => if k' = k then some v else get? k rest

/-- Gives a key an entry: in place if it has one, at the end otherwise. -/
def put (k : κ) (v : ν) : List (κ × ν) → List (κ × ν)
  | [] => [(k, v)]
  | (k', v') :: rest => if k' = k then (k, v) :: rest else (k', v') :: put k v rest

/-- Overwrites the entry of a key that has one. -/
def replace? (k : κ) (v : ν) : List (κ × ν) → Option (List (κ × ν))
  | [] => none
  | (k', v') :: rest =>
    if k' = k then some ((k, v) :: rest) else (replace? k v rest).map ((k', v') :: ·)

@[simp] theorem get?_nil (k : κ) : get? k ([] : List (κ × ν)) = none := rfl

/-- After `put`, the key has the new entry and every other key its old one. -/
theorem get?_put (k j : κ) (v : ν) (t : List (κ × ν)) :
    get? j (put k v t) = if k = j then some v else get? j t := by
  induction t with
  | nil => simp [put, get?]
  | cons e t ih =>
    obtain ⟨k', v'⟩ := e
    by_cases h : k' = k
    · subst h
      by_cases hj : k' = j <;> simp [put, get?, hj]
    · by_cases hj : k' = j
      · subst hj
        simp [put, get?, h, Ne.symm h]
      · simp [put, get?, h, hj, ih]

/-- The entries after `put` are the new one and old ones. -/
theorem mem_put {k : κ} {v : ν} {t : List (κ × ν)} {e : κ × ν} (h : e ∈ put k v t) :
    e = (k, v) ∨ e ∈ t := by
  induction t with
  | nil => simpa [put] using h
  | cons e' t ih =>
    obtain ⟨k', v'⟩ := e'
    by_cases hk : k' = k
    · simp only [put, hk, ↓reduceIte, List.mem_cons] at h
      rcases h with rfl | h
      · exact Or.inl rfl
      · exact Or.inr (by simp [h])
    · simp only [put, hk, ↓reduceIte, List.mem_cons] at h
      rcases h with rfl | h
      · exact Or.inr (by simp)
      · rcases ih h with rfl | h
        · exact Or.inl rfl
        · exact Or.inr (by simp [h])

/-- What a key has as its entry stands in the table. -/
theorem mem_of_get? {k : κ} {v : ν} {t : List (κ × ν)} (h : get? k t = some v) : (k, v) ∈ t := by
  induction t with
  | nil => simp at h
  | cons e t ih =>
    obtain ⟨k', v'⟩ := e
    by_cases hk : k' = k
    · simp only [get?, hk, ↓reduceIte, Option.some.injEq] at h
      simp [hk, h]
    · simp only [get?, hk, ↓reduceIte] at h
      simp [ih h]

/-- Where no key comes twice, what stands in the table is the entry of its key. -/
theorem get?_of_mem {k : κ} {v : ν} {t : List (κ × ν)} (hkeys : (t.map Prod.fst).Nodup)
    (h : (k, v) ∈ t) : get? k t = some v := by
  induction t with
  | nil => cases h
  | cons e t ih =>
    obtain ⟨k', v'⟩ := e
    obtain ⟨hnew, hkeys⟩ := List.nodup_cons.1 hkeys
    rcases List.mem_cons.1 h with h | h
    · cases h
      simp [get?]
    · have hk : k' ≠ k := by
        rintro rfl
        exact hnew (List.mem_map.2 ⟨_, h, rfl⟩)
      rw [get?, if_neg hk, ih hkeys h]

/-- Overwriting fails exactly for keys without an entry. -/
theorem replace?_eq_none_iff (k : κ) (v : ν) (t : List (κ × ν)) :
    replace? k v t = none ↔ get? k t = none := by
  induction t with
  | nil => simp [replace?, get?]
  | cons e t ih =>
    obtain ⟨k', v'⟩ := e
    by_cases h : k' = k <;> simp [replace?, get?, h, ih]

/-- A key has an entry exactly if it is among the keys. -/
theorem isSome_get?_iff (k : κ) (t : List (κ × ν)) :
    (get? k t).isSome = true ↔ k ∈ t.map Prod.fst := by
  induction t with
  | nil => simp
  | cons e t ih =>
    obtain ⟨k', v'⟩ := e
    by_cases h : k' = k
    · simp [get?, h]
    · simp [get?, h, ih, Ne.symm h]

/-- The entries after overwriting are the new one and old ones. -/
theorem mem_replace? {k : κ} {v : ν} {t t' : List (κ × ν)} {e : κ × ν}
    (h : replace? k v t = some t') (he : e ∈ t') : e = (k, v) ∨ e ∈ t := by
  induction t generalizing t' with
  | nil => simp [replace?] at h
  | cons e' t ih =>
    obtain ⟨k', v'⟩ := e'
    by_cases hk : k' = k
    · simp only [replace?, hk, ↓reduceIte, Option.some.injEq] at h
      subst h
      rcases List.mem_cons.1 he with rfl | he
      · exact Or.inl rfl
      · exact Or.inr (by simp [he])
    · simp only [replace?, hk, ↓reduceIte, Option.map_eq_some_iff] at h
      obtain ⟨r, hr, rfl⟩ := h
      rcases List.mem_cons.1 he with rfl | he
      · exact Or.inr (by simp)
      · rcases ih hr he with rfl | he
        · exact Or.inl rfl
        · exact Or.inr (by simp [he])

/-- Overwriting keeps the keys and their order. -/
theorem keys_replace? {k : κ} {v : ν} {t t' : List (κ × ν)} (h : replace? k v t = some t') :
    t'.map Prod.fst = t.map Prod.fst := by
  induction t generalizing t' with
  | nil => simp [replace?] at h
  | cons e t ih =>
    obtain ⟨k', v'⟩ := e
    by_cases hk : k' = k
    · simp only [replace?, hk, ↓reduceIte, Option.some.injEq] at h
      subst h
      simp [hk]
    · simp only [replace?, hk, ↓reduceIte, Option.map_eq_some_iff] at h
      obtain ⟨r, hr, rfl⟩ := h
      simp [ih hr]

end Table

end TinyScript
