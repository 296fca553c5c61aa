import TinyScript.Proofs.Numeral
import TinyScript.Range

/-
  Ranges and their elements.

  Whether a range is empty, and whether it is the same as another one, is decided from the
  bounds, while loops and texts go through the elements.  The two views agree.  No numeral
  contains a comma, so the elements can be read off the text.

  * `Range.toList_cons`: the start is the first element, and the others follow it;
  * `Range.isEmpty_iff`, `Range.same_iff`: what the bounds decide holds of the elements;
  * `joined_injective`: texts without commas can be told apart after they are joined;
  * `Range.text_inj`: so can ranges with different elements after they are printed;
  * `bounds_elements_text_agree`: all of it together.
-/

namespace TinyScript

/-! ## Bounds and elements -/

namespace Range

variable {r s : Range}

/-- Stopping early gives the first elements. -/
theorem take_eq (r : Range) (k : Nat) : r.take k = r.toList.take k := by
  rw [take, toList]
  generalize r.start = i
  generalize r.size = n
  induction n generalizing i k with
  | zero => simp [count]
  | succ n ih =>
    cases k with
    | zero => simp [count]
    | succ k => rw [Nat.add_min_add_right, count, count, List.take_succ_cons, ih]

/-- The start is the first element, and the range from the next integer on has the others. -/
theorem toList_cons (h : r.start < r.stop) :
    r.toList = r.start :: (⟨r.start + 1, r.stop⟩ : Range).toList := by
  have hsize : r.size = (⟨r.start + 1, r.stop⟩ : Range).size + 1 := by
    simp only [size]
    omega
  rw [toList, hsize, count, toList]

theorem isEmpty_iff : r.isEmpty = true ↔ r.toList = [] := by
  rw [← List.length_eq_zero_iff, length_toList, isEmpty, decide_eq_true_eq, size]
  omega

theorem isEmpty_eq_false : r.isEmpty = false ↔ r.start < r.stop := by
  rw [isEmpty, decide_eq_false_iff_not, Int.not_le]

/-- A range with elements is determined by them. -/
theorem eq_of_toList_eq (hr : r.start < r.stop) (hs : s.start < s.stop)
    (h : r.toList = s.toList) : r = s := by
  have hlength : r.size = s.size := by rw [← length_toList, ← length_toList, h]
  rw [toList_cons hr, toList_cons hs] at h
  obtain ⟨a, b⟩ := r
  obtain ⟨c, d⟩ := s
  obtain rfl : a = c := (List.cons.inj h).1
  simp only [size] at hlength hr hs
  obtain rfl : b = d := by omega
  rfl

/-- Ranges are the same if they have the same elements. -/
theorem same_iff : r.same s = true ↔ r.toList = s.toList := by
  unfold same
  split
  · rename_i hr hs
    rw [isEmpty_iff.1 hr, isEmpty_iff.1 hs]
    simp
  · rename_i hr hs
    rw [Bool.and_eq_true, beq_iff_eq, beq_iff_eq]
    constructor
    · rintro ⟨hstart, hstop⟩
      rw [toList, toList, size, size, hstart, hstop]
    · intro h
      rw [eq_of_toList_eq (isEmpty_eq_false.1 hr) (isEmpty_eq_false.1 hs) h]
      exact ⟨rfl, rfl⟩
  · rename_i hne hne'
    -- one range has elements and the other has none
    simp only [Bool.false_eq_true, false_iff]
    intro h
    cases hr : r.isEmpty with
    | true => exact hne hr (isEmpty_iff.2 (h ▸ isEmpty_iff.1 hr))
    | false =>
      refine hne' hr ?_
      rw [← hr, Bool.eq_iff_iff, isEmpty_iff, isEmpty_iff, h]

end Range

/-! ## Texts joined by commas -/

section
variable {ts us : List (List Char)}

/-- The blank after a comma can be counted to the text that follows it. -/
theorem intercalate_comma (t : List Char) (ts : List (List Char)) :
    [',', ' '].intercalate (t :: ts) = [','].intercalate (t :: ts.map (' ' :: ·)) := by
  induction ts generalizing t with
  | nil => simp
  | cons u ts ih =>
    have hblank : [','].intercalate ((' ' :: u) :: ts.map (' ' :: ·)) =
        ' ' :: [','].intercalate (u :: ts.map (' ' :: ·)) := by
      cases ts <;> simp
    rw [List.intercalate_cons_cons, ih u, List.map_cons, List.intercalate_cons_cons, hblank]
    simp

/-- Cutting at the commas gives the texts back, each but the first with a blank before it. -/
theorem splitOn_joined {t : List Char} (h : ∀ u ∈ t :: ts, ',' ∉ u) :
    ([',', ' '].intercalate (t :: ts)).splitOn ',' = t :: ts.map (' ' :: ·) := by
  rw [intercalate_comma]
  refine List.splitOn_intercalate ',' ?_ (List.cons_ne_nil _ _)
  refine List.forall_mem_cons.2 ⟨h t List.mem_cons_self, fun u hu => ?_⟩
  obtain ⟨v, hv, rfl⟩ := List.mem_map.1 hu
  simpa using h v (List.mem_cons_of_mem t hv)

theorem joined_ne_nil {t : List Char} (h : t ≠ []) : [',', ' '].intercalate (t :: ts) ≠ [] := by
  cases ts <;> simp [h]

/-- Texts that are not empty and contain no comma can be told apart after they are joined. -/
theorem joined_injective (hts : ∀ t ∈ ts, t ≠ [] ∧ ',' ∉ t) (hus : ∀ u ∈ us, u ≠ [] ∧ ',' ∉ u)
    (h : [',', ' '].intercalate ts = [',', ' '].intercalate us) : ts = us := by
  cases ts with
  | nil =>
    cases us with
    | nil => rfl
    | cons u us => exact absurd h.symm (joined_ne_nil (hus u List.mem_cons_self).1)
  | cons t ts =>
    cases us with
    | nil => exact absurd h (joined_ne_nil (hts t List.mem_cons_self).1)
    | cons u us =>
      have hsplit := congrArg (List.splitOn ',') h
      rw [splitOn_joined fun t ht => (hts t ht).2, splitOn_joined fun u hu => (hus u hu).2]
        at hsplit
      obtain ⟨rfl, hrest⟩ := List.cons.inj hsplit
      rw [List.map_injective_iff.2 (List.cons_injective (a := ' ')) hrest]

end

/-! ## Texts of ranges -/

namespace Numeral

/-- A numeral has digits, and no comma. -/
theorem toString_plain (n : Int) : (toString n).toList ≠ [] ∧ ',' ∉ (toString n).toList := by
  have hdigits := digits_repr n.natAbs
  rw [toList_toString]
  refine ⟨List.append_ne_nil_of_right_ne_nil _ hdigits.1, fun h => ?_⟩
  rcases List.mem_append.1 h with h | h
  · unfold signOf at h
    split at h <;> simp at h
  · exact ne_of_isDigit (c := ',') (hdigits.2 _ h) rfl rfl

theorem toString_injective : Function.Injective (toString : Int → String) := by
  intro m n h
  have hread := integer?_toString m
  rw [h, integer?_toString] at hread
  exact (Option.some.inj hread).symm

end Numeral

namespace Range

variable {r s : Range}

theorem toList_text (r : Range) :
    r.text.toList =
      '[' :: ([',', ' '].intercalate (r.toList.map fun n => (toString n).toList) ++ [']']) := by
  simp [text, Function.comp_def]

/-- Ranges have one text if they have the same elements. -/
theorem text_inj : r.text = s.text ↔ r.toList = s.toList := by
  constructor
  · intro h
    have hlist := congrArg String.toList h
    rw [toList_text, toList_text, List.cons.injEq, List.append_cancel_right_eq] at hlist
    have hplain : ∀ is : List Int, ∀ t ∈ is.map fun n => (toString n).toList,
        t ≠ [] ∧ ',' ∉ t := by
      intro is t ht
      obtain ⟨n, -, rfl⟩ := List.mem_map.1 ht
      exact Numeral.toString_plain n
    have hmap := joined_injective (hplain _) (hplain _) hlist.2
    refine List.map_injective_iff.2 (fun m n hmn => ?_) hmap
    exact Numeral.toString_injective (String.toList_inj.1 hmn)
  · intro h
    rw [text, text, h]

end Range

/-- **Bounds, elements and texts of ranges agree.**  The elements are the integers from the
    start on, below the bound, in ascending order, also when only the first few are asked for.
    A range is empty if it has no elements, two ranges are the same if they have the same
    elements, and exactly then they have the same text. -/
theorem bounds_elements_text_agree (r s : Range) :
    (r.toList.Pairwise (· < ·) ∧ ∀ n, n ∈ r.toList ↔ r.start ≤ n ∧ n < r.stop) ∧
    (∀ k, r.take k = r.toList.take k) ∧
    (r.isEmpty = true ↔ r.toList = []) ∧
    (r.same s = true ↔ r.toList = s.toList) ∧
    (r.text = s.text ↔ r.same s = true) :=
  ⟨⟨r.pairwise_toList, fun _ => Range.mem_toList⟩, r.take_eq, Range.isEmpty_iff, Range.same_iff,
    Range.text_inj.trans Range.same_iff.symm⟩

end TinyScript
