/-
  Ranges: half-open runs of integers.

  A range is given by its bounds.  `toList` is its view: the elements in
  ascending order.  Two ranges are the same when they hold the same elements,
  so all empty ranges are the same.

  * `Range.mem_toList`: the elements are the integers between the bounds;
  * `Range.pairwise_toList`: they ascend, so each of them comes once.
-/

namespace TinyScript

/-- The integers from `start` on, below `stop`. -/
structure Range where
  /-- The first element, if there is one. -/
  start : Int
  /-- The bound that no element reaches. -/
  stop : Int
deriving DecidableEq, Inhabited

namespace Range

/-- The number of elements. -/
def size (r : Range) : Nat := (r.stop - r.start).toNat

/-- Whether there are no elements. -/
def isEmpty (r : Range) : Bool := decide (r.stop ≤ r.start)

/-- The `n` integers from `i` on. -/
def count (i : Int) : Nat → List Int
  | 0 => []
  | n + 1 => i :: count (i + 1) n

/-- The elements in ascending order. -/
def toList (r : Range) : List Int := count r.start r.size

/-- The first at most `n` elements. -/
def take (r : Range) (n : Nat) : List Int := count r.start (min n r.size)

/-- Whether two ranges hold the same elements. -/
def same (r s : Range) : Bool :=
  match r.isEmpty, s.isEmpty with
  | true, true => true
  | false, false => r.start == s.start && r.stop == s.stop
  | _, _ => false

/-- The elements between brackets. -/
def text (r : Range) : String := "[" ++ ", ".intercalate (r.toList.map toString) ++ "]"

theorem length_count (i : Int) (n : Nat) : (count i n).length = n := by
  induction n generalizing i with
  | zero => rfl
  | succ n ih => simp [count, ih]

theorem mem_count {i k : Int} {n : Nat} : k ∈ count i n ↔ i ≤ k ∧ k < i + n := by
  induction n generalizing i with
  | zero => simp only [count, List.not_mem_nil, false_iff]; omega
  | succ n ih =>
    rw [count, List.mem_cons, ih]
    omega

theorem pairwise_count (i : Int) (n : Nat) : (count i n).Pairwise (· < ·) := by
  induction n generalizing i with
  | zero => exact .nil
  | succ n ih =>
    refine .cons (fun k hk => ?_) (ih (i + 1))
    obtain ⟨hk, -⟩ := mem_count.1 hk
    omega

theorem length_toList (r : Range) : r.toList.length = r.size := length_count ..

/-- The elements are the integers from the start on, below the bound. -/
theorem mem_toList {r : Range} {k : Int} : k ∈ r.toList ↔ r.start ≤ k ∧ k < r.stop := by
  rw [toList, mem_count, size]
  omega

/-- The elements ascend. -/
theorem pairwise_toList (r : Range) : r.toList.Pairwise (· < ·) := pairwise_count ..

end Range

end TinyScript
