import TinyScript.Proofs.Machine.Control
import TinyScript.Registry.Native

/-
  Loops over ranges.

  The elements of a range are settled before the first round.  Every round starts one level
  inside the scope in which the loop stands, with the loop variable in a cell of its own, so
  nothing that a round assigns can change how many rounds follow or what they are given.

  * `Machine.enterRound`: the machine at the start of a round;
  * `Rounds`: rounds for given integers, one after the other, and their outcome;
  * `Rounds.unique`: the integers determine the outcome;
  * `rounds_forEach`: a loop has rounds for consecutive integers;
  * `visits_range`: a loop over a range has a round for each of its elements.
-/

namespace TinyScript

open Eval

/-- The machine at the start of a round for `i`, one level inside `S`: the loop variable is
    bound to a new cell. -/
def Machine.enterRound (m : Machine) (S : RunScope) (x : String) (i : Int) : Machine :=
  { m with scope := S.child }.define x (.integer i)

/-- The machine back in the scope `S`. -/
def Machine.backIn (m : Machine) (S : RunScope) : Machine := { m with scope := S }

/-- The body is run once for each of the integers, in their order, up to the first `RETURN` or
    error, always from the scope `S`; the last argument is the outcome of it all. -/
inductive Rounds (body : Eval Completion) (S : RunScope) (x : String) :
    List Int → Machine → EStateM.Result Stop Machine Completion → Prop
  /-- No integer is left. -/
  | done {m} : Rounds body S x [] m (.ok .normal m)
  /-- The round completes, and the next one follows. -/
  | next {i is m m' outcome} : body (m.enterRound S x i) = .ok .normal m' →
      Rounds body S x is (m'.backIn S) outcome → Rounds body S x (i :: is) m outcome
  /-- The round returns. -/
  | returned {i is m m' v} : body (m.enterRound S x i) = .ok (.returned v) m' →
      Rounds body S x (i :: is) m (.ok (.returned v) (m'.backIn S))
  /-- The round stops with an error. -/
  | stopped {i is m m' e} : body (m.enterRound S x i) = .error e m' →
      Rounds body S x (i :: is) m (.error e (m'.backIn S))

section
variable {body : Eval Completion} {S : RunScope} {x : String} {is : List Int} {m : Machine}
  {outcome outcome' : EStateM.Result Stop Machine Completion}

/-- What rounds there are settles their outcome. -/
theorem Rounds.unique (h : Rounds body S x is m outcome) (h' : Rounds body S x is m outcome') :
    outcome = outcome' := by
  induction h with
  | done =>
    cases h'
    rfl
  | next hb _ ih =>
    cases h' with
    | next hb' h' =>
      rw [hb] at hb'
      cases hb'
      exact ih h'
    | returned hb' | stopped hb' =>
      rw [hb] at hb'
      cases hb'
  | returned hb =>
    cases h' with
    | returned hb' =>
      rw [hb] at hb'
      cases hb'
      rfl
    | next hb' _ | stopped hb' =>
      rw [hb] at hb'
      cases hb'
  | stopped hb =>
    cases h' with
    | stopped hb' =>
      rw [hb] at hb'
      cases hb'
      rfl
    | next hb' _ | returned hb' =>
      rw [hb] at hb'
      cases hb'

/-- A block that starts with the loop variable is a round, and comes back from it. -/
theorem inChild_round (i : Int) :
    inChild (do define x (.integer i); body) m =
      match body (m.enterRound m.scope x i) with
      | .ok completion m' => .ok completion (m'.backIn m.scope)
      | .error e m' => .error e (m'.backIn m.scope) := by
  have hstep : (do define x (.integer i); body : Eval Completion) { m with scope := m.scope.child } =
      body (m.enterRound m.scope x i) := rfl
  rw [inChild, get_bind, inScope, hstep]
  cases body (m.enterRound m.scope x i) <;> rfl

/-- Repeating a block for `n` integers from `i` on is having rounds for them. -/
theorem rounds_forEach (n : Nat) (i : Int) (hS : m.scope = S) :
    Rounds body S x (Range.count i n) m
      (forEach (fun i => inChild do define x (.integer i); body) n i m) := by
  induction n generalizing i m with
  | zero => exact .done
  | succ n ih =>
    subst hS
    have hround : inChild (do define x (.integer i); body) m =
        match body (m.enterRound m.scope x i) with
        | .ok completion m' => .ok completion (m'.backIn m.scope)
        | .error e m' => .error e (m'.backIn m.scope) := inChild_round i
    rw [forEach, Range.count]
    cases hb : body (m.enterRound m.scope x i) with
    | error e m' =>
      rw [hb] at hround
      rw [bind_of_error hround]
      exact .stopped hb
    | ok completion m' =>
      rw [hb] at hround
      rw [bind_of_ok hround]
      cases completion with
      | returned v => exact .returned hb
      | normal => exact .next hb (ih (i + 1) rfl)

end

/-- **A loop visits the elements of its range**: where the iterated expression evaluates to a
    range, the outcome of the loop is that of rounds for the integers from its start on, below
    its bound, in ascending order. -/
theorem visits_range {r : Registry} {fuel : Nat} {e : Expr} {m m' : Machine} {g : Range}
    (he : expr r (invoke r fuel) e m = .ok (.range g) m') (x : String) (body : List Stmt) :
    ∃ is : List Int, is.Pairwise (· < ·) ∧ (∀ k, k ∈ is ↔ g.start ≤ k ∧ k < g.stop) ∧
      ∀ outcome, stmt r (invoke r fuel) fuel (.forEach x e body) m = outcome ↔
        Rounds (stmts r (invoke r fuel) fuel body) m.scope x is m' outcome := by
  have hscope : m'.scope = m.scope :=
    (Machine.control_eq_iff.1 ((control_expr (restores_invoke fuel) e).of_ok he)).1
  have hloop : stmt r (invoke r fuel) fuel (.forEach x e body) m = forEach (fun i => inChild do
      define x (.integer i)
      stmts r (invoke r fuel) fuel body) g.size g.start m' := by
    rw [stmt, bind_of_ok he]
    rfl
  have hrounds : Rounds (stmts r (invoke r fuel) fuel body) m.scope x g.toList m'
      (stmt r (invoke r fuel) fuel (.forEach x e body) m) := by
    rw [hloop]
    exact rounds_forEach g.size g.start hscope
  refine ⟨g.toList, g.pairwise_toList, fun k => Range.mem_toList, fun outcome => ?_⟩
  constructor
  · rintro rfl
    exact hrounds
  · exact fun h => hrounds.unique h

/-- A machine with a range in a variable. -/
def rangeMachine : Machine where
  scope := [{ vars := fun x => if x = "r" then some 0 else none }]
  cells := #[.range ⟨1, 3⟩]

/-- Assigns zero to a variable. -/
def clear (x : String) : Stmt := .assign (.var ⟨0, 0⟩ x) (.literal ⟨0, 0⟩ (.integer 0))

/-- Two rounds are made, each with a variable of its own, although the body overwrites both the
    loop variable and the variable that held the range. -/
theorem visits_range_overwritten :
    let run := stmt Registry.standard (invoke .standard 0) 0
    let e : Expr := .var ⟨0, 0⟩ "r"
    expr .standard (invoke .standard 0) e rangeMachine = .ok (.range ⟨1, 3⟩) rangeMachine ∧
    run (.forEach "i" e [clear "i", clear "r"]) rangeMachine =
      .ok .normal { rangeMachine with cells := #[.integer 0, .integer 0, .integer 0] } ∧
    ∃ is : List Int, is.Pairwise (· < ·) ∧ (∀ k, k ∈ is ↔ 1 ≤ k ∧ k < 3) ∧
      ∀ outcome, run (.forEach "i" e [clear "i", clear "r"]) rangeMachine = outcome ↔
        Rounds (stmts .standard (invoke .standard 0) 0 [clear "i", clear "r"]) rangeMachine.scope
          "i" is rangeMachine outcome := by
  have he : expr Registry.standard (invoke .standard 0) (.var ⟨0, 0⟩ "r") rangeMachine =
      .ok (.range ⟨1, 3⟩) rangeMachine := rfl
  exact ⟨he, rfl, visits_range he "i" [clear "i", clear "r"]⟩

end TinyScript
