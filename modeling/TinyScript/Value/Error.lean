import TinyScript.Operator

/-
  Errors raised while a program runs, and other reasons to stop.
-/

namespace TinyScript

/-- Why a run failed. -/
inductive RuntimeError where
  /-- No variable of this name is in scope. -/
  | unknownVariable (name : String)
  /-- No function of this name takes that many arguments. -/
  | unknownFunction (name : String) (arity : Nat)
  /-- Objects of this type have no such field. -/
  | unknownField (owner name : String)
  /-- Objects of this type have no such method with that many arguments. -/
  | unknownMethod (owner name : String) (arity : Nat)
  /-- A member of a value that is not an object. -/
  | notAnObject (found : String)
  /-- A truth value was needed. -/
  | expectedBoolean (found : String)
  /-- An integer was needed. -/
  | expectedInteger (found : String)
  /-- A range was needed. -/
  | expectedIterable (found : String)
  /-- An operator does not apply to operands of these kinds. -/
  | invalidOperands (operator : BinaryOperator) (left right : String)
  /-- Division by zero. -/
  | divisionByZero
  /-- A call with the wrong number of arguments. -/
  | argumentCountMismatch (name : String) (expected found : Nat)
  /-- An assignment to something that is not a variable or field. -/
  | invalidAssignmentReceiver
  /-- An argument that a native function refuses. -/
  | invalidArgument (details : String)
  /-- The program's result is no exit status. -/
  | exitStatusOutOfRange (value : Int)
  /-- Too many calls in progress. -/
  | callDepthExceeded (limit : Nat)
deriving DecidableEq, Inhabited

namespace RuntimeError

/-- The explanation of an error. -/
def explanation : RuntimeError → String
  | unknownVariable name => s!"Unknown variable '{name}'."
  | unknownFunction name arity => s!"Unknown function '{name}' taking {arity} argument(s)."
  | unknownField owner name => s!"{owner} has no field '{name}'."
  | unknownMethod owner name arity => s!"{owner} has no method '{name}' taking {arity} argument(s)."
  | notAnObject found => s!"{found} has no fields or methods."
  | expectedBoolean found => s!"Expected Boolean, found {found}."
  | expectedInteger found => s!"Expected Integer, found {found}."
  | expectedIterable found => s!"Expected an iterable value, found {found}."
  | invalidOperands operator left right =>
    s!"Cannot use '{operator.text}' on {left} and {right}."
  | divisionByZero => "Division by zero."
  | argumentCountMismatch name expected found =>
    s!"'{name}' takes {expected} argument(s), but {found} were supplied."
  | invalidAssignmentReceiver => "Only variables and fields can be assigned."
  | invalidArgument details => s!"Invalid argument: {details}."
  | exitStatusOutOfRange value =>
    s!"'main' returned {value}, which is not a valid exit status."
  | callDepthExceeded limit => s!"Calls nested more than {limit} levels deep."

/-- The text shown for an error. -/
def message (e : RuntimeError) : String := "Runtime error: " ++ e.explanation

end RuntimeError

/-- Why a computation has no result. -/
inductive Stop where
  /-- The program failed. -/
  | error (cause : RuntimeError)
  /-- The fuel did not last, or there is none that lasts. -/
  | outOfFuel
deriving DecidableEq, Inhabited

namespace Stop

variable {α β : Type}

/-- The answer of a computation, where `none` stands for one that never ends. -/
def answer : Option α → Except Stop α
  | some a => .ok a
  | none => .error .outOfFuel

theorem answer_eq_error {x : Option α} {e : Stop} :
    answer x = .error e ↔ x = none ∧ e = .outOfFuel := by
  cases x <;> simp [answer, eq_comm]

theorem map_answer_eq_ok {f : α → β} {x : Option α} {b : β} :
    (answer x).map f = .ok b ↔ ∃ a, x = some a ∧ f a = b := by
  cases x <;> simp [answer, Except.map]

theorem map_answer_eq_error {f : α → β} {x : Option α} {e : Stop} :
    (answer x).map f = .error e ↔ x = none ∧ e = .outOfFuel := by
  cases x <;> simp [answer, Except.map, eq_comm]

theorem mapError_eq_ok {x : Except RuntimeError α} {a : α} :
    x.mapError Stop.error = .ok a ↔ x = .ok a := by
  cases x with
  | ok b =>
    show (Except.ok b : Except Stop α) = .ok a ↔ _
    rw [Except.ok.injEq, Except.ok.injEq]
  | error c => exact ⟨nofun, nofun⟩

theorem mapError_eq_error {x : Except RuntimeError α} {e : Stop} :
    x.mapError Stop.error = .error e ↔ ∃ c, x = .error c ∧ e = .error c := by
  cases x with
  | ok b => exact ⟨nofun, fun ⟨_, hc, _⟩ => nomatch hc⟩
  | error c =>
    constructor
    · rintro ⟨⟩
      exact ⟨c, rfl, rfl⟩
    · rintro ⟨_, ⟨⟩, rfl⟩
      rfl

end Stop

end TinyScript
