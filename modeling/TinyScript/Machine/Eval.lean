import TinyScript.Machine
import TinyScript.Registry.Native

/-
  Evaluation of expressions.

  Operands, receivers and arguments are evaluated from left to right; `AND` and
  `OR` evaluate their right operand only if the left one does not decide.  How a
  function is called is given from outside (`Invoke`).
-/

namespace TinyScript

/-- How a callable found in some scope is called with arguments. -/
abbrev Invoke := Callable → RunScope → List Value → Eval Value

namespace Eval

/-- Reads a field of a value. -/
def field (v : Value) (name : String) : Eval Value := do
  let ref ← ofExcept v.asObject
  ofExcept ((← get).world.field ref name)

/-- Calls a method of a value. -/
def method (r : Registry) (v : Value) (name : String) (arguments : List Value) : Eval Value := do
  let ref ← ofExcept v.asObject
  native (r.callMethod ref name arguments)

/-- Calls the function of this name that takes that many arguments. -/
def call (invoke : Invoke) (name : String) (arguments : List Value) : Eval Value := do
  match (← get).scope.findFunction? name arguments.length with
  | some (callable, closure) => invoke callable closure arguments
  | none => fail (.unknownFunction name arguments.length)

/-- The truth value that a computation yields. -/
def boolean (step : Eval Value) : Eval Bool := do ofExcept (← step).asBoolean

mutual

/-- The value of an expression. -/
def expr (r : Registry) (invoke : Invoke) : Expr → Eval Value
  | .literal _ value => return .ofLiteral value
  | .group _ inner => expr r invoke inner
  | .binary _ .and left right => do
    if ← boolean (expr r invoke left) then return .boolean (← boolean (expr r invoke right))
    else return .boolean false
  | .binary _ .or left right => do
    if ← boolean (expr r invoke left) then return .boolean true
    else return .boolean (← boolean (expr r invoke right))
  | .binary _ operator left right => do
    let a ← expr r invoke left
    let b ← expr r invoke right
    MonadExcept.ofExcept ((← get).world.binary operator a b)
  | .var _ name => do load (← cell name)
  | .field _ receiver name => do field (← expr r invoke receiver) name
  | .call _ name arguments => do call invoke name (← exprs r invoke arguments)
  | .methodCall _ receiver name arguments => do
    let v ← expr r invoke receiver
    method r v name (← exprs r invoke arguments)
termination_by structural e => e

/-- The values of expressions, from left to right. -/
def exprs (r : Registry) (invoke : Invoke) : List Expr → Eval (List Value)
  | [] => return []
  | e :: es => do
    let v ← expr r invoke e
    let vs ← exprs r invoke es
    return v :: vs
termination_by structural es => es

end

end Eval

end TinyScript
