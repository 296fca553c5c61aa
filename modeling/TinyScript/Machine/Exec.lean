import TinyScript.Machine.Eval

/-
  Execution of statements, calls and programs.

  Blocks run in a scope of their own, and every round of a loop in a new one.  A
  `RETURN` completes all statements around it up to the call.

  Fuel bounds the rounds of every conditional loop and the depth of calls, and
  nothing else.

  * `Eval.stmt`, `Eval.stmts`: statements;
  * `Eval.invoke`: calls;
  * `Eval.source`: programs.
-/

namespace TinyScript

namespace Eval

/-! ## Loops -/

/-- Runs the body for `n` integers from `i` on, up to the first `RETURN`. -/
def forEach (body : Int → Eval Completion) : Nat → Int → Eval Completion
  | 0, _ => return .normal
  | n + 1, i => do
    match ← body i with
    | .normal => forEach body n (i + 1)
    | .returned v => return .returned v

/-- Runs the body as long as the condition holds, up to the first `RETURN`, and at
    most `fuel` times. -/
def loop (condition : Eval Bool) (body : Eval Completion) : (fuel : Nat) → Eval Completion
  | 0 => throw .outOfFuel
  | fuel + 1 => do
    if ← condition then
      match ← body with
      | .normal => loop condition body fuel
      | .returned v => return .returned v
    else return .normal

/-! ## Statements -/

/-- The value of an optional expression, `NIL` if there is none. -/
def optionalExpr (r : Registry) (invoke : Invoke) : Option Expr → Eval Value
  | some e => expr r invoke e
  | none => return .nil

/-- Assigns to a variable or field.  The variable is looked up, or the object
    evaluated, before the value. -/
def assign (r : Registry) (invoke : Invoke) (receiver value : Expr) : Eval Unit :=
  match receiver with
  | .var _ name => do
    let c ← cell name
    let v ← expr r invoke value
    store c v
  | .field _ object name => do
    let o ← expr r invoke object
    let v ← expr r invoke value
    let ref ← ofExcept o.asObject
    native (Native.setField ref name v)
  | _ => fail .invalidAssignmentReceiver

mutual

/-- Executes a statement. -/
def stmt (r : Registry) (invoke : Invoke) (fuel : Nat) : Stmt → Eval Completion
  | .expression e => do
    discard (expr r invoke e)
    return .normal
  | .declare d => do
    define d.name (← optionalExpr r invoke d.value)
    return .normal
  | .assign receiver value => do
    assign r invoke receiver value
    return .normal
  | .branch condition thenBody elseBody => do
    if ← boolean (expr r invoke condition) then inChild (stmts r invoke fuel thenBody)
    else inChild (stmts r invoke fuel elseBody)
  | .forEach name value body => do
    let range ← ofExcept (← expr r invoke value).asRange
    forEach (fun i => inChild do
      define name (.integer i)
      stmts r invoke fuel body) range.size range.start
  | .loop condition body =>
    loop (boolean (expr r invoke condition)) (inChild (stmts r invoke fuel body)) fuel
  | .ret _ value => return .returned (← expr r invoke value)
termination_by structural s => s

/-- Executes statements in the current scope, up to the first `RETURN`. -/
def stmts (r : Registry) (invoke : Invoke) (fuel : Nat) : List Stmt → Eval Completion
  | [] => return .normal
  | s :: ss => do
    match ← stmt r invoke fuel s with
    | .normal => stmts r invoke fuel ss
    | .returned v => return .returned v
termination_by structural ss => ss

end

/-! ## Calls -/

/-- Binds parameters to arguments. -/
def defineParameters : List Parameter → List Value → Eval Unit
  | p :: ps, v :: vs => do
    define p.name v
    defineParameters ps vs
  | _, _ => return ()

/-- The result of a method body: `NIL` if it does not return. -/
def result : Completion → Value
  | .normal => .nil
  | .returned v => v

/-- Calls a callable that was found in the scope `closure`.  A declared method runs
    one level inside its closure, with its parameters bound. -/
def invoke (r : Registry) (fuel : Nat) : Invoke := fun callable closure arguments => do
  ofExcept (checkArity callable.name arguments callable.arity)
  match callable with
  | .native f => native (f.body arguments)
  | .declared m =>
    if (← get).depth = callLimit then fail (.callDepthExceeded callLimit)
    else
      match fuel with
      | 0 => throw .outOfFuel
      | fuel + 1 =>
        let completion ← deeper <| inScope closure.child do
          defineParameters m.parameters arguments
          stmts r (invoke r fuel) fuel m.body
        return result completion
termination_by structural fuel

/-! ## Programs -/

/-- Defines the global variables of a program. -/
def defineFields (r : Registry) (fuel : Nat) : List Field → Eval Unit
  | [] => return ()
  | f :: fs => do
    define f.name (← optionalExpr r (invoke r fuel) f.value)
    defineFields r fuel fs

/-- Defines a method of a program. -/
def defineMethod (m : Method) : Eval Unit :=
  modify fun s => { s with scope := s.scope.defineFunction m.name m.arity (.declared m) }

/-- Runs a program in a scope of its own and gives the result of its `main`. -/
def source (r : Registry) (fuel : Nat) (s : Source) : Eval Value := inChild do
  defineFields r fuel s.fields
  s.methods.forM defineMethod
  call (invoke r fuel) "main" []

end Eval

end TinyScript
