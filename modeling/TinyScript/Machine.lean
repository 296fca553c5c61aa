import TinyScript.Registry
import TinyScript.Scope
import TinyScript.Tree

/-
  The machine that runs programs, and its elementary steps.

  Variables are bound to cells, so that a value assigned through one scope is
  seen through every other.  A method declared in a program stands in a frame of
  the scope; the scope from that frame on is its closure.

  A computation ends with a result, with an error, or without an answer because
  its fuel is used up or none would last.  The machine comes back to its scope on
  every path, and a call takes the call depth back by the one that it has added.
-/

namespace TinyScript

/-- What a function name stands for while a program runs. -/
inductive Callable where
  /-- A function of the host. -/
  | native (function : NativeFunction)
  /-- A method of the program. -/
  | declared (method : Method)

namespace Callable

/-- The name of a callable. -/
def name : Callable → String
  | native f => f.signature.name
  | declared m => m.name

/-- The number of parameters of a callable. -/
def arity : Callable → Nat
  | native f => f.signature.arity
  | declared m => m.arity

end Callable

/-- The scope a program runs in: variables are bound to places of cells. -/
abbrev RunScope := Scope Nat Callable

/-- The state of a run. -/
structure Machine where
  /-- The current scope. -/
  scope : RunScope
  /-- The number of declared methods being called. -/
  depth : Nat := 0
  /-- The values of all variables. -/
  cells : Array Value := #[]
  /-- What native functions see. -/
  world : World := {}

instance : Inhabited Machine := ⟨{ scope := [] }⟩

/-- The most calls of declared methods in progress at one time. -/
def callLimit : Nat := 128

/-- A computation of the machine. -/
abbrev Eval := EStateM Stop Machine

/-- How a statement ended. -/
inductive Completion where
  /-- The next statement follows. -/
  | normal
  /-- The method returns this value. -/
  | returned (value : Value)
deriving DecidableEq, Inhabited

namespace Machine

/-- A machine whose outermost scope holds the functions of the host. -/
def ofRegistry (r : Registry) (world : World) : Machine where
  scope := r.functions.foldl
    (fun s f => s.defineFunction f.2.signature.name f.2.signature.arity (.native f.2)) Scope.root
  world

/-- The cell of a variable. -/
def cell? (m : Machine) (name : String) : Option Nat := m.scope.lookup? name

/-- The value of a variable. -/
def lookup? (m : Machine) (name : String) : Option Value :=
  (m.cell? name).bind fun cell => m.cells[cell]?

/-- Binds a name to a new cell in the current scope. -/
def define (m : Machine) (name : String) (v : Value) : Machine :=
  { m with
    scope := m.scope.defineVariable name m.cells.size
    cells := m.cells.push v }

end Machine

namespace Eval

/-- Fails. -/
def fail {α : Type} (e : RuntimeError) : Eval α := throw (.error e)

/-- The outcome of a computation that does not touch the machine. -/
def ofExcept {α : Type} : Except RuntimeError α → Eval α
  | .ok a => pure a
  | .error e => fail e

/-- Runs a computation of the host on the machine's world. -/
def native {α : Type} (step : Native α) : Eval α := fun m =>
  match step m.world with
  | .ok a w => .ok a { m with world := w }
  | .error e w => .error e { m with world := w }

/-- Runs a computation in another scope and comes back to the present one,
    whether it succeeds or fails. -/
def inScope {α : Type} (scope : RunScope) (step : Eval α) : Eval α := fun m =>
  let outer := m.scope
  match step { m with scope } with
  | .ok a m' => .ok a { m' with scope := outer }
  | .error e m' => .error e { m' with scope := outer }

/-- Runs a computation one level further in. -/
def inChild {α : Type} (step : Eval α) : Eval α := do inScope (← get).scope.child step

/-- Runs a computation with one more call in progress, whether it succeeds or fails. -/
def deeper {α : Type} (step : Eval α) : Eval α := fun m =>
  match step { m with depth := m.depth + 1 } with
  | .ok a m' => .ok a { m' with depth := m'.depth - 1 }
  | .error e m' => .error e { m' with depth := m'.depth - 1 }

/-- Binds a name to a new cell in the current scope. -/
def define (name : String) (v : Value) : Eval Unit := modify fun m => m.define name v

/-- The cell of a variable. -/
def cell (name : String) : Eval Nat := do
  match (← get).cell? name with
  | some c => return c
  | none => fail (.unknownVariable name)

/-- The value of a cell. -/
def load (c : Nat) : Eval Value := return ((← get).cells[c]?).getD .nil

/-- Overwrites the value of a cell. -/
def store (c : Nat) (v : Value) : Eval Unit :=
  modify fun m => { m with cells := m.cells.setIfInBounds c v }

end Eval

end TinyScript
