import TinyScript.Registry
import TinyScript.Scope
import TinyScript.Typing.Analysis
import TinyScript.Typing.Error

/-
  The state of analysis and its elementary steps.

  Analysis keeps a scope of types and signatures, the facts found so far and the
  result type of the method it is in.  It stops at the first error; facts already
  recorded remain.
-/

namespace TinyScript

/-- What analysis keeps track of. -/
structure CheckState where
  /-- The types of variables and the signatures of functions in scope. -/
  scope : Scope Ty Signature
  /-- The facts found so far. -/
  analysis : Analysis := {}
  /-- The result type of the current method. -/
  result : Ty := .nil

/-- A step of analysis. -/
abbrev Check := EStateM TypeError CheckState

namespace CheckState

/-- The outermost state: the functions of the host are in scope. -/
def ofRegistry (r : Registry) : CheckState where
  scope := r.functions.foldl
    (fun s f => s.defineFunction f.2.signature.name f.2.signature.arity f.2.signature) Scope.root

end CheckState

namespace Check

/-! ## Scopes -/

/-- Runs a step in another scope and comes back to the present one, whether it
    succeeds or fails. -/
def inScope {α : Type} (scope : Scope Ty Signature) (step : Check α) : Check α := fun s =>
  match step { s with scope } with
  | .ok a s' => .ok a { s' with scope := s.scope }
  | .error e s' => .error e { s' with scope := s.scope }

/-- Runs a step one level further in. -/
def inChild {α : Type} (step : Check α) : Check α := do inScope (← get).scope.child step

/-- Runs a step with another result type and comes back to the present one. -/
def withResult {α : Type} (result : Ty) (step : Check α) : Check α := fun s =>
  match step { s with result } with
  | .ok a s' => .ok a { s' with result := s.result }
  | .error e s' => .error e { s' with result := s.result }

/-- Defines a variable, which the innermost frame must not have yet. -/
def defineVariable (name : String) (type : Ty) : Check Unit := do
  if (← get).scope.hasLocalVariable name then throw (.variableRedefinition name)
  else modify fun s => { s with scope := s.scope.defineVariable name type }

/-! ## Facts -/

/-- Records facts. -/
def record (f : Analysis → Analysis) : Check Unit :=
  modify fun s => { s with analysis := f s.analysis }

/-! ## Types -/

/-- Requires a value of type `source` to fit where `target` is expected. -/
def requireAssignable (target source : Ty) : Check Unit :=
  if target.accepts source then return () else throw (.notAssignable target.name source.name)

/-- The type that a name means. -/
def resolve (r : Registry) (name : String) : Check Ty :=
  match r.resolve? name with
  | some t => return t
  | none => throw (.unknownType name)

/-- The type that a name means, which must not be a capability; `declared` is what
    is declared with it. -/
def resolveConcrete (r : Registry) (declared name : String) : Check Ty := do
  let t ← resolve r name
  if t.isCapability then throw (.capabilityDeclaration declared t.name) else return t

end Check

end TinyScript
