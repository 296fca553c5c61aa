import TinyScript.Typing.Stmt

/-
  Analysis of whole programs.

  Global variables are analysed in order, each visible to those after it.  Then
  all methods are registered, so that they may call each other in any order;
  `main` must exist and return an integer; and at last the bodies are analysed.
-/

namespace TinyScript

namespace Check

/-- A global variable. -/
def field (r : Registry) (f : Field) : Check Unit := do
  let type ← resolveConcrete r f.name f.typeName
  match ← optionalExpr r f.value with
  | some value => requireAssignable type value
  | none => pure ()
  defineVariable f.name type
  record (·.recordDeclaration f.node.id type)

/-- The type of a parameter: anything if none is given. -/
def parameterType (r : Registry) (p : Parameter) : Check Ty :=
  match p.typeName with
  | some name => resolve r name
  | none => return .any

/-- The result type of a method: nothing if none is given. -/
def resultType (r : Registry) (m : Method) : Check Ty :=
  match m.resultName with
  | some name => resolveConcrete r m.name name
  | none => return .nil

/-- Registers a method in the current scope. -/
def registerMethod (r : Registry) (m : Method) : Check Unit := do
  let parameters ← m.parameters.mapM (parameterType r)
  let result ← resultType r m
  let signature : Signature := ⟨m.name, parameters, result⟩
  if (← get).scope.hasLocalFunction m.name signature.arity then
    throw (.functionRedefinition m.name signature.arity)
  else
    modify fun s => { s with scope := s.scope.defineFunction m.name signature.arity signature }
    record (·.recordSignature m.node.id signature)

/-- Defines parameters with their types. -/
def defineParameters : List Parameter → List Ty → Check Unit
  | p :: ps, t :: ts => do
    defineVariable p.name t
    defineParameters ps ts
  | _, _ => return ()

/-- The body of a registered method. -/
def methodBody (r : Registry) (m : Method) : Check Unit := do
  match (← get).analysis.signatures[m.node.id]? with
  | some signature =>
    withResult signature.result <| inChild do
      defineParameters m.parameters signature.parameters
      stmts r m.body
  | none => throw (.unknownFunction m.name m.arity m.node.offset)

/-- Requires `main` to exist and to return an integer. -/
def requireMain : Check Unit := do
  match (← get).scope.function? "main" 0 with
  | some main => if main.result = .integer then return () else throw (.invalidMainResult main.result.name)
  | none => throw .missingMain

/-- A whole program, in a scope of its own. -/
def source (r : Registry) (s : Source) : Check Unit := inChild do
  s.fields.forM (field r)
  s.methods.forM (registerMethod r)
  requireMain
  s.methods.forM (methodBody r)

end Check

/-- The facts about a program, or the first error in it. -/
def analyze (r : Registry) (s : Source) : Except TypeError Analysis :=
  match (Check.source r s).run (.ofRegistry r) with
  | .ok _ state => .ok state.analysis
  | .error e _ => .error e

end TinyScript
