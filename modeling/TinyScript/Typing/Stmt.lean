import TinyScript.Typing.Expr

/-
  Analysis of statements.

  Blocks open a scope of their own.  A declaration takes its type from its
  annotation, or else from its value; only calls stand alone as statements.
-/

namespace TinyScript

namespace Check

/-- Requires a condition to be a truth value. -/
def condition (r : Registry) (e : Expr) : Check Unit := do requireBoolean (← expr r e) e.offset

/-- The type of an optional expression. -/
def optionalExpr (r : Registry) : Option Expr → Check (Option Ty)
  | some e => return some (← expr r e)
  | none => return none

/-- The type that a declaration gives its variable. -/
def declaredType (name : String) : Option Ty → Option Ty → Check Ty
  | some declared, some value => do
    requireAssignable declared value
    return declared
  | some declared, none => return declared
  | none, some value => return value
  | none, none => throw (.missingDeclarationType name)

/-- A declaration. -/
def declaration (r : Registry) (d : Declaration) : Check Unit := do
  let declared ← d.typeName.mapM (resolveConcrete r d.name)
  let value ← optionalExpr r d.value
  let type ← declaredType d.name declared value
  defineVariable d.name type
  record (·.recordDeclaration d.node.id type)

/-- An assignment. -/
def assignment (r : Registry) (receiver value : Expr) : Check Unit := do
  if receiver.isAccess then
    let target ← expr r receiver
    let type ← expr r value
    requireAssignable target type
  else throw (.invalidAssignmentReceiver receiver.offset)

mutual

/-- A statement. -/
def stmt (r : Registry) : Stmt → Check Unit
  | .expression e => do
    discard (expr r e)
    if e.isCall then return () else throw (.expressionNotCall e.offset)
  | .declare d => declaration r d
  | .assign receiver value => assignment r receiver value
  | .branch c thenBody elseBody => do
    condition r c
    if thenBody.isEmpty then throw (.emptyThenBranch c.offset)
    inChild (stmts r thenBody)
    inChild (stmts r elseBody)
  | .forEach name value body => do
    let type ← expr r value
    if type = .integerIterable then
      inChild do
        defineVariable name .integer
        stmts r body
    else throw (.expectedIterable type.name value.offset)
  | .loop c body => do
    condition r c
    inChild (stmts r body)
  | .ret _ value => do
    let type ← expr r value
    requireAssignable (← get).result type
termination_by structural s => s

/-- Statements in the current scope. -/
def stmts (r : Registry) : List Stmt → Check Unit
  | [] => return ()
  | s :: ss => do
    stmt r s
    stmts r ss
termination_by structural ss => ss

end

end Check

end TinyScript
