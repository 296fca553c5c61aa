import Std.Data.ExtTreeMap
import TinyScript.Ty

/-
  What analysis finds out about a program, by node identity.

  The tree itself is never changed: types of expressions, meanings of names,
  types of declared variables and signatures of methods are kept here.
-/

namespace TinyScript

/-- What a name in the source stands for. -/
inductive Binding where
  /-- A local variable, parameter or global variable. -/
  | var (name : String) (type : Ty)
  /-- A field of an object. -/
  | field (owner : Ty) (name : String) (type : Ty)
  /-- A function of the program or of the host. -/
  | function (signature : Signature)
  /-- A method of an object. -/
  | method (owner : Ty) (signature : Signature)
deriving DecidableEq, Inhabited

/-- Facts by node identity. -/
structure Analysis where
  /-- The types of expressions. -/
  types : Std.ExtTreeMap Nat Ty := ∅
  /-- What variables, fields and calls stand for. -/
  bindings : Std.ExtTreeMap Nat Binding := ∅
  /-- The types of declared variables. -/
  declarations : Std.ExtTreeMap Nat Ty := ∅
  /-- The signatures of methods. -/
  signatures : Std.ExtTreeMap Nat Signature := ∅

namespace Analysis

instance : Inhabited Analysis := ⟨{}⟩

/-- Records the type of an expression. -/
def recordType (a : Analysis) (id : Nat) (type : Ty) : Analysis :=
  { a with types := a.types.insert id type }

/-- Records what a name stands for. -/
def recordBinding (a : Analysis) (id : Nat) (binding : Binding) : Analysis :=
  { a with bindings := a.bindings.insert id binding }

/-- Records the type of a declared variable. -/
def recordDeclaration (a : Analysis) (id : Nat) (type : Ty) : Analysis :=
  { a with declarations := a.declarations.insert id type }

/-- Records the signature of a method. -/
def recordSignature (a : Analysis) (id : Nat) (signature : Signature) : Analysis :=
  { a with signatures := a.signatures.insert id signature }

/-- The number of expressions with a type. -/
def expressionCount (a : Analysis) : Nat := a.types.size

/-- The nodes about which anything is known, in ascending order. -/
def nodeIds (a : Analysis) : List Nat :=
  let known : Std.ExtTreeMap Nat Unit := ∅
  let known := a.types.keys.foldl (·.insert · ()) known
  let known := a.bindings.keys.foldl (·.insert · ()) known
  let known := a.declarations.keys.foldl (·.insert · ()) known
  let known := a.signatures.keys.foldl (·.insert · ()) known
  known.keys

end Analysis

end TinyScript
