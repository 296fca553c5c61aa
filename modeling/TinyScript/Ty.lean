/-
  Static types and signatures.

  `Comparable` and `Any` are capabilities: they say what a value can do rather
  than what it is, and only parameters may be declared with them.  An object
  type is referred to by its name and its place in the registry's list of
  types; two object types are the same type exactly when their names are equal.
-/

namespace TinyScript

/-- A reference to an object type. -/
structure TypeRef where
  /-- The name of the type. -/
  name : String
  /-- The place of its description in the registry. -/
  index : Nat
deriving DecidableEq, Inhabited

/-- A static type. -/
inductive Ty where
  /-- The type of `NIL` and of methods without a result. -/
  | nil
  /-- Truth values. -/
  | boolean
  /-- Integers of any size. -/
  | integer
  /-- Decimals of any size. -/
  | decimal
  /-- Single characters. -/
  | character
  /-- Strings. -/
  | string
  /-- Any of integer, decimal, character or string. -/
  | comparable
  /-- Every type. -/
  | any
  /-- A run of integers. -/
  | integerIterable
  /-- An object type declared by the host. -/
  | object (type : TypeRef)
deriving DecidableEq, Inhabited

namespace Ty

/-- The name under which a type is written. -/
def name : Ty → String
  | nil => "Nil"
  | boolean => "Boolean"
  | integer => "Integer"
  | decimal => "Decimal"
  | character => "Character"
  | string => "String"
  | comparable => "Comparable"
  | any => "Any"
  | integerIterable => "IntegerIterable"
  | object type => type.name

/-- The types that every program knows. -/
def builtins : List Ty :=
  [nil, boolean, integer, decimal, character, string, comparable, any, integerIterable]

/-- The type that every program knows under this name. -/
def ofBuiltinName? (name : String) : Option Ty := builtins.find? fun t => t.name == name

/-- Whether two types are the same; object types go by their names. -/
def same : Ty → Ty → Bool
  | object s, object t => s.name == t.name
  | s, t => s == t

/-- Whether values of the type can be ordered. -/
def isComparable : Ty → Bool
  | integer | decimal | character | string => true
  | _ => false

/-- Whether the type only says what a value can do. -/
def isCapability : Ty → Bool
  | comparable | any => true
  | _ => false

/-- Whether a value of type `source` may stand where `target` is expected. -/
def accepts (target source : Ty) : Bool :=
  match target with
  | any => true
  | comparable => source.isComparable
  | _ => target.same source

end Ty

/-- What is known of a callable without its body. -/
structure Signature where
  /-- The name. -/
  name : String
  /-- The parameter types, in order. -/
  parameters : List Ty
  /-- The type of the result. -/
  result : Ty
deriving DecidableEq, Inhabited

/-- The number of parameters. -/
def Signature.arity (s : Signature) : Nat := s.parameters.length

end TinyScript
