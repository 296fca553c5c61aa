import TinyScript.Decimal.Order
import TinyScript.Literal
import TinyScript.Range
import TinyScript.Ty
import TinyScript.Value.Error

/-
  Values: what expressions evaluate to.

  An object is referred to by its type and the place of its fields in the
  object store, so two handles of one object see the same fields.
-/

namespace TinyScript

attribute [local instance (high)] instPowNat

/-- A handle of an object. -/
structure ObjectRef where
  /-- The type of the object. -/
  type : TypeRef
  /-- The place of its fields in the store. -/
  location : Nat
deriving DecidableEq, Inhabited

/-- A value. -/
inductive Value where
  /-- The absence of a value. -/
  | nil
  /-- A truth value. -/
  | boolean (value : Bool)
  /-- An integer. -/
  | integer (value : Int)
  /-- A decimal. -/
  | decimal (value : Decimal)
  /-- A character. -/
  | character (value : Char)
  /-- A string. -/
  | string (value : String)
  /-- A run of integers. -/
  | range (value : Range)
  /-- An object. -/
  | object (ref : ObjectRef)
deriving DecidableEq, Inhabited

namespace Value

/-- The value of a literal. -/
def ofLiteral : Literal → Value
  | .nil => nil
  | .boolean b => boolean b
  | .integer n => integer n
  | .decimal d => decimal d
  | .character c => character c
  | .string s => string s

/-- The kind of a value, as error messages name it. -/
def kindName : Value → String
  | nil => "Nil"
  | boolean _ => "Boolean"
  | integer _ => "Integer"
  | decimal _ => "Decimal"
  | character _ => "Character"
  | string _ => "String"
  | range _ => "IntegerIterable"
  | object ref => ref.type.name

/-! ## Kind checks -/

/-- The truth value inside. -/
def asBoolean : Value → Except RuntimeError Bool
  | boolean b => .ok b
  | v => .error (.expectedBoolean v.kindName)

/-- The integer inside. -/
def asInteger : Value → Except RuntimeError Int
  | integer n => .ok n
  | v => .error (.expectedInteger v.kindName)

/-- The range inside. -/
def asRange : Value → Except RuntimeError Range
  | range r => .ok r
  | v => .error (.expectedIterable v.kindName)

/-- The object inside. -/
def asObject : Value → Except RuntimeError ObjectRef
  | object ref => .ok ref
  | v => .error (.notAnObject v.kindName)

/-- Whether an integer fits 32 bits with sign. -/
def fitsInt32 (n : Int) : Bool := decide (-2 ^ (31 : Nat) ≤ n) && decide (n < 2 ^ (31 : Nat))

/-- The exit status that a result stands for. -/
def exitStatus (v : Value) : Except RuntimeError Int := do
  let n ← v.asInteger
  if fitsInt32 n then .ok n else .error (.exitStatusOutOfRange n)

/-! ## Order -/

/-- Orders two values of one comparable kind.  Characters and strings go by code
    points. -/
def compare? : Value → Value → Option Ordering
  | integer a, integer b => some (compare a b)
  | decimal a, decimal b => some (a.compare b)
  | character a, character b => some (compare a b)
  | string a, string b => some (compare a b)
  | _, _ => none

end Value

end TinyScript
