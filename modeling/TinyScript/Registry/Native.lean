import TinyScript.Decimal.Shortest
import TinyScript.Registry
import TinyScript.Value.Arithmetic

/-
  Native functions: the standard ones, and bodies to build further ones from.

  * `Native.print`, `Native.logarithm`, `Native.range`: the standard functions;
  * `Registry.standard`: the registry that holds them;
  * `Native.const`, `argument`, `fail`, `count`, `texts`, `construct`, `readField`,
    `writeField`, `operator`: bodies for the functions of a host.
-/

namespace TinyScript

/-- Checks the number of arguments of a call. -/
def checkArity (name : String) (arguments : List Value) (expected : Nat) :
    Except RuntimeError Unit :=
  if arguments.length = expected then .ok ()
  else .error (.argumentCountMismatch name expected arguments.length)

namespace Native

/-- The outcome of a computation that does not touch the world. -/
def ofExcept {α : Type} : Except RuntimeError α → Native α
  | .ok a => pure a
  | .error e => throw (.error e)

/-! ## Standard functions -/

/-- Prints the text of a value on a line of its own. -/
def print : NativeBody
  | [v] => do
    let line ← MonadExcept.ofExcept (Stop.answer ((← get).text? v))
    modify fun w => w.printLine line
    return .nil
  | arguments => throw (.error (.argumentCountMismatch "print" 1 arguments.length))

/-- The natural logarithm of a decimal. -/
def logarithm : NativeBody
  | [.decimal d] =>
    match d.logarithm? with
    | some r => return .decimal r
    | none => throw (.error (.invalidArgument s!"logarithm of {d.text} is undefined"))
  | [v] => throw (.error (.invalidArgument s!"logarithm expects a Decimal, found {v.kindName}"))
  | arguments => throw (.error (.argumentCountMismatch "logarithm" 1 arguments.length))

/-- The range between two integers. -/
def range : NativeBody
  | [a, b] => do
    let start ← ofExcept a.asInteger
    let stop ← ofExcept b.asInteger
    return .range ⟨start, stop⟩
  | arguments => throw (.error (.argumentCountMismatch "range" 2 arguments.length))

/-! ## Bodies for a host -/

/-- Always the same value. -/
def const (v : Value) : NativeBody := fun _ => return v

/-- The argument at a place. -/
def argument (i : Nat) : NativeBody := fun arguments =>
  match arguments[i]? with
  | some v => return v
  | none => throw (.error (.invalidArgument s!"no argument {i}"))

/-- Always fails. -/
def fail (details : String) : NativeBody := fun _ => throw (.error (.invalidArgument details))

/-- Counts its calls, together with all other counting functions. -/
def count : NativeBody := fun _ => do
  modify fun w => { w with tally := w.tally + 1 }
  return .integer (← get).tally

/-- The texts of all arguments, with bars between them. -/
def texts : NativeBody := fun arguments => do
  let texts ← MonadExcept.ofExcept (Stop.answer (arguments.mapM (← get).text?))
  return .string ("|".intercalate texts)

/-- Overwrites a field of an object. -/
def setField (ref : ObjectRef) (name : String) (v : Value) : Native Unit := do
  set (← ofExcept ((← get).setField ref name v))

/-- Overwrites fields of an object, name by name and value by value. -/
def setFields (ref : ObjectRef) : List String → List Value → Native Unit
  | name :: names, v :: vs => do
    setField ref name v
    setFields ref names vs
  | _, _ => return ()

/-- A new object with the named fields set to the arguments, as far as both
    reach. -/
def construct (type : TypeRef) (fieldNames names : List String) : NativeBody := fun arguments => do
  let ref ← modifyGet fun w => w.create type fieldNames
  setFields ref names arguments
  return .object ref

/-- A field of the first argument. -/
def readField (name : String) : NativeBody := fun arguments => do
  let ref ← ofExcept (← argument 0 arguments).asObject
  ofExcept ((← get).field ref name)

/-- Sets a field of the first argument to the second. -/
def writeField (name : String) : NativeBody := fun arguments => do
  let v ← argument 1 arguments
  let ref ← ofExcept (← argument 0 arguments).asObject
  setField ref name v
  return .nil

/-- An operator on the first two arguments. -/
def operator (o : BinaryOperator) : NativeBody := fun arguments => do
  let left ← argument 0 arguments
  let right ← argument 1 arguments
  MonadExcept.ofExcept ((← get).binary o left right)

end Native

namespace Registry

/-- The standard functions. -/
def standardFunctions : List NativeFunction :=
  [⟨⟨"print", [.any], .nil⟩, Native.print⟩,
   ⟨⟨"logarithm", [.decimal], .decimal⟩, Native.logarithm⟩,
   ⟨⟨"range", [.integer, .integer], .integerIterable⟩, Native.range⟩]

/-- The registry with nothing in it. -/
def empty : Registry := {}

/-- The registry of the standard functions. -/
def standard : Registry := standardFunctions.foldl define empty

end Registry

end TinyScript
