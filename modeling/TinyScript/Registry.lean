import TinyScript.World

/-
  The registry: the functions and object types that a host provides.

  A native function gets evaluated arguments and may read and change the world;
  a method gets the object first.  Every object type ever added keeps its place
  in the registry, also when a later type takes over its name, so a reference to
  a type always finds the same description.
-/

namespace TinyScript

/-- A computation of the host: it may change the world, may fail and may never end. -/
abbrev Native := EStateM Stop World

/-- The body of a native function. -/
abbrev NativeBody := List Value → Native Value

/-- A function provided by the host. -/
structure NativeFunction where
  /-- The name and types. -/
  signature : Signature
  /-- What it does. -/
  body : NativeBody

theorem NativeFunction.keyed_nil :
    ∀ e ∈ ([] : List ((String × Nat) × NativeFunction)),
      e.1 = (e.2.signature.name, e.2.signature.arity) := List.forall_mem_nil _

/-- An object type: named fields with their types, and methods.  The signature of
    a method leaves the object out. -/
structure ObjectType where
  /-- The name of the type. -/
  name : String
  /-- The fields, in the order of their first declaration. -/
  fields : List (String × Ty) := []
  /-- The methods by name and number of arguments. -/
  methods : List ((String × Nat) × NativeFunction) := []
  /-- Every method stands under its own name and number of parameters. -/
  keyed : ∀ e ∈ methods, e.1 = (e.2.signature.name, e.2.signature.arity) := by
    exact NativeFunction.keyed_nil

namespace ObjectType

/-- Adds a field, or changes the type of one. -/
def withField (t : ObjectType) (name : String) (type : Ty) : ObjectType :=
  { t with fields := Table.put name type t.fields }

/-- Adds a method, or replaces the one of this name and arity. -/
def withMethod (t : ObjectType) (f : NativeFunction) : ObjectType :=
  { t with
    methods := Table.put (f.signature.name, f.signature.arity) f t.methods
    keyed := fun e he => (Table.mem_put he).elim (fun h => h ▸ rfl) (t.keyed e) }

/-- The names of the fields, in order. -/
def fieldNames (t : ObjectType) : List String := t.fields.map Prod.fst

/-- The type of a field. -/
def fieldType? (t : ObjectType) (name : String) : Option Ty := Table.get? name t.fields

/-- The method of a name and number of arguments. -/
def method? (t : ObjectType) (name : String) (arity : Nat) : Option NativeFunction :=
  Table.get? (name, arity) t.methods

/-- A method found by its name and number of arguments takes that many. -/
theorem arity_of_method? {t : ObjectType} {name : String} {arity : Nat} {f : NativeFunction}
    (h : t.method? name arity = some f) : f.signature.arity = arity := by
  have := t.keyed _ (Table.mem_of_get? h)
  simp only [Prod.mk.injEq] at this
  exact this.2.symm

end ObjectType

/-- The functions and object types of a host. -/
structure Registry where
  /-- The functions by name and arity. -/
  functions : List ((String × Nat) × NativeFunction) := []
  /-- The descriptions of all object types, also of replaced ones. -/
  types : Array ObjectType := #[]
  /-- The places of the object types that programs can name. -/
  names : List (String × Nat) := []

namespace Registry

/-- Defines a function, or replaces the one of its name and arity. -/
def define (r : Registry) (f : NativeFunction) : Registry :=
  { r with functions := Table.put (f.signature.name, f.signature.arity) f r.functions }

/-- Adds the description of an object type that programs cannot name. -/
def addType (r : Registry) (t : ObjectType) : TypeRef × Registry :=
  (⟨t.name, r.types.size⟩, { r with types := r.types.push t })

/-- Defines an object type, or replaces the one of its name. -/
def defineType (r : Registry) (t : ObjectType) : TypeRef × Registry :=
  let (ref, r') := r.addType t
  (ref, { r' with names := Table.put t.name ref.index r'.names })

/-- The function of a name and arity. -/
def function? (r : Registry) (name : String) (arity : Nat) : Option NativeFunction :=
  Table.get? (name, arity) r.functions

/-- The order of functions in listings: by name, then by arity. -/
def listedBefore (f g : (String × Nat) × NativeFunction) : Bool :=
  decide (f.1.1 < g.1.1) || (f.1.1 == g.1.1 && decide (f.1.2 ≤ g.1.2))

/-- All functions, ordered by name and arity. -/
def listFunctions (r : Registry) : List NativeFunction :=
  (r.functions.mergeSort listedBefore).map Prod.snd

/-- The object type of a name. -/
def typeRef? (r : Registry) (name : String) : Option TypeRef :=
  (Table.get? name r.names).map fun index => ⟨name, index⟩

/-- The description of an object type. -/
def describe (r : Registry) (type : TypeRef) : ObjectType :=
  (r.types[type.index]?).getD { name := type.name }

/-- The type that a program means by a name: a type that every program knows, or
    an object type. -/
def resolve? (r : Registry) (name : String) : Option Ty :=
  match Ty.ofBuiltinName? name with
  | some t => some t
  | none => (r.typeRef? name).map Ty.object

/-- Calls a method of an object. -/
def callMethod (r : Registry) (object : ObjectRef) (name : String) (arguments : List Value) :
    Native Value :=
  match (r.describe object.type).method? name arguments.length with
  | some method => method.body (.object object :: arguments)
  | none => throw (.error (.unknownMethod object.type.name name arguments.length))

end Registry

end TinyScript
