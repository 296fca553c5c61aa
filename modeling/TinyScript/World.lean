import TinyScript.Table
import TinyScript.Value.Basic

/-
  The world that running programs and native functions share: all objects, the
  printed output, and a tally that a host may count with.

  * `World.create`, `field`, `setField`: objects and their fields;
  * `World.text?`: the natural text of a value;
  * `World.equal?`: equality of values, through the fields of objects.

  An object can come to contain itself.  Its text then never ends, and neither does
  comparing two such objects as long as no difference is found; `none` is what
  never ends.
-/

namespace TinyScript

/-- Fields with their values. -/
abbrev Fields := List (String × Value)

/-- An object of the store. -/
structure Object where
  /-- The type of the object. -/
  type : TypeRef
  /-- The fields that the type declares, in order. -/
  declared : List String
  /-- The fields that are stored. -/
  fields : Fields
deriving Inhabited

/-- What programs and native functions can change. -/
structure World where
  /-- All objects. -/
  objects : Array Object := #[]
  /-- Everything printed so far. -/
  output : String := ""
  /-- A counter for the host. -/
  tally : Nat := 0
deriving Inhabited

namespace World

/-! ## Objects -/

/-- The fields behind a handle. -/
def fields (w : World) (ref : ObjectRef) : Fields :=
  match w.objects[ref.location]? with
  | some o => o.fields
  | none => []

/-- The fields that the type of an object declares, with the values that are stored for
    them. -/
def shown (w : World) (ref : ObjectRef) : Fields :=
  match w.objects[ref.location]? with
  | some o => o.declared.map fun name => (name, (Table.get? name o.fields).getD .nil)
  | none => []

/-- The stored fields in the order of their names. -/
def sorted (w : World) (ref : ObjectRef) : Fields :=
  (w.fields ref).mergeSort fun e e' => e.1 ≤ e'.1

/-- Creates an object of a type that declares these fields, all of them `NIL`. -/
def create (w : World) (type : TypeRef) (names : List String) : ObjectRef × World :=
  (⟨type, w.objects.size⟩,
    { w with objects := w.objects.push ⟨type, names, names.map (·, .nil)⟩ })

/-- The error for a field that an object does not have. -/
def unknownField (ref : ObjectRef) (name : String) : RuntimeError :=
  .unknownField ref.type.name name

/-- Reads a field. -/
def field (w : World) (ref : ObjectRef) (name : String) : Except RuntimeError Value :=
  match Table.get? name (w.fields ref) with
  | some v => .ok v
  | none => .error (unknownField ref name)

/-- Overwrites a field. -/
def setField (w : World) (ref : ObjectRef) (name : String) (v : Value) :
    Except RuntimeError World :=
  match Table.replace? name v (w.fields ref) with
  | some fields =>
    .ok { w with objects := w.objects.modify ref.location fun o => { o with fields } }
  | none => .error (unknownField ref name)

/-! ## Text -/

/-- The text of an object, given those of its declared fields and whether none is stored. -/
def objectText (name : String) (texts : List String) (bare : Bool) : String :=
  name ++ " \x7b" ++ (if texts.isEmpty then "" else " " ++ ", ".intercalate texts) ++
    (if bare then "\x7d" else " \x7d")

/-- The natural text of a value: what is printed, and what concatenation
    appends. -/
def text? (w : World) (v : Value) : Option String :=
  match v with
  | .nil => some "NIL"
  | .boolean true => some "TRUE"
  | .boolean false => some "FALSE"
  | .integer n => some (toString n)
  | .decimal d => some d.text
  | .character c => some (String.singleton c)
  | .string s => some s
  | .range r => some r.text
  | .object ref => do
    let texts ← (w.shown ref).mapM fun (name, v) => do
      return name ++ ": " ++ (← w |>.text? v)
    return objectText ref.type.name texts (w.fields ref).isEmpty
partial_fixpoint

/-! ## Equality -/

/-- Whether two values are equal.  Values of different kinds never are, and objects are if
    their types have one name and their fields, name by name, are equal. -/
def equal? (w : World) (a b : Value) : Option Bool :=
  match a, b with
  | .nil, .nil => some true
  | .boolean a, .boolean b => some (a == b)
  | .integer a, .integer b => some (a == b)
  | .decimal a, .decimal b => some (a.same b)
  | .character a, .character b => some (a == b)
  | .string a, .string b => some (a == b)
  | .range a, .range b => some (a.same b)
  | .object a, .object b =>
    if a.type.name = b.type.name ∧ (w.fields a).length = (w.fields b).length then
      ((w.sorted a).zip (w.sorted b)).allM fun (e, e') =>
        if e.1 = e'.1 then w |>.equal? e.2 e'.2 else some false
    else some false
  | _, _ => some false
partial_fixpoint

/-! ## Output -/

/-- Prints a line. -/
def printLine (w : World) (line : String) : World := { w with output := w.output ++ line ++ "\n" }

end World

end TinyScript
