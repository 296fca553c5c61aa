/-
  Scopes: nested frames of variables and functions.

  A scope is a list of frames, the innermost first.  Lookups go outwards;
  definitions go into the innermost frame, which is how inner names hide outer
  ones.  Functions are found by name and arity, so functions of one name with
  different arities have nothing to do with each other.  What variables and
  functions stand for is left open: analysis stores types and signatures,
  execution stores cells and callables.
-/

namespace TinyScript

/-- One level of a scope. -/
structure Frame (V F : Type) where
  /-- The variables by name. -/
  vars : String → Option V := fun _ => none
  /-- The functions by name and arity. -/
  functions : String → Nat → Option F := fun _ _ => none

namespace Frame

variable {V F : Type}

instance : Inhabited (Frame V F) := ⟨{}⟩

/-- The frame with one more, or another, variable. -/
def defineVariable (f : Frame V F) (name : String) (v : V) : Frame V F :=
  { f with vars := fun n => if n = name then some v else f.vars n }

/-- The frame with one more, or another, function. -/
def defineFunction (f : Frame V F) (name : String) (arity : Nat) (g : F) : Frame V F :=
  { f with functions := fun n k => if n = name ∧ k = arity then some g else f.functions n k }

@[simp] theorem vars_defineVariable (f : Frame V F) (name n : String) (v : V) :
    (f.defineVariable name v).vars n = if n = name then some v else f.vars n := rfl

@[simp] theorem functions_defineVariable (f : Frame V F) (name : String) (v : V) :
    (f.defineVariable name v).functions = f.functions := rfl

@[simp] theorem functions_defineFunction (f : Frame V F) (name n : String) (arity k : Nat) (g : F) :
    (f.defineFunction name arity g).functions n k =
      if n = name ∧ k = arity then some g else f.functions n k := rfl

@[simp] theorem vars_defineFunction (f : Frame V F) (name : String) (arity : Nat) (g : F) :
    (f.defineFunction name arity g).vars = f.vars := rfl

end Frame

/-- Nested frames, the innermost first. -/
abbrev Scope (V F : Type) := List (Frame V F)

namespace Scope

variable {V F : Type}

/-- A scope with a single empty frame. -/
def root : Scope V F := [{}]

/-- The scope one level further in. -/
def child (s : Scope V F) : Scope V F := {} :: s

/-- The scope one level further out; the outermost level has none. -/
def parent : Scope V F → Scope V F
  | _ :: f :: fs => f :: fs
  | s => s

/-- Changes the innermost frame. -/
def modifyTop (g : Frame V F → Frame V F) : Scope V F → Scope V F
  | [] => [g {}]
  | f :: fs => g f :: fs

/-- Defines a variable in the innermost frame. -/
def defineVariable (s : Scope V F) (name : String) (v : V) : Scope V F :=
  s.modifyTop (·.defineVariable name v)

/-- Defines a function in the innermost frame. -/
def defineFunction (s : Scope V F) (name : String) (arity : Nat) (g : F) : Scope V F :=
  s.modifyTop (·.defineFunction name arity g)

/-- Whether the innermost frame itself has the variable. -/
def hasLocalVariable : Scope V F → String → Bool
  | [], _ => false
  | f :: _, name => (f.vars name).isSome

/-- Whether the innermost frame itself has the function. -/
def hasLocalFunction : Scope V F → String → Nat → Bool
  | [], _, _ => false
  | f :: _, name, arity => (f.functions name arity).isSome

/-- The innermost variable of a name. -/
def lookup? : Scope V F → String → Option V
  | [], _ => none
  | f :: fs, name =>
    match f.vars name with
    | some v => some v
    | none => lookup? fs name

/-- The innermost function of a name and arity, with the scope whose innermost
    frame has it. -/
def findFunction? : Scope V F → String → Nat → Option (F × Scope V F)
  | [], _, _ => none
  | f :: fs, name, arity =>
    match f.functions name arity with
    | some g => some (g, f :: fs)
    | none => findFunction? fs name arity

/-- The innermost function of a name and arity. -/
def function? (s : Scope V F) (name : String) (arity : Nat) : Option F :=
  (s.findFunction? name arity).map Prod.fst

/-! ## Lookups after definitions -/

@[simp] theorem lookup?_child (s : Scope V F) (name : String) : s.child.lookup? name = s.lookup? name :=
  rfl

/-- After a definition the variable is the new one, and every other name stands for
    what it stood for. -/
theorem lookup?_defineVariable (s : Scope V F) (name n : String) (v : V) :
    (s.defineVariable name v).lookup? n = if n = name then some v else s.lookup? n := by
  cases s with
  | nil => by_cases h : n = name <;> simp [defineVariable, modifyTop, lookup?, h]
  | cons f fs => by_cases h : n = name <;> simp [defineVariable, modifyTop, lookup?, h]

@[simp] theorem lookup?_defineFunction (s : Scope V F) (name n : String) (arity : Nat) (g : F) :
    (s.defineFunction name arity g).lookup? n = s.lookup? n := by
  cases s <;> rfl

@[simp] theorem findFunction?_child (s : Scope V F) (name : String) (arity : Nat) :
    s.child.findFunction? name arity = s.findFunction? name arity :=
  rfl

@[simp] theorem function?_child (s : Scope V F) (name : String) (arity : Nat) :
    s.child.function? name arity = s.function? name arity :=
  rfl

/-- After a definition the function is the new one, and every other name and arity
    stands for what it stood for. -/
theorem function?_defineFunction (s : Scope V F) (name n : String) (arity k : Nat) (g : F) :
    (s.defineFunction name arity g).function? n k =
      if n = name ∧ k = arity then some g else s.function? n k := by
  unfold function? defineFunction
  cases s with
  | nil => by_cases h : n = name ∧ k = arity <;> simp [modifyTop, findFunction?, h]
  | cons f fs =>
    by_cases h : n = name ∧ k = arity
    · simp [modifyTop, findFunction?, h]
    · simp only [modifyTop, findFunction?, Frame.functions_defineFunction, h, if_false]
      split <;> rfl

end Scope

end TinyScript
