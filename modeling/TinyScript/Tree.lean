import TinyScript.Literal
import TinyScript.Operator

/-
  Syntax trees.

  Every expression, declaration, field and method has an identity and an offset
  in the source text.  What analysis finds out about a node is kept beside the
  tree, under the node's identity.
-/

namespace TinyScript

/-- The identity of a node and the offset of the token it is known by. -/
structure Node where
  /-- The identity, unique within one parsed source. -/
  id : Nat
  /-- The offset of the first token, or of the member name. -/
  offset : Nat
deriving DecidableEq, Inhabited

/-- An expression. -/
inductive Expr where
  /-- A literal value. -/
  | literal (node : Node) (value : Literal)
  /-- An expression in parentheses. -/
  | group (node : Node) (inner : Expr)
  /-- A binary operation. -/
  | binary (node : Node) (operator : BinaryOperator) (left right : Expr)
  /-- A variable. -/
  | var (node : Node) (name : String)
  /-- A field of an object. -/
  | field (node : Node) (receiver : Expr) (name : String)
  /-- A function call. -/
  | call (node : Node) (name : String) (arguments : List Expr)
  /-- A method call on an object. -/
  | methodCall (node : Node) (receiver : Expr) (name : String) (arguments : List Expr)
deriving Inhabited

namespace Expr

/-- The identity and offset of an expression. -/
def node : Expr → Node
  | literal n _ | group n _ | binary n _ _ _ | var n _ | field n _ _ | call n _ _
  | methodCall n _ _ _ => n

/-- The identity of an expression. -/
def id (e : Expr) : Nat := e.node.id

/-- The offset of an expression. -/
def offset (e : Expr) : Nat := e.node.offset

/-- The expressions directly inside an expression. -/
def children : Expr → List Expr
  | literal .. | var .. => []
  | group _ inner => [inner]
  | binary _ _ left right => [left, right]
  | field _ receiver _ => [receiver]
  | call _ _ arguments => arguments
  | methodCall _ receiver _ arguments => receiver :: arguments

/-- Whether the expression is a binary operation. -/
def isBinary : Expr → Bool
  | binary .. => true
  | _ => false

/-- Whether the expression is a call of a function or method. -/
def isCall : Expr → Bool
  | call .. | methodCall .. => true
  | _ => false

/-- Whether the expression is a variable or a field. -/
def isAccess : Expr → Bool
  | var .. | field .. => true
  | _ => false

end Expr

/-- A local variable declaration. -/
structure Declaration where
  /-- The identity, and the offset of the keyword. -/
  node : Node
  /-- The declared name. -/
  name : String
  /-- The name of the declared type. -/
  typeName : Option String
  /-- The initial value. -/
  value : Option Expr
deriving Inhabited

/-- A statement. -/
inductive Stmt where
  /-- An expression evaluated for its effect. -/
  | expression (value : Expr)
  /-- A variable declaration. -/
  | declare (declaration : Declaration)
  /-- An assignment to a variable or field. -/
  | assign (receiver value : Expr)
  /-- A choice between two blocks. -/
  | branch (condition : Expr) (thenBody elseBody : List Stmt)
  /-- A block repeated for every element of a range. -/
  | forEach (name : String) (value : Expr) (body : List Stmt)
  /-- A block repeated as long as a condition holds. -/
  | loop (condition : Expr) (body : List Stmt)
  /-- The end of a method with its result; `offset` is that of the keyword. -/
  | ret (offset : Nat) (value : Expr)
deriving Inhabited

/-- A global variable. -/
structure Field where
  /-- The identity, and the offset of the keyword. -/
  node : Node
  /-- The name. -/
  name : String
  /-- The name of the declared type. -/
  typeName : String
  /-- The initial value. -/
  value : Option Expr
deriving Inhabited

/-- A method parameter. -/
structure Parameter where
  /-- The name. -/
  name : String
  /-- The name of the declared type. -/
  typeName : Option String
deriving DecidableEq, Inhabited

/-- A method declaration. -/
structure Method where
  /-- The identity, and the offset of the keyword. -/
  node : Node
  /-- The name. -/
  name : String
  /-- The parameters, in order. -/
  parameters : List Parameter
  /-- The name of the declared result type. -/
  resultName : Option String
  /-- The body. -/
  body : List Stmt
deriving Inhabited

/-- The number of parameters. -/
def Method.arity (m : Method) : Nat := m.parameters.length

/-- A whole program: global variables, then methods. -/
structure Source where
  /-- The global variables, in order. -/
  fields : List Field
  /-- The methods, in order. -/
  methods : List Method
deriving Inhabited

end TinyScript
