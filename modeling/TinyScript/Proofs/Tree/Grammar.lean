import TinyScript.Token.Lexeme
import TinyScript.Tree.Parser

/-
  The grammar.

    source         ::= field* method*
    field          ::= "LET" identifier ":" identifier ("=" expression)? ";"
    method         ::= "DEF" identifier "(" (parameter ("," parameter)*)? ")" (":" identifier)?
                       "DO" statement* "END"
    parameter      ::= identifier (":" identifier)?
    statement      ::= declaration | if | for | while | return
                     | expression ("=" expression)? ";"
    declaration    ::= "LET" identifier (":" identifier)? ("=" expression)? ";"
    if             ::= "IF" expression "DO" statement* ("ELSE" statement*)? "END"
    for            ::= "FOR" identifier "IN" expression "DO" statement* "END"
    while          ::= "WHILE" expression "DO" statement* "END"
    return         ::= "RETURN" expression ";"
    expression     ::= logical
    logical        ::= comparison (("AND" | "OR") comparison)*
    comparison     ::= additive (("<" | "<=" | ">" | ">=" | "==" | "!=") additive)*
    additive       ::= multiplicative (("+" | "-") multiplicative)*
    multiplicative ::= secondary (("*" | "/") secondary)*
    secondary      ::= primary ("." identifier ("(" arguments ")")?)*
    primary        ::= "NIL" | "TRUE" | "FALSE" | integer | decimal | character | string
                     | "(" expression ")" | identifier ("(" arguments ")")?

  A rule says which lists of tokens derive which trees; it knows nothing of what comes
  before or after them.  Trees have blank nodes.  An identifier stands for a name only
  where it is not a keyword of the same position.

  `Grammar.Expression` and `Grammar.Statement` count the expressions and statements
  that are open: with `room` they derive with at most `room` of them at one time.
-/

namespace TinyScript

/-! ## Trees without identities and offsets -/

/-- The node of a tree that has no identities and offsets. -/
def Node.blank : Node := ⟨0, 0⟩

mutual

/-- The expression with all nodes blank. -/
def Expr.bare : Expr → Expr
  | .literal _ value => .literal .blank value
  | .group _ inner => .group .blank inner.bare
  | .binary _ o left right => .binary .blank o left.bare right.bare
  | .var _ x => .var .blank x
  | .field _ receiver x => .field .blank receiver.bare x
  | .call _ f es => .call .blank f (Expr.bareList es)
  | .methodCall _ receiver f es => .methodCall .blank receiver.bare f (Expr.bareList es)
termination_by structural e => e

def Expr.bareList : List Expr → List Expr
  | [] => []
  | e :: es => e.bare :: Expr.bareList es
termination_by structural es => es

end

mutual

/-- The number of nodes on the longest path through an expression. -/
def Expr.height : Expr → Nat
  | .literal _ _ | .var _ _ => 1
  | .group _ inner => inner.height + 1
  | .binary _ _ left right => max left.height right.height + 1
  | .field _ receiver _ => receiver.height + 1
  | .call _ _ es => Expr.heightList es + 1
  | .methodCall _ receiver _ es => max receiver.height (Expr.heightList es) + 1
termination_by structural e => e

def Expr.heightList : List Expr → Nat
  | [] => 0
  | e :: es => max e.height (Expr.heightList es)
termination_by structural es => es

end

def Declaration.bare (d : Declaration) : Declaration :=
  { d with node := .blank, value := d.value.map Expr.bare }

mutual

/-- The statement with all nodes blank. -/
def Stmt.bare : Stmt → Stmt
  | .expression e => .expression e.bare
  | .declare d => .declare d.bare
  | .assign receiver value => .assign receiver.bare value.bare
  | .branch c thenBody elseBody => .branch c.bare (Stmt.bareList thenBody) (Stmt.bareList elseBody)
  | .forEach x value body => .forEach x value.bare (Stmt.bareList body)
  | .loop c body => .loop c.bare (Stmt.bareList body)
  | .ret _ value => .ret 0 value.bare
termination_by structural s => s

def Stmt.bareList : List Stmt → List Stmt
  | [] => []
  | s :: ss => s.bare :: Stmt.bareList ss
termination_by structural ss => ss

end

def Field.bare (f : Field) : Field := { f with node := .blank, value := f.value.map Expr.bare }

def Method.bare (m : Method) : Method := { m with node := .blank, body := Stmt.bareList m.body }

/-- The program with all nodes blank. -/
def Source.bare (s : Source) : Source where
  fields := s.fields.map Field.bare
  methods := s.methods.map Method.bare

/-! ## Terminals and repetition -/

/-- The kind of a terminal: words are identifiers, all others operators. -/
def terminalKind (text : String) : TokenKind :=
  if text.toList.head?.any CharClass.isIdentifierStart then .identifier else .operator

/-- The token is the terminal. -/
def Token.Is (t : Token) (text : String) : Prop := t.text = text ∧ t.kind = terminalKind text

/-- A symbol of the grammar: which tokens derive which trees. -/
abbrev Phrase (α : Type) := List Token → α → Prop

namespace Grammar

section
variable {α : Type}

inductive Identifier : Phrase String
  | intro {t : Token} : t.kind = .identifier → Identifier [t] t.text

/-- A terminal and what follows it. -/
inductive Led (text : String) (L : Phrase α) : Phrase α
  | intro {t ts a} : Token.Is t text → L ts a → Led text L (t :: ts) a

inductive Optional (L : Phrase α) : Phrase (Option α)
  | none : Optional L [] none
  | some {ts a} : L ts a → Optional L ts (some a)

inductive Many (L : Phrase α) : Phrase (List α)
  | nil : Many L [] []
  | cons {ts us a as} : L ts a → Many L us as → Many L (ts ++ us) (a :: as)

theorem Many.mono {L M : Phrase α} (h : ∀ ts a, L ts a → M ts a) {ts : List Token} {as : List α}
    (hL : Many L ts as) : Many M ts as := by
  induction hL with
  | nil => exact .nil
  | cons ha _ ih => exact .cons (h _ _ ha) ih

/-- The rest of a list in parentheses after an item. -/
inductive ListTail (item : Phrase α) : Phrase (List α)
  | close {t} : Token.Is t ")" → ListTail item [t] []
  | cons {t ts us a as} : Token.Is t "," → item ts a → ListTail item us as →
      ListTail item (t :: (ts ++ us)) (a :: as)

/-- A list in parentheses after the opening one. -/
inductive Enclosed (item : Phrase α) : Phrase (List α)
  | close {t} : Token.Is t ")" → Enclosed item [t] []
  | items {ts us a as} : item ts a → ListTail item us as → Enclosed item (ts ++ us) (a :: as)

end

/-! ## Expressions -/

/-- The keywords that stand for a value. -/
def valueWords : List (String × Literal) :=
  [("NIL", .nil), ("TRUE", .boolean true), ("FALSE", .boolean false)]

/-- The token is a name where a value is expected. -/
def IsName (t : Token) : Prop := t.kind = .identifier ∧ t.text ∉ valueWords.map Prod.fst

inductive Primary (inner : Phrase Expr) : Phrase Expr
  | word {t w} : w ∈ valueWords → Token.Is t w.1 → Primary inner [t] (.literal .blank w.2)
  | literal {t : Token} {value} : t.isLiteral = true → Literal.ofToken? t = some value →
      Primary inner [t] (.literal .blank value)
  | group {t ts t' e} : Token.Is t "(" → inner ts e → Token.Is t' ")" →
      Primary inner (t :: (ts ++ [t'])) (.group .blank e)
  | var {t} : IsName t → Primary inner [t] (.var .blank t.text)
  | call {t ts es} : IsName t → Led "(" (Enclosed inner) ts es →
      Primary inner (t :: ts) (.call .blank t.text es)

inductive Secondary (inner : Phrase Expr) : Phrase Expr
  | primary {ts e} : Primary inner ts e → Secondary inner ts e
  | field {ts us e x} : Secondary inner ts e → Led "." Identifier us x →
      Secondary inner (ts ++ us) (.field .blank e x)
  | methodCall {ts us vs e f es} : Secondary inner ts e → Led "." Identifier us f →
      Led "(" (Enclosed inner) vs es →
      Secondary inner (ts ++ (us ++ vs)) (.methodCall .blank e f es)

/-- Operands joined from the left by operators of one level. -/
inductive Chain (operators : List BinaryOperator) (operand : Phrase Expr) : Phrase Expr
  | operand {ts e} : operand ts e → Chain operators operand ts e
  | join {ts us o e e'} : Chain operators operand ts e → o ∈ operators →
      Led o.text operand us e' → Chain operators operand (ts ++ us) (.binary .blank o e e')

def Multiplicative (inner : Phrase Expr) : Phrase Expr := Chain [.mul, .div] (Secondary inner)

def Additive (inner : Phrase Expr) : Phrase Expr := Chain [.add, .sub] (Multiplicative inner)

def Comparison (inner : Phrase Expr) : Phrase Expr :=
  Chain [.less, .lessEqual, .greater, .greaterEqual, .equal, .notEqual] (Additive inner)

def Logical (inner : Phrase Expr) : Phrase Expr := Chain [.and, .or] (Comparison inner)

/-- The tree is not too high. -/
def Low (L : Phrase Expr) : Phrase Expr := fun ts e => L ts e ∧ e.height ≤ nestingLimit

/-- Expressions that are not too high, with at most `room` open at one time. -/
def Expression : (room : Nat) → Phrase Expr
  | 0 => fun _ _ => False
  | room + 1 => Low (Logical (Expression room))

/-! ## Statements -/

/-- Statements up to the end of a block, which the given words mark. -/
inductive Block (statement : Phrase Stmt) (ends : List String) : Phrase (List Stmt)
  | nil : Block statement ends [] []
  | cons {t ts us s ss} : Token.text t ∉ ends → statement (t :: ts) s →
      Block statement ends us ss → Block statement ends (t :: (ts ++ us)) (s :: ss)

section
variable (expression : Phrase Expr) (statement : Phrase Stmt)

inductive DeclarationRest : Phrase Declaration
  | intro {us vs ws x type value t} : Identifier us x → Optional (Led ":" Identifier) vs type →
      Optional (Led "=" expression) ws value → Token.Is t ";" →
      DeclarationRest (us ++ (vs ++ (ws ++ [t]))) ⟨.blank, x, type, value⟩

inductive BranchRest : Phrase Stmt
  | intro {us vs ws c ss ss' t} : expression us c →
      Led "DO" (Block statement ["ELSE", "END"]) vs ss →
      Optional (Led "ELSE" (Block statement ["END"])) ws ss' → Token.Is t "END" →
      BranchRest (us ++ (vs ++ (ws ++ [t]))) (.branch c ss (ss'.getD []))

inductive ForRest : Phrase Stmt
  | intro {us vs ws x e ss t} : Identifier us x → Led "IN" expression vs e →
      Led "DO" (Block statement ["END"]) ws ss → Token.Is t "END" →
      ForRest (us ++ (vs ++ (ws ++ [t]))) (.forEach x e ss)

inductive WhileRest : Phrase Stmt
  | intro {us vs c ss t} : expression us c → Led "DO" (Block statement ["END"]) vs ss →
      Token.Is t "END" → WhileRest (us ++ (vs ++ [t])) (.loop c ss)

inductive ReturnRest : Phrase Stmt
  | intro {us e t} : expression us e → Token.Is t ";" → ReturnRest (us ++ [t]) (.ret 0 e)

inductive ExpressionOrAssignment : Phrase Stmt
  | expression {us e t} : expression us e → Token.Is t ";" →
      ExpressionOrAssignment (us ++ [t]) (.expression e)
  | assignment {us vs e e' t} : expression us e → Led "=" expression vs e' → Token.Is t ";" →
      ExpressionOrAssignment (us ++ (vs ++ [t])) (.assign e e')

/-- The keywords that start a statement. -/
def statementWords : List String := ["LET", "IF", "FOR", "WHILE", "RETURN"]

inductive StatementOf : Phrase Stmt
  | declaration {ts d} : Led "LET" (DeclarationRest expression) ts d → StatementOf ts (.declare d)
  | branch {ts s} : Led "IF" (BranchRest expression statement) ts s → StatementOf ts s
  | forEach {ts s} : Led "FOR" (ForRest expression statement) ts s → StatementOf ts s
  | loop {ts s} : Led "WHILE" (WhileRest expression statement) ts s → StatementOf ts s
  | ret {ts s} : Led "RETURN" (ReturnRest expression) ts s → StatementOf ts s
  | other {t ts s} : Token.text t ∉ statementWords →
      ExpressionOrAssignment expression (t :: ts) s → StatementOf (t :: ts) s

end

/-- Statements, with at most `room` of them and their expressions open at one time. -/
def Statement : (room : Nat) → Phrase Stmt
  | 0 => fun _ _ => False
  | room + 1 => StatementOf (Expression room) (Statement room)

/-! ## Programs -/

/-- A global variable whose initial value is one of the given expressions. -/
inductive FieldOf (expression : Phrase Expr) : Phrase Field
  | intro {us vs ws x type value t} : Identifier us x → Led ":" Identifier vs type →
      Optional (Led "=" expression) ws value → Token.Is t ";" →
      FieldOf expression (us ++ (vs ++ (ws ++ [t]))) ⟨.blank, x, type, value⟩

inductive ParameterRule : Phrase Parameter
  | intro {us vs x type} : Identifier us x → Optional (Led ":" Identifier) vs type →
      ParameterRule (us ++ vs) ⟨x, type⟩

/-- A method whose body consists of the given statements. -/
inductive MethodOf (statement : Phrase Stmt) : Phrase Method
  | intro {us vs ws xs f ps type ss t} : Identifier us f → Led "(" (Enclosed ParameterRule) vs ps →
      Optional (Led ":" Identifier) ws type → Led "DO" (Block statement ["END"]) xs ss →
      Token.Is t "END" →
      MethodOf statement (us ++ (vs ++ (ws ++ (xs ++ [t])))) ⟨.blank, f, ps, type, ss⟩

/-- Whole programs of the given expressions and statements. -/
inductive SourceOf (expression : Phrase Expr) (statement : Phrase Stmt) : Phrase Source
  | intro {us vs fs ms} : Many (Led "LET" (FieldOf expression)) us fs →
      Many (Led "DEF" (MethodOf statement)) vs ms →
      SourceOf expression statement (us ++ vs) ⟨fs, ms⟩

/-- Whole programs, with at most `room` statements and expressions open at one time. -/
def SourceRule (room : Nat) : Phrase Source := SourceOf (Expression room) (Statement room)

end Grammar

end TinyScript
