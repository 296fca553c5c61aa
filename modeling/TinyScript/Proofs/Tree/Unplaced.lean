import TinyScript.Proofs.Relation
import TinyScript.Proofs.Token.Layout
import TinyScript.Proofs.Tree.Primitive

/-
  Trees without offsets.

  Parsing decides by the kinds and texts of tokens.  It copies their offsets into nodes and
  errors and never looks at them: tokens without places give the tree, or the error, without
  places.  Identities are kept.

  * `Source.unplaced`, `ParseError.unplaced`: a program, an error without offsets;
  * `Parse.Forgets`: a parser does on tokens without places what another does on tokens;
  * `unplaced_parse_congr`: tokens of the same kinds and texts give the same program or error, but
    for offsets.
-/

namespace TinyScript

/-! ## Trees -/

/-- The node without its offset. -/
def Node.unplaced (n : Node) : Node := { n with offset := 0 }

@[simp] theorem Node.id_unplaced (n : Node) : n.unplaced.id = n.id := rfl

mutual

/-- The expression without offsets. -/
def Expr.unplaced : Expr → Expr
  | .literal n value => .literal n.unplaced value
  | .group n inner => .group n.unplaced inner.unplaced
  | .binary n o left right => .binary n.unplaced o left.unplaced right.unplaced
  | .var n x => .var n.unplaced x
  | .field n receiver x => .field n.unplaced receiver.unplaced x
  | .call n f es => .call n.unplaced f (Expr.unplacedList es)
  | .methodCall n receiver f es => .methodCall n.unplaced receiver.unplaced f (Expr.unplacedList es)
termination_by structural e => e

def Expr.unplacedList : List Expr → List Expr
  | [] => []
  | e :: es => e.unplaced :: Expr.unplacedList es
termination_by structural es => es

end

/-- The declaration without offsets. -/
def Declaration.unplaced (d : Declaration) : Declaration :=
  { d with node := d.node.unplaced, value := d.value.map Expr.unplaced }

mutual

/-- The statement without offsets. -/
def Stmt.unplaced : Stmt → Stmt
  | .expression e => .expression e.unplaced
  | .declare d => .declare d.unplaced
  | .assign receiver value => .assign receiver.unplaced value.unplaced
  | .branch c ss ss' => .branch c.unplaced (Stmt.unplacedList ss) (Stmt.unplacedList ss')
  | .forEach x value ss => .forEach x value.unplaced (Stmt.unplacedList ss)
  | .loop c ss => .loop c.unplaced (Stmt.unplacedList ss)
  | .ret _ value => .ret 0 value.unplaced
termination_by structural s => s

def Stmt.unplacedList : List Stmt → List Stmt
  | [] => []
  | s :: ss => s.unplaced :: Stmt.unplacedList ss
termination_by structural ss => ss

end

/-- The global variable without offsets. -/
def Field.unplaced (f : Field) : Field :=
  { f with node := f.node.unplaced, value := f.value.map Expr.unplaced }

/-- The method without offsets. -/
def Method.unplaced (d : Method) : Method :=
  { d with node := d.node.unplaced, body := Stmt.unplacedList d.body }

/-- The program without offsets. -/
def Source.unplaced (s : Source) : Source where
  fields := s.fields.map Field.unplaced
  methods := s.methods.map Method.unplaced

theorem Expr.unplacedList_eq_map (es : List Expr) : Expr.unplacedList es = es.map Expr.unplaced := by
  induction es with
  | nil => rfl
  | cons e es ih => rw [Expr.unplacedList, ih, List.map_cons]

theorem Stmt.unplacedList_eq_map (ss : List Stmt) : Stmt.unplacedList ss = ss.map Stmt.unplaced := by
  induction ss with
  | nil => rfl
  | cons s ss ih => rw [Stmt.unplacedList, ih, List.map_cons]

@[simp] theorem Expr.node_unplaced (e : Expr) : e.unplaced.node = e.node.unplaced := by
  cases e <;> rfl

@[simp] theorem Expr.id_unplaced (e : Expr) : e.unplaced.id = e.id := by
  rw [Expr.id, Expr.node_unplaced, Node.id_unplaced, Expr.id]

theorem Expr.children_unplaced (e : Expr) :
    e.unplaced.children = e.children.map Expr.unplaced := by
  cases e <;> simp [Expr.unplaced, Expr.children, Expr.unplacedList_eq_map]

/-- The error without its offset. -/
def ParseError.unplaced : ParseError → ParseError
  | unexpectedToken expected found _ => unexpectedToken expected found 0
  | unexpectedEnd expected _ => unexpectedEnd expected 0
  | trailingTokens token _ => trailingTokens token 0
  | nestingTooDeep limit _ => nestingTooDeep limit 0

/-! ## Streams -/

/-- The stream over tokens without places. -/
def TokenStream.unplaced (s : TokenStream) : TokenStream where
  rest := s.rest.map Token.unplaced
  previous := s.previous.map Token.unplaced
  position := s.position
  endOffset := 0

/-- The state of a parser over tokens without places. -/
def ParserState.unplaced (s : ParserState) : ParserState := { s with stream := s.stream.unplaced }

namespace TokenStream

variable (s : TokenStream)

@[simp] theorem rest_unplaced : s.unplaced.rest = s.rest.map Token.unplaced := rfl

@[simp] theorem next?_unplaced : s.unplaced.next? = s.next?.map Token.unplaced := by
  rw [next?, next?, rest_unplaced, List.head?_map]

theorem advance_unplaced : s.unplaced.advance = s.advance.unplaced := by
  simp [advance, unplaced]

@[simp] theorem peek_unplaced (p : Token.Pattern) : s.unplaced.peek p = s.peek p := by
  rw [peek, peek, next?_unplaced]
  cases s.next? with
  | none => rfl
  | some t => cases p <;> rfl

@[simp] theorem currentOffset_unplaced : s.unplaced.currentOffset = 0 := by
  rw [currentOffset, next?_unplaced]
  cases s.next? <;> rfl

@[simp] theorem previousOffset_unplaced : s.unplaced.previousOffset = 0 := by
  rw [previousOffset, unplaced]
  cases s.previous <;> rfl

end TokenStream

/-! ## Primitive parsers -/

namespace Parse

/-- Two parsers, the second on tokens without places: their results are related by `R`, and
    the second fails with the error of the first without its place. -/
abbrev Agrees {α β : Type} (R : α → β → Prop) (p : Parse α) (q : Parse β) : Prop :=
  Relates (fun e e' => e' = e.unplaced) (fun s s' => s' = s.unplaced) R p q

/-- The second parser finds on tokens without places what the first one finds on tokens,
    but for the places. -/
abbrev Forgets {α : Type} (f : α → α) (p q : Parse α) : Prop := Agrees (fun a b => b = f a) p q

section
variable {α β : Type} {R : α → β → Prop} {f : α → α} {p q : Parse α}

theorem missing_unplaced (s : TokenStream) (expected : String) :
    missing s.unplaced expected = (missing s expected).unplaced := by
  rw [missing, missing, TokenStream.next?_unplaced]
  cases s.next? <;> rfl

theorem forgets_stream : Forgets TokenStream.unplaced stream stream := by
  rintro s _ rfl
  exact .ok rfl rfl

theorem agrees_peek (pattern : Token.Pattern) : Agrees Eq (peek pattern) (peek pattern) := by
  refine Relates.bind forgets_stream ?_
  rintro s _ rfl
  exact Relates.pure (s.peek_unplaced pattern).symm

theorem agrees_advance : Agrees Eq advance advance := by
  rintro s _ rfl
  refine .ok rfl ?_
  show ParserState.mk _ _ _ _ = _
  rw [show s.unplaced.stream.advance = s.stream.advance.unplaced from s.stream.advance_unplaced]
  rfl

theorem agrees_freshId : Agrees Eq freshId freshId := by
  rintro s _ rfl
  exact .ok rfl rfl

theorem agrees_accept (pattern : Token.Pattern) : Agrees Eq (accept pattern) (accept pattern) := by
  refine Relates.bind (agrees_peek pattern) ?_
  rintro b _ rfl
  split
  · exact Relates.bind agrees_advance fun _ _ _ => Relates.pure rfl
  · exact Relates.pure rfl

/-- A choice by the text of the next token. -/
theorem Agrees.ifText {p p' : Parse α} {q q' : Parse β} (text : String) (h : Agrees R p q)
    (h' : Agrees R p' q') :
    Agrees R (do if ← acceptText text then p else p') (do if ← acceptText text then q else q') := by
  refine Relates.bind (agrees_accept (.text text)) ?_
  rintro b _ rfl
  split
  · exact h
  · exact h'

theorem forgets_expect (pattern : Token.Pattern) (expected : String) :
    Forgets Token.unplaced (expect pattern expected) (expect pattern expected) := by
  refine Relates.bind forgets_stream ?_
  rintro s _ rfl
  rw [missing_unplaced, TokenStream.next?_unplaced]
  cases s.next? with
  | none => exact Relates.throw rfl
  | some t =>
    have haccepts : pattern.accepts t.unplaced = pattern.accepts t := by cases pattern <;> rfl
    simp only [Option.map_some, haccepts]
    split
    · exact Relates.bind agrees_advance fun _ _ _ => Relates.pure rfl
    · exact Relates.throw rfl

theorem agrees_expectText (text expected : String) :
    Agrees (fun _ _ => True) (expectText text expected) (expectText text expected) :=
  Relates.discard (forgets_expect _ _)

theorem agrees_expectName (expected : String) :
    Agrees Eq (expectName expected) (expectName expected) := by
  refine Relates.bind (forgets_expect _ _) ?_
  rintro t _ rfl
  exact Relates.pure rfl

theorem agrees_tooDeep : Agrees R tooDeep tooDeep := by
  refine Relates.bind forgets_stream ?_
  rintro s _ rfl
  exact Relates.throw (by rw [TokenStream.currentOffset_unplaced]; rfl)

theorem forgets_optionalAfter (h : Forgets f p q) (text : String) :
    Forgets (Option.map f) (optionalAfter text p) (optionalAfter text q) := by
  refine Agrees.ifText text (Relates.bind h ?_) (Relates.pure rfl)
  rintro a _ rfl
  exact Relates.pure rfl

theorem Agrees.forgets (h : Agrees Eq p q) : Forgets id p q := h.mono fun _ _ => Eq.symm

theorem agrees_optionalAfter (h : Agrees Eq p q) (text : String) :
    Agrees Eq (optionalAfter text p) (optionalAfter text q) :=
  (forgets_optionalAfter h.forgets text).mono fun a b hab => by rw [hab, Option.map_id_fun, id]

theorem forgets_listTail (h : Forgets f p q) (closing : String) (bound : List Token) :
    Forgets (List.map f) (listTail p closing bound)
      (listTail q closing (bound.map Token.unplaced)) := by
  induction bound with
  | nil =>
    refine Relates.bind forgets_stream ?_
    rintro s _ rfl
    exact Relates.throw (missing_unplaced s _)
  | cons _ bound ih =>
    refine Agrees.ifText closing (Relates.pure rfl) ?_
    refine Relates.bind (agrees_expectText "," _) fun _ _ _ => Relates.bind h ?_
    rintro a _ rfl
    refine Relates.bind ih ?_
    rintro as _ rfl
    exact Relates.pure rfl

theorem forgets_commaSeparated (h : Forgets f p q) (closing : String) :
    Forgets (List.map f) (commaSeparated p closing) (commaSeparated q closing) := by
  refine Agrees.ifText closing (Relates.pure rfl) (Relates.bind h ?_)
  rintro a _ rfl
  refine Relates.bind forgets_stream ?_
  rintro s _ rfl
  refine Relates.bind (forgets_listTail h closing s.rest) ?_
  rintro as _ rfl
  exact Relates.pure rfl

theorem agrees_commaSeparated (h : Agrees Eq p q) (closing : String) :
    Agrees Eq (commaSeparated p closing) (commaSeparated q closing) :=
  (forgets_commaSeparated h.forgets closing).mono fun a b hab => by rw [hab, List.map_id_fun, id]

end

/-! ## Expressions -/

section
variable {inner inner' : Parse Expr}

/-- The recorded heights do not depend on places. -/
theorem nodeHeight_unplaced (s : ParserState) (e : Expr) :
    s.unplaced.nodeHeight e.unplaced = s.nodeHeight e := by
  have hheight : ∀ e : Expr, s.unplaced.height e.unplaced = s.height e := fun e => by
    rw [ParserState.height, Expr.id_unplaced]
    rfl
  simp only [ParserState.nodeHeight, ParserState.maxHeight, Expr.children_unplaced,
    List.foldr_map, hheight]

theorem forgets_build {make make' : Node → Expr} (offset : Nat)
    (h : ∀ n, make' n.unplaced = (make n).unplaced) :
    Forgets Expr.unplaced (build offset make) (build 0 make') := by
  rintro s _ rfl
  have hmake : make' ⟨s.unplaced.nextId, 0⟩ = (make ⟨s.nextId, offset⟩).unplaced :=
    h ⟨s.nextId, offset⟩
  rw [build_apply, build_apply, hmake, nodeHeight_unplaced]
  split
  · exact .error rfl rfl
  · exact .ok rfl rfl

/-- A parser one level of nesting deeper. -/
theorem Agrees.nested {α β : Type} {R : α → β → Prop} {p : Parse α} {q : Parse β}
    (h : Agrees R p q) : Agrees R (nested p) (nested q) := by
  rintro s _ rfl
  by_cases hdepth : s.depth = nestingLimit
  · rw [nested_of_limit hdepth, nested_of_limit (show s.unplaced.depth = nestingLimit from hdepth)]
    exact agrees_tooDeep rfl
  · have hdeeper : Related _ _ R (p s.deeper) (q s.unplaced.deeper) := h rfl
    generalize hp : p s.deeper = x at hdeeper
    generalize hq : q s.unplaced.deeper = y at hdeeper
    cases hdeeper with
    | ok hR hs =>
      have hp' := nested_eq_ok.2 ⟨hdepth, _, hp, rfl⟩
      have hq' := nested_eq_ok (s := s.unplaced).2 ⟨hdepth, _, hq, rfl⟩
      rw [hp', hq', hs]
      exact .ok hR rfl
    | error he hs =>
      have hq' := nested_of_error (s := s.unplaced) hdepth hq
      rw [nested_of_error hdepth hp, hq', hs]
      exact .error he rfl

theorem forgets_literal (t : Token) : Forgets Expr.unplaced (literal t) (literal t.unplaced) := by
  refine Relates.bind agrees_advance fun _ _ _ => ?_
  have hvalue : Literal.ofToken? t.unplaced = Literal.ofToken? t := rfl
  rw [hvalue]
  split
  · exact forgets_build t.offset fun _ => rfl
  · exact Relates.throw rfl

theorem forgets_arguments (h : Forgets Expr.unplaced inner inner') :
    Forgets (List.map Expr.unplaced) (arguments inner) (arguments inner') :=
  forgets_commaSeparated h ")"

theorem forgets_named (h : Forgets Expr.unplaced inner inner') (offset : Nat) :
    Forgets Expr.unplaced (named inner offset) (named inner' 0) := by
  refine Relates.bind (agrees_expectName _) ?_
  rintro x _ rfl
  refine Agrees.ifText "(" (Relates.bind (forgets_arguments h) ?_)
    (forgets_build offset fun _ => rfl)
  rintro es _ rfl
  exact forgets_build offset fun _ => by rw [Expr.unplaced, Expr.unplacedList_eq_map]

theorem forgets_primary (h : Forgets Expr.unplaced inner inner') :
    Forgets Expr.unplaced (primary inner) (primary inner') := by
  refine Relates.bind forgets_stream ?_
  rintro s _ rfl
  have hliteral : s.unplaced.next?.filter Token.isLiteral =
      (s.next?.filter Token.isLiteral).map Token.unplaced := by
    rw [TokenStream.next?_unplaced]
    cases s.next? with
    | none => rfl
    | some t =>
      rw [Option.map_some, Option.filter_some, Option.filter_some]
      show (if t.isLiteral = true then _ else _) = _
      split <;> rfl
  rw [TokenStream.currentOffset_unplaced, hliteral]
  refine Agrees.ifText "NIL" (forgets_build _ fun _ => rfl) ?_
  refine Agrees.ifText "TRUE" (forgets_build _ fun _ => rfl) ?_
  refine Agrees.ifText "FALSE" (forgets_build _ fun _ => rfl) ?_
  cases s.next?.filter Token.isLiteral with
  | some t => exact forgets_literal t
  | none =>
    refine Agrees.ifText "(" (Relates.bind h ?_) (Relates.bind (agrees_peek _) ?_)
    · rintro e _ rfl
      refine Relates.bind (agrees_expectText _ _) fun _ _ _ => ?_
      exact forgets_build _ fun _ => rfl
    · rintro b _ rfl
      split
      · exact forgets_named h _
      · exact Relates.throw (missing_unplaced s _)

theorem forgets_member (h : Forgets Expr.unplaced inner inner') (receiver : Expr) :
    Forgets Expr.unplaced (member inner receiver) (member inner' receiver.unplaced) := by
  refine Relates.bind (forgets_expect _ _) ?_
  rintro t _ rfl
  refine Agrees.ifText "(" (Relates.bind (forgets_arguments h) ?_)
    (forgets_build _ fun _ => rfl)
  rintro es _ rfl
  refine forgets_build _ fun _ => ?_
  rw [Expr.unplaced, Expr.unplacedList_eq_map]
  rfl

theorem forgets_members (h : Forgets Expr.unplaced inner inner') (bound : List Token)
    (receiver : Expr) :
    Forgets Expr.unplaced (members inner bound receiver)
      (members inner' (bound.map Token.unplaced) receiver.unplaced) := by
  induction bound generalizing receiver with
  | nil => exact Relates.pure rfl
  | cons _ bound ih =>
    refine Agrees.ifText "." (Relates.bind (forgets_member h receiver) ?_) (Relates.pure rfl)
    rintro e _ rfl
    exact ih e

theorem forgets_secondary (h : Forgets Expr.unplaced inner inner') :
    Forgets Expr.unplaced (secondary inner) (secondary inner') := by
  refine Relates.bind (forgets_primary h) ?_
  rintro e _ rfl
  refine Relates.bind forgets_stream ?_
  rintro s _ rfl
  exact forgets_members h s.rest e

theorem agrees_peekOperator (operators : List BinaryOperator) :
    Agrees Eq (peekOperator operators) (peekOperator operators) := by
  refine Relates.bind forgets_stream ?_
  rintro s _ rfl
  rw [TokenStream.next?_unplaced]
  rcases s.next? with _ | ⟨kind, text, offset⟩
  · exact Relates.pure rfl
  · cases kind <;> exact Relates.pure rfl

section
variable {operand operand' : Parse Expr}

theorem forgets_chain (operators : List BinaryOperator)
    (h : Forgets Expr.unplaced operand operand') (bound : List Token) (left : Expr) :
    Forgets Expr.unplaced (chain operators operand bound left)
      (chain operators operand' (bound.map Token.unplaced) left.unplaced) := by
  induction bound generalizing left with
  | nil => exact Relates.pure rfl
  | cons _ bound ih =>
    refine Relates.bind (agrees_peekOperator operators) ?_
    rintro o _ rfl
    cases o with
    | none => exact Relates.pure rfl
    | some o =>
      refine Relates.bind agrees_advance fun _ _ _ => Relates.bind h ?_
      rintro right _ rfl
      have hoffset : left.unplaced.offset = 0 := by
        rw [Expr.offset, Expr.node_unplaced]
        rfl
      rw [hoffset]
      refine Relates.bind (forgets_build _ fun _ => rfl) ?_
      rintro joined _ rfl
      exact ih joined

theorem forgets_leftAssociative (operators : List BinaryOperator)
    (h : Forgets Expr.unplaced operand operand') :
    Forgets Expr.unplaced (leftAssociative operators operand)
      (leftAssociative operators operand') := by
  refine Relates.bind h ?_
  rintro left _ rfl
  refine Relates.bind forgets_stream ?_
  rintro s _ rfl
  exact forgets_chain operators h s.rest left

end

theorem forgets_logical (h : Forgets Expr.unplaced inner inner') :
    Forgets Expr.unplaced (logical inner) (logical inner') := by
  have hproducts := forgets_leftAssociative [.mul, .div] (forgets_secondary h)
  have hsums := forgets_leftAssociative [.add, .sub] hproducts
  exact forgets_leftAssociative _ (forgets_leftAssociative _ hsums)

theorem forgets_expression (room : Nat) :
    Forgets Expr.unplaced (expression room) (expression room) := by
  induction room with
  | zero => exact agrees_tooDeep
  | succ room ih => exact (forgets_logical ih).nested

end

/-! ## Statements -/

section
variable {expr expr' : Parse Expr} {stmt stmt' : Parse Stmt}

theorem agrees_atEnd (terminators : List String) :
    Agrees Eq (atEnd terminators) (atEnd terminators) := by
  refine Relates.bind forgets_stream ?_
  rintro s _ rfl
  refine Relates.pure ?_
  simp only [TokenStream.next?_unplaced, TokenStream.peek_unplaced, Option.isNone_map]

theorem forgets_statementsUpTo (h : Forgets Stmt.unplaced stmt stmt') (terminators : List String)
    (bound : List Token) :
    Forgets Stmt.unplacedList (statementsUpTo stmt terminators bound)
      (statementsUpTo stmt' terminators (bound.map Token.unplaced)) := by
  induction bound with
  | nil => exact Relates.pure rfl
  | cons _ bound ih =>
    refine Relates.bind (agrees_atEnd terminators) ?_
    rintro b _ rfl
    split
    · exact Relates.pure rfl
    · refine Relates.bind h ?_
      rintro s _ rfl
      refine Relates.bind ih ?_
      rintro ss _ rfl
      exact Relates.pure rfl

theorem forgets_block (h : Forgets Stmt.unplaced stmt stmt') (terminators : List String) :
    Forgets Stmt.unplacedList (block stmt terminators) (block stmt' terminators) := by
  refine Relates.bind forgets_stream ?_
  rintro s _ rfl
  exact forgets_statementsUpTo h terminators s.rest

theorem forgets_declaration (he : Forgets Expr.unplaced expr expr') :
    Forgets Declaration.unplaced (declaration expr) (declaration expr') := by
  refine Relates.bind forgets_stream ?_
  rintro s _ rfl
  rw [TokenStream.previousOffset_unplaced]
  refine Relates.bind (agrees_expectName _) ?_
  rintro x _ rfl
  refine Relates.bind (agrees_optionalAfter (agrees_expectName _) ":") ?_
  rintro typeName _ rfl
  refine Relates.bind (forgets_optionalAfter he "=") ?_
  rintro value _ rfl
  refine Relates.bind (agrees_expectText _ _) fun _ _ _ => Relates.bind agrees_freshId ?_
  rintro id _ rfl
  exact Relates.pure rfl

theorem forgets_branch (he : Forgets Expr.unplaced expr expr')
    (hs : Forgets Stmt.unplaced stmt stmt') :
    Forgets Stmt.unplaced (branch expr stmt) (branch expr' stmt') := by
  refine Relates.bind he ?_
  rintro c _ rfl
  refine Relates.bind (agrees_expectText _ _) fun _ _ _ => Relates.bind (forgets_block hs _) ?_
  rintro ss _ rfl
  refine Relates.bind (forgets_optionalAfter (forgets_block hs _) "ELSE") ?_
  rintro ss' _ rfl
  refine Relates.bind (agrees_expectText _ _) fun _ _ _ => Relates.pure ?_
  cases ss' <;> rfl

theorem forgets_forEach (he : Forgets Expr.unplaced expr expr')
    (hs : Forgets Stmt.unplaced stmt stmt') :
    Forgets Stmt.unplaced (forEach expr stmt) (forEach expr' stmt') := by
  refine Relates.bind (agrees_expectName _) ?_
  rintro x _ rfl
  refine Relates.bind (agrees_expectText _ _) fun _ _ _ => Relates.bind he ?_
  rintro e _ rfl
  refine Relates.bind (agrees_expectText _ _) fun _ _ _ => Relates.bind (forgets_block hs _) ?_
  rintro ss _ rfl
  exact Relates.bind (agrees_expectText _ _) fun _ _ _ => Relates.pure rfl

theorem forgets_loop (he : Forgets Expr.unplaced expr expr')
    (hs : Forgets Stmt.unplaced stmt stmt') :
    Forgets Stmt.unplaced (loop expr stmt) (loop expr' stmt') := by
  refine Relates.bind he ?_
  rintro c _ rfl
  refine Relates.bind (agrees_expectText _ _) fun _ _ _ => Relates.bind (forgets_block hs _) ?_
  rintro ss _ rfl
  exact Relates.bind (agrees_expectText _ _) fun _ _ _ => Relates.pure rfl

theorem forgets_ret (he : Forgets Expr.unplaced expr expr') :
    Forgets Stmt.unplaced (ret expr) (ret expr') := by
  refine Relates.bind forgets_stream ?_
  rintro s _ rfl
  rw [TokenStream.previousOffset_unplaced]
  refine Relates.bind he ?_
  rintro e _ rfl
  exact Relates.bind (agrees_expectText _ _) fun _ _ _ => Relates.pure rfl

theorem forgets_expressionOrAssignment (he : Forgets Expr.unplaced expr expr') :
    Forgets Stmt.unplaced (expressionOrAssignment expr) (expressionOrAssignment expr') := by
  refine Relates.bind he ?_
  rintro e _ rfl
  refine Relates.bind (forgets_optionalAfter he "=") ?_
  rintro value _ rfl
  refine Relates.bind (agrees_expectText _ _) fun _ _ _ => ?_
  cases value <;> exact Relates.pure rfl

theorem forgets_statementOf (he : Forgets Expr.unplaced expr expr')
    (hs : Forgets Stmt.unplaced stmt stmt') :
    Forgets Stmt.unplaced (statementOf expr stmt) (statementOf expr' stmt') := by
  refine Agrees.ifText "LET" (Relates.bind (forgets_declaration he) ?_) ?_
  · rintro d _ rfl
    exact Relates.pure rfl
  refine Agrees.ifText "IF" (forgets_branch he hs) ?_
  refine Agrees.ifText "FOR" (forgets_forEach he hs) ?_
  refine Agrees.ifText "WHILE" (forgets_loop he hs) ?_
  exact Agrees.ifText "RETURN" (forgets_ret he) (forgets_expressionOrAssignment he)

theorem forgets_statement (room : Nat) :
    Forgets Stmt.unplaced (statement room) (statement room) := by
  induction room with
  | zero => exact agrees_tooDeep
  | succ room ih => exact (forgets_statementOf (forgets_expression room) ih).nested

end

/-! ## Programs -/

theorem forgets_field : Forgets Field.unplaced field field := by
  refine Relates.bind forgets_stream ?_
  rintro s _ rfl
  rw [TokenStream.previousOffset_unplaced]
  refine Relates.bind (agrees_expectName _) ?_
  rintro x _ rfl
  refine Relates.bind (agrees_expectText _ _) fun _ _ _ => Relates.bind (agrees_expectName _) ?_
  rintro typeName _ rfl
  refine Relates.bind (forgets_optionalAfter (forgets_expression _) "=") ?_
  rintro value _ rfl
  refine Relates.bind (agrees_expectText _ _) fun _ _ _ => Relates.bind agrees_freshId ?_
  rintro id _ rfl
  exact Relates.pure rfl

theorem agrees_parameter : Agrees Eq parameter parameter := by
  refine Relates.bind (agrees_expectName _) ?_
  rintro x _ rfl
  refine Relates.bind (agrees_optionalAfter (agrees_expectName _) ":") ?_
  rintro typeName _ rfl
  exact Relates.pure rfl

theorem forgets_method : Forgets Method.unplaced method method := by
  refine Relates.bind forgets_stream ?_
  rintro s _ rfl
  rw [TokenStream.previousOffset_unplaced]
  refine Relates.bind (agrees_expectName _) ?_
  rintro x _ rfl
  refine Relates.bind (agrees_expectText _ _) fun _ _ _ => ?_
  refine Relates.bind (agrees_commaSeparated agrees_parameter ")") ?_
  rintro ps _ rfl
  refine Relates.bind (agrees_optionalAfter (agrees_expectName _) ":") ?_
  rintro resultName _ rfl
  refine Relates.bind (agrees_expectText _ _) fun _ _ _ => ?_
  refine Relates.bind (forgets_block (forgets_statement _) _) ?_
  rintro ss _ rfl
  refine Relates.bind (agrees_expectText _ _) fun _ _ _ => Relates.bind agrees_freshId ?_
  rintro id _ rfl
  exact Relates.pure rfl

theorem forgets_manyAfter {α : Type} {f : α → α} {p q : Parse α} (h : Forgets f p q)
    (text : String) (bound : List Token) :
    Forgets (List.map f) (manyAfter text p bound)
      (manyAfter text q (bound.map Token.unplaced)) := by
  induction bound with
  | nil => exact Relates.pure rfl
  | cons _ bound ih =>
    refine Relates.bind (forgets_optionalAfter h text) ?_
    rintro a _ rfl
    cases a with
    | none => exact Relates.pure rfl
    | some a =>
      refine Relates.bind ih ?_
      rintro as _ rfl
      exact Relates.pure rfl

theorem forgets_source : Forgets Source.unplaced source source := by
  refine Relates.bind forgets_stream ?_
  rintro s _ rfl
  refine Relates.bind (forgets_manyAfter forgets_field "LET" s.rest) ?_
  rintro fields _ rfl
  refine Relates.bind forgets_stream ?_
  rintro s _ rfl
  refine Relates.bind (forgets_manyAfter forgets_method "DEF" s.rest) ?_
  rintro methods _ rfl
  refine Relates.bind forgets_stream ?_
  rintro s _ rfl
  rw [TokenStream.next?_unplaced]
  cases s.next? with
  | none => exact Relates.pure rfl
  | some t => exact Relates.throw rfl

end Parse

/-- What parsing finds, but for offsets, is what it finds on tokens without places. -/
theorem unplaced_parse (ts : List Token) :
    ((parse ts).map Source.unplaced).mapError ParseError.unplaced =
      match Parse.source (ParserState.ofTokens ts).unplaced with
      | .ok s _ => .ok s
      | .error e _ => .error e := by
  have hrun := Parse.forgets_source (s := ParserState.ofTokens ts) rfl
  rw [parse, Parse.onTokens, EStateM.run]
  generalize Parse.source (ParserState.ofTokens ts) = o at hrun
  generalize Parse.source (ParserState.ofTokens ts).unplaced = o' at hrun
  cases hrun with
  | ok hs _ => rw [hs]; rfl
  | error he _ => rw [he]; rfl

/-- Tokens of the same kinds and texts form the same program or fail with the same error, but
    for offsets. -/
theorem unplaced_parse_congr {ts ts' : List Token}
    (h : ts'.map Token.unplaced = ts.map Token.unplaced) :
    ((parse ts').map Source.unplaced).mapError ParseError.unplaced =
      ((parse ts).map Source.unplaced).mapError ParseError.unplaced := by
  have hstate : (ParserState.ofTokens ts').unplaced = (ParserState.ofTokens ts).unplaced := by
    simp only [ParserState.unplaced, ParserState.ofTokens, TokenStream.ofList, TokenStream.unplaced,
      h, Option.map_none]
  rw [unplaced_parse, unplaced_parse, hstate]

end TinyScript
