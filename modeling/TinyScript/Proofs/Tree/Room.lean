import TinyScript.Proofs.Tree.Progress

/-
  The levels that a rule is given are never used up.

  A rule recurs on the number of levels that it may open, its room.  What fails is the
  state's count of open levels: a rule with room for all that the state lets it open does
  the same with any more room.

  * `Parse.SameAt`: two parsers do the same from states with as many open levels;
  * `Parse.sameAt_expression`, `Parse.sameAt_statement`: enough room is enough.
-/

namespace TinyScript

namespace Parse

variable {α β : Type}

/-- The parsers have the same outcome from every state with `d` open levels. -/
def SameAt (d : Nat) (p q : Parse α) : Prop := ∀ s : ParserState, s.depth = d → p s = q s

section
variable {d : Nat} {p q item item' : Parse α} {f g : α → Parse β}

theorem SameAt.refl (p : Parse α) : SameAt d p p := fun _ _ => rfl

/-- What the first part leaves has as many open levels, where it moves forward. -/
theorem SameAt.bind (h : SameAt d p q) (hm : Moves q) (hf : ∀ a, SameAt d (f a) (g a)) :
    SameAt d (p >>= f) (q >>= g) := by
  intro s hs
  cases hq : q s with
  | ok a s' =>
    rw [bind_of_ok ((h s hs).trans hq), bind_of_ok hq]
    exact hf a s' ((hm.of_ok hq).depth.trans hs)
  | error e s' => rw [bind_of_error ((h s hs).trans hq), bind_of_error hq]

theorem SameAt.before (h : SameAt d p q) (f : α → Parse β) : SameAt d (p >>= f) (q >>= f) := by
  intro s hs
  show EStateM.bind p f s = EStateM.bind q f s
  rw [EStateM.bind, EStateM.bind, h s hs]

theorem SameAt.after (hm : Moves p) (hf : ∀ a, SameAt d (f a) (g a)) :
    SameAt d (p >>= f) (p >>= g) := (refl p).bind hm hf

theorem SameAt.ifText {p' q' : Parse α} (h : SameAt d p q) (h' : SameAt d p' q') (text : String) :
    SameAt d (do if ← acceptText text then p else p') (do if ← acceptText text then q else q') := by
  refine .after (moves_acceptText text) fun b => ?_
  cases b with
  | false => exact h'
  | true => exact h

/-- One level deeper the parsers matter only where a level is left. -/
theorem SameAt.nested (h : d ≠ nestingLimit → SameAt (d + 1) p q) :
    SameAt d (nested p) (nested q) := by
  intro s hs
  by_cases hdepth : s.depth = nestingLimit
  · rw [nested_of_limit hdepth, nested_of_limit hdepth]
  · have hdeeper : s.deeper.depth = d + 1 := by rw [ParserState.depth_deeper, hs]
    rw [Parse.nested, Parse.nested, if_neg hdepth, if_neg hdepth, h (hs ▸ hdepth) _ hdeeper]

theorem sameAt_tooDeep (q : Parse α) : SameAt nestingLimit tooDeep (nested q) :=
  fun _ hs => (nested_of_limit hs).symm

theorem sameAt_optionalAfter (h : SameAt d p q) (text : String) :
    SameAt d (optionalAfter text p) (optionalAfter text q) :=
  SameAt.ifText (h.before _) (.refl _) text

variable (h : SameAt d item item') (hm : Moves item')
include h hm

theorem sameAt_listTail (closing : String) : (bound : List Token) →
    SameAt d (listTail item closing bound) (listTail item' closing bound)
  | [] => .refl _
  | _ :: bound => by
    refine SameAt.ifText (.refl _) (.after (moves_expectText _ _) fun _ => ?_) closing
    exact h.bind hm fun _ => (sameAt_listTail closing bound).before _

theorem sameAt_commaSeparated (closing : String) :
    SameAt d (commaSeparated item closing) (commaSeparated item' closing) := by
  refine SameAt.ifText (.refl _) (h.bind hm fun _ => .after moves_stream fun _ => ?_) closing
  exact (sameAt_listTail h hm closing _).before _

end

/-! ## Expressions -/

section
variable {d : Nat} {inner inner' : Parse Expr} (h : SameAt d inner inner') (hm : Moves inner')
include h hm

theorem sameAt_named (offset : Nat) : SameAt d (named inner offset) (named inner' offset) := by
  refine .after (moves_expectName _) fun name => ?_
  exact SameAt.ifText ((sameAt_commaSeparated h hm ")").before _) (.refl _) "("

theorem sameAt_primary : SameAt d (primary inner) (primary inner') := by
  refine .after moves_stream fun s => ?_
  refine SameAt.ifText (.refl _) (SameAt.ifText (.refl _) (SameAt.ifText (.refl _) ?_ _) _) _
  cases s.next?.filter Token.isLiteral with
  | some t => exact .refl _
  | none =>
    refine SameAt.ifText (h.before _) (.after (moves_peek _) fun b => ?_) "("
    cases b with
    | true => exact sameAt_named h hm _
    | false => exact .refl _

theorem sameAt_member (receiver : Expr) :
    SameAt d (member inner receiver) (member inner' receiver) := by
  refine .after (moves_expect _ _) fun name => ?_
  exact SameAt.ifText ((sameAt_commaSeparated h hm ")").before _) (.refl _) "("

theorem sameAt_members : (bound : List Token) → (receiver : Expr) →
    SameAt d (members inner bound receiver) (members inner' bound receiver)
  | [], _ => .refl _
  | _ :: bound, receiver =>
    SameAt.ifText ((sameAt_member h hm receiver).bind (moves_member hm receiver)
      fun e => sameAt_members bound e) (.refl _) "."

theorem sameAt_secondary : SameAt d (secondary inner) (secondary inner') :=
  (sameAt_primary h hm).bind (moves_primary hm) fun e =>
    .after moves_stream fun _ => sameAt_members h hm _ e

end

section
variable {d : Nat} {operand operand' : Parse Expr} (h : SameAt d operand operand')
  (hm : Moves operand') (operators : List BinaryOperator)
include h hm

theorem sameAt_chain : (bound : List Token) → (left : Expr) →
    SameAt d (chain operators operand bound left) (chain operators operand' bound left)
  | [], _ => .refl _
  | _ :: bound, left => by
    refine .after (moves_peekOperator operators) fun o => ?_
    cases o with
    | none => exact .refl _
    | some operator =>
      have hrest : SameAt d (do
          let right ← operand
          let joined ← build left.offset (.binary · operator left right)
          chain operators operand bound joined) (do
          let right ← operand'
          let joined ← build left.offset (.binary · operator left right)
          chain operators operand' bound joined) :=
        h.bind hm fun _ => .after moves_build fun joined => sameAt_chain bound joined
      exact fun s hs => hrest s.next hs

theorem sameAt_leftAssociative :
    SameAt d (leftAssociative operators operand) (leftAssociative operators operand') :=
  h.bind hm fun left => .after moves_stream fun _ => sameAt_chain h hm operators _ left

end

theorem sameAt_logical {d : Nat} {inner inner' : Parse Expr} (h : SameAt d inner inner')
    (hm : Moves inner') : SameAt d (logical inner) (logical inner') := by
  have hsecondary := moves_secondary hm
  have hproduct := moves_leftAssociative hsecondary [.mul, .div]
  have hsum := moves_leftAssociative hproduct [.add, .sub]
  have hcomparison := moves_leftAssociative hsum
    [.less, .lessEqual, .greater, .greaterEqual, .equal, .notEqual]
  refine sameAt_leftAssociative (sameAt_leftAssociative ?_ hsum _) hcomparison _
  exact sameAt_leftAssociative
    (sameAt_leftAssociative (sameAt_secondary h hm) hsecondary _) hproduct _

/-- Two expressions with room for all levels that are left. -/
theorem sameAt_expression {d : Nat} (hd : d ≤ nestingLimit) : {room room' : Nat} →
    nestingLimit ≤ d + room → nestingLimit ≤ d + room' →
    SameAt d (expression room) (expression room')
  | 0, 0, _, _ => .refl _
  | 0, room' + 1, h, _ => by
    cases Nat.le_antisymm hd h
    exact sameAt_tooDeep _
  | room + 1, 0, _, h => by
    cases Nat.le_antisymm hd h
    exact fun s hs => (sameAt_tooDeep _ s hs).symm
  | room + 1, room' + 1, h, h' => by
    refine SameAt.nested fun hne => sameAt_logical ?_ (moves_expression room')
    exact sameAt_expression (by omega) (by omega) (by omega)

/-! ## Statements -/

section
variable {d : Nat} {expression expression' : Parse Expr} {statement statement' : Parse Stmt}
  (he : SameAt d expression expression') (hem : Moves expression')
  (hs : SameAt d statement statement') (hsm : Moves statement')

section
include hs hsm

theorem sameAt_statementsUpTo (terminators : List String) : (bound : List Token) →
    SameAt d (statementsUpTo statement terminators bound)
      (statementsUpTo statement' terminators bound)
  | [] => .refl _
  | _ :: bound => by
    refine .after (moves_stream.bind fun _ => .pure _) fun b => ?_
    cases b with
    | true => exact .refl _
    | false => exact hs.bind hsm fun _ => (sameAt_statementsUpTo terminators bound).before _

theorem sameAt_block (terminators : List String) :
    SameAt d (block statement terminators) (block statement' terminators) :=
  .after moves_stream fun _ => sameAt_statementsUpTo hs hsm terminators _

end

include he

theorem sameAt_declaration : SameAt d (declaration expression) (declaration expression') := by
  refine .after moves_stream fun _ => .after (moves_expectName _) fun _ => ?_
  refine .after (moves_optionalAfter (moves_expectName _) ":") fun _ => ?_
  exact (sameAt_optionalAfter he "=").before _

include hem

theorem sameAt_expressionOrAssignment :
    SameAt d (expressionOrAssignment expression) (expressionOrAssignment expression') :=
  he.bind hem fun _ => (sameAt_optionalAfter he "=").before _

include hs hsm

theorem sameAt_branch : SameAt d (branch expression statement) (branch expression' statement') := by
  refine he.bind hem fun _ => .after (moves_expectText _ _) fun _ => ?_
  refine (sameAt_block hs hsm _).bind (moves_block hsm _) fun _ => ?_
  exact (sameAt_optionalAfter (sameAt_block hs hsm _) "ELSE").before _

theorem sameAt_forEach :
    SameAt d (forEach expression statement) (forEach expression' statement') := by
  refine .after (moves_expectName _) fun _ => .after (moves_expectText _ _) fun _ => ?_
  refine he.bind hem fun _ => .after (moves_expectText _ _) fun _ => ?_
  exact (sameAt_block hs hsm _).before _

theorem sameAt_loop : SameAt d (loop expression statement) (loop expression' statement') := by
  refine he.bind hem fun _ => .after (moves_expectText _ _) fun _ => ?_
  exact (sameAt_block hs hsm _).before _

theorem sameAt_statementOf :
    SameAt d (statementOf expression statement) (statementOf expression' statement') := by
  refine SameAt.ifText ((sameAt_declaration he).before _) ?_ "LET"
  refine SameAt.ifText (sameAt_branch he hem hs hsm) ?_ "IF"
  refine SameAt.ifText (sameAt_forEach he hem hs hsm) ?_ "FOR"
  refine SameAt.ifText (sameAt_loop he hem hs hsm) ?_ "WHILE"
  refine SameAt.ifText (.after moves_stream fun _ => he.before _) ?_ "RETURN"
  exact sameAt_expressionOrAssignment he hem

end

/-- Two statements with room for all levels that are left. -/
theorem sameAt_statement {d : Nat} (hd : d ≤ nestingLimit) : {room room' : Nat} →
    nestingLimit ≤ d + room → nestingLimit ≤ d + room' →
    SameAt d (statement room) (statement room')
  | 0, 0, _, _ => .refl _
  | 0, room' + 1, h, _ => by
    cases Nat.le_antisymm hd h
    exact sameAt_tooDeep _
  | room + 1, 0, _, h => by
    cases Nat.le_antisymm hd h
    exact fun s hs => (sameAt_tooDeep _ s hs).symm
  | room + 1, room' + 1, h, h' => by
    refine SameAt.nested fun hne => ?_
    have hopen : d + 1 ≤ nestingLimit := by omega
    have hexpression : SameAt (d + 1) (expression room) (expression room') :=
      sameAt_expression hopen (by omega) (by omega)
    exact sameAt_statementOf hexpression (moves_expression room')
      (sameAt_statement hopen (by omega) (by omega)) (moves_statement room')

end Parse

end TinyScript
