import TinyScript.Proofs.Tree.Parts
import TinyScript.Proofs.Tree.Progress

/-
  How high expressions and how deep statements are.

  An expression is recorded with its height as it is created, and the height of a node is
  told from the records of its children, not from the trees.  The record is always the height
  of the tree, also after whatever the parser does next, and never more than `nestingLimit`;
  neither are there more statements in one another than that.

  * `ParserState.Records`: the expressions among some parts are recorded with the heights of
    their trees, which are not too great;
  * `Parse.Gives`, `Parse.GivesAt`: what holds of the results of a parser in the states that
    it leaves;
  * `Created`: the expressions that the rules create;
  * `Created.known`: they are recorded, from then on;
  * `Stmt.nesting`: how many statements stand in one another;
  * `Parse.gives_statement`, `Parse.gives_source`: how many there can be.
-/

namespace TinyScript

/-! ## Heights -/

theorem Expr.height_eq (e : Expr) : e.height = Expr.heightList e.children + 1 := by
  cases e <;> simp [Expr.height, Expr.children, Expr.heightList]

namespace ParserState

/-- The expressions among the parts have been given identities, are recorded with the heights
    of their trees, and are not too high. -/
def Records (s : ParserState) (ps : List Part) : Prop :=
  ∀ e, Part.expr e ∈ ps →
    e.id < s.nextId ∧ s.heights[e.id]? = some e.height ∧ e.height ≤ nestingLimit

/-- The expression and all expressions in it are recorded. -/
abbrev Knows (s : ParserState) (e : Expr) : Prop := s.Records e.parts

variable {s s' : ParserState} {ps qs : List Part} {e : Expr}

/-- What is recorded stays so. -/
theorem Records.mono (h : s.Records ps) (hs : s.Onward s') : s'.Records ps := by
  intro e he
  obtain ⟨hid, hheight, hlow⟩ := h e he
  exact ⟨Nat.lt_of_lt_of_le hid hs.nextId, (hs.heights e.id hid).trans hheight, hlow⟩

/-- Passing a token touches no record. -/
theorem Records.next (h : s.Records ps) : s.next.Records ps := h

theorem Records.nil : s.Records [] := nofun

theorem Records.append (hp : s.Records ps) (hq : s.Records qs) : s.Records (ps ++ qs) :=
  fun e he => (List.mem_append.1 he).elim (hp e) (hq e)

theorem Records.flatMap {α : Type} {f : α → List Part} {as : List α}
    (h : ∀ a ∈ as, s.Records (f a)) : s.Records (as.flatMap f) := by
  intro e he
  obtain ⟨a, ha, he⟩ := List.mem_flatMap.1 he
  exact h a ha e he

/-- A part that is no expression has no height. -/
theorem Records.other {p : Part} (h : s.Records ps) (hp : ∀ e, Part.expr e ≠ p) :
    s.Records (ps ++ [p]) :=
  h.append fun e he => absurd (List.mem_singleton.1 he) (hp e)

theorem Records.optional {value : Option Expr} (h : ∀ e ∈ value, s.Knows e) :
    s.Records (Expr.optionalParts value) := by
  cases value with
  | none => exact .nil
  | some e => exact h e rfl

theorem Knows.self (h : s.Knows e) :
    e.id < s.nextId ∧ s.heights[e.id]? = some e.height ∧ e.height ≤ nestingLimit :=
  h e (List.mem_map.2 ⟨e, e.self_mem_subs, rfl⟩)

theorem Knows.height (h : s.Knows e) : s.height e = e.height := by
  rw [ParserState.height, h.self.2.1, Option.getD_some]

theorem maxHeight_of_knows {es : List Expr} (h : ∀ e ∈ es, s.Knows e) :
    s.maxHeight es = Expr.heightList es := by
  induction es with
  | nil => rfl
  | cons e es ih =>
    obtain ⟨he, hes⟩ := List.forall_mem_cons.1 h
    rw [Expr.heightList, ← he.height, ← ih hes]
    rfl

/-- The height of a node over known children is told right. -/
theorem nodeHeight_of_knows (h : ∀ e' ∈ e.children, s.Knows e') : s.nodeHeight e = e.height := by
  rw [nodeHeight, maxHeight_of_knows h, Expr.height_eq]

/-- A new node over known children is known once it is recorded. -/
theorem knows_record (h : ∀ e' ∈ e.children, s.Knows e') (hid : e.id = s.nextId)
    (hlow : e.height ≤ nestingLimit) : (s.record e.height).Knows e := by
  have hchildren : s.Records (e.children.flatMap Expr.parts) := .flatMap h
  rw [Knows, Expr.parts_eq]
  refine (hchildren.mono (.record s _)).append fun e' he' => ?_
  cases List.mem_singleton.1 he'
  refine ⟨hid ▸ Nat.lt_succ_self _, ?_, hlow⟩
  rw [getElem?_heights_record, if_pos hid.symm]

end ParserState

namespace Parse

variable {α β : Type}

/-- What holds of the result of the parser from this state, in the state that it leaves. -/
def GivesAt (P : ParserState → α → Prop) (p : Parse α) (s : ParserState) : Prop :=
  ∀ a s', p s = .ok a s' → P s' a

/-- The same from every state. -/
def Gives (P : ParserState → α → Prop) (p : Parse α) : Prop := ∀ s, GivesAt P p s

/-- What holds of a result holds of it from then on. -/
def Lasting (P : ParserState → α → Prop) : Prop :=
  ∀ ⦃a s s'⦄, P s a → s.Onward s' → P s' a

theorem lasting_knows : Lasting ParserState.Knows := fun _ _ _ => ParserState.Records.mono

section
variable {P : ParserState → α → Prop} {Q : ParserState → β → Prop} {p q item : Parse α}
  {s : ParserState}

theorem GivesAt.bind {f : α → Parse β} (h : GivesAt P p s) (hm : Moves p)
    (hf : ∀ a s', s.Onward s' → P s' a → GivesAt Q (f a) s') : GivesAt Q (p >>= f) s := by
  intro b s' hb
  obtain ⟨a, s₁, ha, hb⟩ := bind_eq_ok.1 hb
  exact hf a s₁ (hm.of_ok ha) (h a s₁ ha) b s' hb

/-- What comes before leaves what has been recorded. -/
theorem GivesAt.after {f : α → Parse β} (hm : Moves p)
    (hf : ∀ a s', s.Onward s' → GivesAt Q (f a) s') : GivesAt Q (p >>= f) s :=
  GivesAt.bind (P := fun _ _ => True) (fun _ _ _ => trivial) hm fun a s' hs _ => hf a s' hs

/-- What comes before does not matter. -/
theorem Gives.after {f : α → Parse β} (hf : ∀ a, Gives Q (f a)) : Gives Q (p >>= f) := by
  intro s b s' hb
  obtain ⟨a, s₁, -, hb⟩ := bind_eq_ok.1 hb
  exact hf a s₁ b s' hb

theorem GivesAt.pure {a : α} (h : P s a) : GivesAt P (pure a) s := by
  rintro _ _ ⟨⟩
  exact h

theorem GivesAt.throw (e : ParseError) : GivesAt P (throw e) s := fun _ _ h => nomatch h

theorem GivesAt.ifText (hp : ∀ s', s.Onward s' → GivesAt P p s')
    (hq : ∀ s', s.Onward s' → GivesAt P q s') (text : String) :
    GivesAt P (do if ← acceptText text then p else q) s := by
  refine GivesAt.after (moves_acceptText text) fun b s' hs => ?_
  cases b with
  | false => exact hq s' hs
  | true => exact hp s' hs

theorem Gives.ifText (hp : Gives P p) (hq : Gives P q) (text : String) :
    Gives P (do if ← acceptText text then p else q) :=
  fun _ => .ifText (fun s' _ => hp s') (fun s' _ => hq s') text

theorem gives_tooDeep : Gives P tooDeep := Gives.after fun _ _ => .throw _

/-- What holds of a result whatever the number of open levels. -/
theorem gives_nested (h : Gives P p) (hP : ∀ {a s}, P s a → P s.shallower a) :
    Gives P (nested p) := by
  intro s a s' ha
  obtain ⟨-, t, ht, rfl⟩ := nested_eq_ok.1 ha
  exact hP (h s.deeper a t ht)

theorem gives_optionalAfter (h : Gives P p) (text : String) :
    Gives (fun s o => ∀ a ∈ o, P s a) (optionalAfter text p) := by
  refine Gives.ifText (fun s o s' ho => ?_) (fun _ => .pure nofun) text
  obtain ⟨a, s₁, ha, ho⟩ := bind_eq_ok.1 ho
  cases ho
  rintro _ ⟨⟩
  exact h s a s' ha

section
variable (hP : Lasting P) (hm : Moves item) (h : Gives P item)
include hP hm h

theorem gives_listTail (closing : String) : (bound : List Token) →
    Gives (fun s as => ∀ a ∈ as, P s a) (listTail item closing bound)
  | [] => Gives.after fun _ _ => .throw _
  | _ :: bound => by
    refine Gives.ifText (fun _ => .pure (List.forall_mem_nil _)) (Gives.after fun _ s => ?_) closing
    refine (h s).bind hm fun a s₁ _ ha => ?_
    refine (gives_listTail closing bound s₁).bind (moves_listTail hm closing bound)
      fun as s₂ hs has => .pure ?_
    exact List.forall_mem_cons.2 ⟨hP ha hs, has⟩

theorem gives_commaSeparated (closing : String) :
    Gives (fun s as => ∀ a ∈ as, P s a) (commaSeparated item closing) := by
  refine Gives.ifText (fun _ => .pure (List.forall_mem_nil _)) (fun s => ?_) closing
  refine (h s).bind hm fun a s₁ _ ha => GivesAt.after moves_stream fun st s₂ hs => ?_
  refine (gives_listTail hP hm h closing _ s₂).bind (moves_listTail hm closing _)
    fun as s₃ hs' has => .pure ?_
  exact List.forall_mem_cons.2 ⟨hP ha (hs.trans hs'), has⟩

end

end

/-! ## Expressions -/

open ParserState

variable {s : ParserState}

/-- A new node over known children is known. -/
theorem givesAt_build {offset : Nat} {make : Node → Expr} (hnode : ∀ n, (make n).node = n)
    (h : ∀ n, ∀ e ∈ (make n).children, s.Knows e) : GivesAt Knows (build offset make) s := by
  intro e s' he
  obtain ⟨rfl, hlow, rfl⟩ := build_eq_ok.1 he
  rw [nodeHeight_of_knows (h _)] at hlow ⊢
  exact knows_record (h _) (congrArg Node.id (hnode _)) hlow

/-- A new node without children is known. -/
theorem gives_leaf {offset : Nat} {make : Node → Expr} (hnode : ∀ n, (make n).node = n)
    (h : ∀ n, (make n).children = []) : Gives Knows (build offset make) :=
  fun _ => givesAt_build hnode fun n e he => by rw [h n] at he; cases he

theorem gives_literal (t : Token) : Gives Knows (literal t) := by
  refine Gives.after fun _ => ?_
  cases Literal.ofToken? t with
  | none => exact fun _ => .throw _
  | some value => exact gives_leaf (fun _ => rfl) fun _ => rfl

section
variable {inner : Parse Expr} (hm : Moves inner) (h : Gives Knows inner)
include hm h

theorem gives_arguments : Gives (fun s es => ∀ e ∈ es, s.Knows e) (arguments inner) :=
  gives_commaSeparated lasting_knows hm h ")"

theorem gives_named (offset : Nat) : Gives Knows (named inner offset) := by
  refine Gives.after fun name => Gives.ifText (fun s => ?_) (gives_leaf (fun _ => rfl) fun _ => rfl)
    "("
  refine (gives_arguments hm h s).bind (moves_arguments hm) fun args s' _ hargs => ?_
  exact givesAt_build (fun _ => rfl) fun _ => hargs

theorem gives_primary : Gives Knows (primary inner) := by
  have hword : ∀ offset value, Gives Knows (build offset (.literal · value)) :=
    fun _ _ => gives_leaf (fun _ => rfl) fun _ => rfl
  refine Gives.after fun st => ?_
  refine Gives.ifText (hword _ _) (Gives.ifText (hword _ _) (Gives.ifText (hword _ _) ?_ _) _) _
  cases st.next?.filter Token.isLiteral with
  | some t => exact gives_literal t
  | none =>
    refine Gives.ifText (fun s => ?_) (Gives.after fun b => ?_) "("
    · refine (h s).bind hm fun e s₁ _ he => GivesAt.after (moves_expectText _ _) fun _ s₂ hs => ?_
      exact givesAt_build (fun _ => rfl) fun _ => List.forall_mem_singleton.2 (he.mono hs)
    · cases b with
      | true => exact gives_named hm h _
      | false => exact fun _ => .throw _

theorem givesAt_member {receiver : Expr} (hr : s.Knows receiver) :
    GivesAt Knows (member inner receiver) s := by
  refine GivesAt.after (moves_expect _ _) fun name s₁ hs₁ => ?_
  refine GivesAt.ifText (fun s₂ hs₂ => ?_) (fun s₂ hs₂ => ?_) "("
  · refine (gives_arguments hm h s₂).bind (moves_arguments hm) fun args s₃ hs₃ hargs => ?_
    have hreceiver : s₃.Knows receiver := hr.mono ((hs₁.trans hs₂).trans hs₃)
    exact givesAt_build (fun _ => rfl) fun _ => List.forall_mem_cons.2 ⟨hreceiver, hargs⟩
  · have hreceiver : s₂.Knows receiver := hr.mono (hs₁.trans hs₂)
    exact givesAt_build (fun _ => rfl) fun _ => List.forall_mem_singleton.2 hreceiver

theorem givesAt_members : (bound : List Token) → {receiver : Expr} → {s : ParserState} →
    s.Knows receiver → GivesAt Knows (members inner bound receiver) s
  | [], _, _, hr => .pure hr
  | _ :: bound, _, _, hr => by
    refine GivesAt.ifText (fun s₁ hs₁ => ?_) (fun s₁ hs₁ => .pure (lasting_knows hr hs₁)) "."
    refine (givesAt_member hm h (hr.mono hs₁)).bind (moves_member hm _) fun e s₂ _ he => ?_
    exact givesAt_members bound he

theorem gives_secondary : Gives Knows (secondary inner) := fun s =>
  (gives_primary hm h s).bind (moves_primary hm) fun _ _ _ he =>
    GivesAt.after moves_stream fun _ _ hs => givesAt_members hm h _ (he.mono hs)

theorem givesAt_chain (operators : List BinaryOperator) : (bound : List Token) → {left : Expr} →
    {s : ParserState} → s.Knows left → GivesAt Knows (chain operators inner bound left) s
  | [], _, _, hl => .pure hl
  | _ :: bound, left, s, hl => by
    refine GivesAt.after (moves_peekOperator operators) fun o s₁ hs₁ => ?_
    cases o with
    | none => exact .pure (lasting_knows hl hs₁)
    | some operator =>
      have hnext : s₁.next.Knows left := (lasting_knows hl hs₁).next
      refine fun e s' he => (h s₁.next).bind hm (fun right s₂ hs₂ hr => ?_) e s' he
      have hjoined : GivesAt Knows (build left.offset (.binary · operator left right)) s₂ :=
        givesAt_build (fun _ => rfl) fun _ => List.forall_mem_cons.2
          ⟨hnext.mono hs₂, List.forall_mem_singleton.2 hr⟩
      exact hjoined.bind moves_build fun _ _ _ he => givesAt_chain operators bound he

theorem gives_leftAssociative (operators : List BinaryOperator) :
    Gives Knows (leftAssociative operators inner) := fun s =>
  (h s).bind hm fun _ _ _ hl =>
    GivesAt.after moves_stream fun _ _ hs => givesAt_chain hm h operators _ (hl.mono hs)

theorem gives_logical : Gives Knows (logical inner) := by
  have hs := moves_secondary hm
  have hproduct := moves_leftAssociative hs [.mul, .div]
  have hsum := moves_leftAssociative hproduct [.add, .sub]
  have hcomparison := moves_leftAssociative hsum
    [.less, .lessEqual, .greater, .greaterEqual, .equal, .notEqual]
  refine gives_leftAssociative hcomparison ?_ _
  refine gives_leftAssociative hsum (gives_leftAssociative hproduct ?_ _) _
  exact gives_leftAssociative hs (gives_secondary hm h) _

end

theorem gives_expression : (room : Nat) → Gives Knows (expression room)
  | 0 => gives_tooDeep
  | room + 1 => gives_nested (gives_logical (moves_expression room) (gives_expression room)) id

end Parse

open Parse

/-- The rules for expressions that go on from nothing but the tokens ahead. -/
inductive ExprLevel : Parse Expr → Prop
  | named {inner : Parse Expr} (offset : Nat) : ExprLevel inner → ExprLevel (named inner offset)
  | primary {inner : Parse Expr} : ExprLevel inner → ExprLevel (primary inner)
  | secondary {inner : Parse Expr} : ExprLevel inner → ExprLevel (secondary inner)
  | leftAssociative {operand : Parse Expr} (operators : List BinaryOperator) :
      ExprLevel operand → ExprLevel (leftAssociative operators operand)
  | expression (room : Nat) : ExprLevel (expression room)

mutual

/-- The rules that create expressions from a state, whatever the expressions further in. -/
inductive ExprRule : ParserState → Parse Expr → Prop
  | level {s : ParserState} {p : Parse Expr} : ExprLevel p → ExprRule s p
  | build {s : ParserState} {offset : Nat} {make : Node → Expr} : (∀ n, (make n).node = n) →
      (∀ n, ∀ e ∈ (make n).children, Created s e) → ExprRule s (build offset make)
  | literal {s : ParserState} (t : Token) : ExprRule s (literal t)
  | member {s : ParserState} {inner : Parse Expr} {receiver : Expr} : ExprLevel inner →
      Created s receiver → ExprRule s (member inner receiver)
  | members {s : ParserState} {inner : Parse Expr} {receiver : Expr} (bound : List Token) :
      ExprLevel inner → Created s receiver → ExprRule s (members inner bound receiver)
  | chain {s : ParserState} {operand : Parse Expr} {left : Expr} (operators : List BinaryOperator)
      (bound : List Token) : ExprLevel operand → Created s left →
      ExprRule s (chain operators operand bound left)

/-- The expressions that have been created before a state, wherever a rule was applied and
    whatever became of them. -/
inductive Created : ParserState → Expr → Prop
  | intro {p : Parse Expr} {s s' s'' : ParserState} {e : Expr} : ExprRule s p → p s = .ok e s' →
      s'.Onward s'' → Created s'' e

end

theorem ExprLevel.moves {p : Parse Expr} (h : ExprLevel p) : Moves p := by
  induction h with
  | named offset _ ih => exact moves_named ih offset
  | primary _ ih => exact moves_primary ih
  | secondary _ ih => exact moves_secondary ih
  | leftAssociative operators _ ih => exact moves_leftAssociative ih operators
  | expression room => exact moves_expression room

theorem ExprLevel.gives {p : Parse Expr} (h : ExprLevel p) : Gives ParserState.Knows p := by
  induction h with
  | named offset hi ih => exact gives_named hi.moves ih offset
  | primary hi ih => exact gives_primary hi.moves ih
  | secondary hi ih => exact gives_secondary hi.moves ih
  | leftAssociative operators ho ih => exact gives_leftAssociative ho.moves ih operators
  | expression room => exact gives_expression room

mutual

theorem ExprRule.gives {s : ParserState} {p : Parse Expr} :
    ExprRule s p → GivesAt ParserState.Knows p s
  | .level hp => hp.gives s
  | .build hnode h => givesAt_build hnode fun n e he => (h n e he).known
  | .literal t => gives_literal t s
  | .member hi hr => givesAt_member hi.moves hi.gives hr.known
  | .members bound hi hr => givesAt_members hi.moves hi.gives bound hr.known
  | .chain operators bound ho hl => givesAt_chain ho.moves ho.gives operators bound hl.known

/-- Every expression that has been created is recorded with the height of its tree, from then
    on, and so are the expressions in it. -/
theorem Created.known {s : ParserState} {e : Expr} : Created s e → s.Knows e
  | .intro hp he hs => (hp.gives _ _ he).mono hs

end

/-! ## Nesting -/

mutual

/-- The number of statements that stand in one another, on the path on which they are most. -/
def Stmt.nesting : Stmt → Nat
  | .branch _ thenBody elseBody => max (nestingList thenBody) (nestingList elseBody) + 1
  | .forEach _ _ body | .loop _ body => nestingList body + 1
  | .expression _ | .declare _ | .assign _ _ | .ret _ _ => 1
termination_by structural s => s

def Stmt.nestingList : List Stmt → Nat
  | [] => 0
  | s :: ss => max s.nesting (nestingList ss)
termination_by structural ss => ss

end

/-- At most `n` statements stand in one another, and the expressions in them are known. -/
def Stmt.Fits (n : Nat) (s : ParserState) (st : Stmt) : Prop := st.nesting ≤ n ∧ s.Records st.parts

/-- The same of some statements. -/
def Stmts.Fit (n : Nat) (s : ParserState) (ss : List Stmt) : Prop :=
  Stmt.nestingList ss ≤ n ∧ s.Records (Stmt.partsList ss)

/-- The same of a method. -/
def Method.Fits (n : Nat) (s : ParserState) (m : Method) : Prop :=
  Stmt.nestingList m.body ≤ n ∧ s.Records m.parts

/-- The same of a program. -/
def Source.Fits (n : Nat) (s : ParserState) (p : Source) : Prop :=
  (∀ m ∈ p.methods, Stmt.nestingList m.body ≤ n) ∧ s.Records p.parts

namespace Parse

section
variable {expression : Parse Expr} {statement : Parse Stmt} {n : Nat}

section
variable (hsm : Moves statement) (hs : Gives (Stmt.Fits n) statement)
include hsm hs

theorem gives_statementsUpTo (terminators : List String) : (bound : List Token) →
    Gives (Stmts.Fit n) (statementsUpTo statement terminators bound)
  | [] => fun _ => .pure ⟨Nat.zero_le n, .nil⟩
  | _ :: bound => by
    refine Gives.after fun b s => ?_
    cases b with
    | true => exact .pure ⟨Nat.zero_le n, .nil⟩
    | false =>
      refine (hs s).bind hsm fun st s₁ _ hst => ?_
      refine (gives_statementsUpTo terminators bound s₁).bind
        (moves_statementsUpTo hsm terminators bound) fun ss s₂ hs₂ hss => .pure ?_
      exact ⟨Nat.max_le.2 ⟨hst.1, hss.1⟩, (hst.2.mono hs₂).append hss.2⟩

theorem gives_block (terminators : List String) :
    Gives (Stmts.Fit n) (block statement terminators) :=
  Gives.after fun _ => gives_statementsUpTo hsm hs terminators _

end

section
variable (he : Gives ParserState.Knows expression)
include he

/-- An optional expression. -/
theorem gives_value (text : String) :
    Gives (fun s value => s.Records (Expr.optionalParts value)) (optionalAfter text expression) :=
  fun s value s' h => .optional (gives_optionalAfter he text s value s' h)

variable (hem : Moves expression)
include hem

theorem gives_declaration : Gives (fun s d => s.Records (Stmt.parts (.declare d)))
    (declaration expression) := by
  refine Gives.after fun _ => Gives.after fun _ => Gives.after fun _ s => ?_
  refine (gives_value he "=" s).bind (moves_optionalAfter hem "=") fun value s₁ _ hvalue => ?_
  refine GivesAt.after (moves_expectText _ _) fun _ s₂ hs₂ => ?_
  refine GivesAt.after moves_freshId fun id s₃ hs₃ => .pure ?_
  exact (hvalue.mono (hs₂.trans hs₃)).other nofun

theorem gives_ret : Gives (Stmt.Fits (n + 1)) (ret expression) :=
  Gives.after fun _ s => (he s).bind hem fun _ _ _ hvalue =>
    GivesAt.after (moves_expectText _ _) fun _ _ hs =>
      .pure ⟨Nat.le_add_left 1 n, hvalue.mono hs⟩

theorem gives_expressionOrAssignment :
    Gives (Stmt.Fits (n + 1)) (expressionOrAssignment expression) := by
  refine fun s => (he s).bind hem fun receiver s₁ _ hr => ?_
  refine (gives_value he "=" s₁).bind (moves_optionalAfter hem "=") fun value s₂ hs₂ hvalue => ?_
  refine GivesAt.after (moves_expectText _ _) fun _ s₃ hs₃ => ?_
  have hreceiver := hr.mono (hs₂.trans hs₃)
  cases value with
  | none => exact .pure ⟨Nat.le_add_left 1 n, hreceiver⟩
  | some value => exact .pure ⟨Nat.le_add_left 1 n, hreceiver.append (hvalue.mono hs₃)⟩

variable (hsm : Moves statement) (hs : Gives (Stmt.Fits n) statement)
include hsm hs

theorem gives_branch : Gives (Stmt.Fits (n + 1)) (branch expression statement) := by
  refine fun s => (he s).bind hem fun c s₁ _ hc => ?_
  refine GivesAt.after (moves_expectText _ _) fun _ s₂ hs₂ => ?_
  refine (gives_block hsm hs _ s₂).bind (moves_block hsm _) fun ss s₃ hs₃ hss => ?_
  refine (gives_optionalAfter (gives_block hsm hs _) "ELSE" s₃).bind
    (moves_optionalAfter (moves_block hsm _) "ELSE") fun ss' s₄ hs₄ hss' => ?_
  have helse : Stmts.Fit n s₄ (ss'.getD []) := by
    cases ss' with
    | none => exact ⟨Nat.zero_le n, .nil⟩
    | some ss' => exact hss' ss' rfl
  refine GivesAt.after (moves_expectText _ _) fun _ s₅ hs₅ => .pure ?_
  refine ⟨Nat.succ_le_succ (Nat.max_le.2 ⟨hss.1, helse.1⟩), ?_⟩
  have hcondition := hc.mono (((hs₂.trans hs₃).trans hs₄).trans hs₅)
  exact (hcondition.append (hss.2.mono (hs₄.trans hs₅))).append (helse.2.mono hs₅)

theorem gives_forEach : Gives (Stmt.Fits (n + 1)) (forEach expression statement) := by
  refine Gives.after fun _ => Gives.after fun _ s => (he s).bind hem fun value s₁ _ hvalue => ?_
  refine GivesAt.after (moves_expectText _ _) fun _ s₂ hs₂ => ?_
  refine (gives_block hsm hs _ s₂).bind (moves_block hsm _) fun ss s₃ hs₃ hss => ?_
  refine GivesAt.after (moves_expectText _ _) fun _ s₄ hs₄ => .pure ?_
  refine ⟨Nat.succ_le_succ hss.1, ?_⟩
  exact (hvalue.mono ((hs₂.trans hs₃).trans hs₄)).append (hss.2.mono hs₄)

theorem gives_loop : Gives (Stmt.Fits (n + 1)) (loop expression statement) := by
  refine fun s => (he s).bind hem fun c s₁ _ hc => ?_
  refine GivesAt.after (moves_expectText _ _) fun _ s₂ hs₂ => ?_
  refine (gives_block hsm hs _ s₂).bind (moves_block hsm _) fun ss s₃ hs₃ hss => ?_
  refine GivesAt.after (moves_expectText _ _) fun _ s₄ hs₄ => .pure ?_
  refine ⟨Nat.succ_le_succ hss.1, ?_⟩
  exact (hc.mono ((hs₂.trans hs₃).trans hs₄)).append (hss.2.mono hs₄)

theorem gives_statementOf : Gives (Stmt.Fits (n + 1)) (statementOf expression statement) := by
  refine Gives.ifText (fun s => ?_) ?_ "LET"
  · refine (gives_declaration he hem s).bind (moves_declaration hem) fun d s₁ _ hd => .pure ?_
    exact ⟨Nat.le_add_left 1 n, hd⟩
  refine Gives.ifText (gives_branch he hem hsm hs) ?_ "IF"
  refine Gives.ifText (gives_forEach he hem hsm hs) ?_ "FOR"
  refine Gives.ifText (gives_loop he hem hsm hs) ?_ "WHILE"
  exact Gives.ifText (gives_ret he hem) (gives_expressionOrAssignment he hem) "RETURN"

end

end

/-- With `room` levels allowed, at most `room` statements stand in one another. -/
theorem gives_statement : (room : Nat) → Gives (Stmt.Fits room) (statement room)
  | 0 => gives_tooDeep
  | room + 1 => gives_nested (gives_statementOf (gives_expression room) (moves_expression room)
      (moves_statement room) (gives_statement room)) id

theorem gives_manyAfter {α : Type} {P : ParserState → α → Prop} {p : Parse α} (hP : Lasting P)
    (hm : Moves p) (h : Gives P p) (text : String) : (bound : List Token) →
    Gives (fun s as => ∀ a ∈ as, P s a) (manyAfter text p bound)
  | [] => fun _ => .pure (List.forall_mem_nil _)
  | _ :: bound => by
    refine fun s => (gives_optionalAfter h text s).bind (moves_optionalAfter hm text)
      fun a s₁ _ ha => ?_
    cases a with
    | none => exact .pure (List.forall_mem_nil _)
    | some a =>
      refine (gives_manyAfter hP hm h text bound s₁).bind (moves_manyAfter hm text bound)
        fun as s₂ hs₂ has => .pure ?_
      exact List.forall_mem_cons.2 ⟨hP (ha a rfl) hs₂, has⟩

theorem gives_field : Gives (fun s f => s.Records f.parts) field := by
  refine Gives.after fun _ => Gives.after fun _ => Gives.after fun _ => Gives.after fun _ s => ?_
  have hm := moves_expression nestingLimit
  refine (gives_value (gives_expression nestingLimit) "=" s).bind (moves_optionalAfter hm "=")
    fun value s₁ _ hvalue => ?_
  refine GivesAt.after (moves_expectText _ _) fun _ s₂ hs₂ => ?_
  refine GivesAt.after moves_freshId fun id s₃ hs₃ => .pure ?_
  exact (hvalue.mono (hs₂.trans hs₃)).other nofun

theorem gives_method : Gives (Method.Fits nestingLimit) method := by
  refine Gives.after fun _ => Gives.after fun _ => Gives.after fun _ => Gives.after fun _ => ?_
  refine Gives.after fun _ => Gives.after fun _ s => ?_
  have hm := moves_statement nestingLimit
  refine (gives_block hm (gives_statement nestingLimit) _ s).bind (moves_block hm _)
    fun ss s₁ _ hss => ?_
  refine GivesAt.after (moves_expectText _ _) fun _ s₂ hs₂ => ?_
  refine GivesAt.after moves_freshId fun id s₃ hs₃ => .pure ⟨hss.1, ?_⟩
  exact (hss.2.mono (hs₂.trans hs₃)).other nofun

theorem gives_source : Gives (Source.Fits nestingLimit) source := by
  have hfields : Lasting fun s (f : Field) => s.Records f.parts :=
    fun _ _ _ => ParserState.Records.mono
  have hmethods : Lasting (Method.Fits nestingLimit) := fun _ _ _ h hs => ⟨h.1, h.2.mono hs⟩
  refine Gives.after fun _ s => ?_
  refine (gives_manyAfter hfields moves_field gives_field "LET" _ s).bind
    (moves_manyAfter moves_field "LET" _) fun fs s₁ _ hfs => ?_
  refine GivesAt.after moves_stream fun _ s₂ hs₂ => ?_
  refine (gives_manyAfter hmethods moves_method gives_method "DEF" _ s₂).bind
    (moves_manyAfter moves_method "DEF" _) fun ms s₃ hs₃ hms => ?_
  refine GivesAt.after moves_stream fun st s₄ hs₄ => ?_
  cases st.next? with
  | some t => exact .throw _
  | none =>
    refine .pure ⟨fun m hm => (hms m hm).1, ?_⟩
    have hall : s₃.Records (fs.flatMap Field.parts) :=
      .flatMap fun f hf => hfields (hfs f hf) (hs₂.trans hs₃)
    exact (hall.append (.flatMap fun m hm => (hms m hm).2)).mono hs₄

end Parse

end TinyScript
