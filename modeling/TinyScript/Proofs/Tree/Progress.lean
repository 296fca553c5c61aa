import TinyScript.Proofs.Tree.Primitive

/-
  Parsers move forward.

  However a parser ends, it has passed some of the tokens ahead and handed out further
  identities; it has closed the levels that it opened, and every height that was recorded
  is still recorded.  Every expression and every statement takes at least one token.

  * `ParserState.Onward`: a state is another one at a later place;
  * `Parse.Moves`: a parser moves forward, whether it succeeds or fails;
  * `Parse.Consumes`: a parser that succeeds has passed a token.
-/

namespace TinyScript

/-! ## Places -/

namespace TokenStream

variable (s : TokenStream)

@[simp] theorem rest_advanceBy (n : Nat) : (s.advanceBy n).rest = s.rest.drop n := by
  induction n generalizing s with
  | zero => rfl
  | succ n ih => rw [advanceBy, ih, advance, List.drop_tail]

@[simp] theorem position_advanceBy (n : Nat) : (s.advanceBy n).position = s.position + n := by
  induction n generalizing s with
  | zero => rfl
  | succ n ih => rw [advanceBy, ih, advance, Nat.add_assoc, Nat.add_comm 1 n]

theorem advanceBy_add (m n : Nat) : s.advanceBy (m + n) = (s.advanceBy m).advanceBy n := by
  induction m generalizing s with
  | zero => rw [Nat.zero_add, advanceBy]
  | succ m ih => rw [Nat.succ_add, advanceBy, ih, advanceBy]

end TokenStream

/-- The second state is the first one at a later place, with further identities handed out,
    as many levels open, and the same heights for the identities that the first one had
    handed out. -/
structure ParserState.Onward (s s' : ParserState) : Prop where
  stream : ∃ n ≤ s.rest.length, s'.stream = s.stream.advanceBy n
  nextId : s.nextId ≤ s'.nextId
  depth : s'.depth = s.depth
  heights : ∀ id < s.nextId, s'.heights[id]? = s.heights[id]?

namespace ParserState.Onward

variable {s s' s'' : ParserState}

theorem refl (s : ParserState) : s.Onward s :=
  ⟨⟨0, Nat.zero_le _, rfl⟩, Nat.le_refl _, rfl, fun _ _ => rfl⟩

theorem trans (h : s.Onward s') (h' : s'.Onward s'') : s.Onward s'' := by
  obtain ⟨⟨n, hn, hs'⟩, hid, hdepth, hheights⟩ := h
  obtain ⟨⟨n', hn', hs''⟩, hid', hdepth', hheights'⟩ := h'
  refine ⟨⟨n + n', ?_, by rw [hs'', hs', TokenStream.advanceBy_add]⟩, Nat.le_trans hid hid',
    hdepth'.trans hdepth, fun id hlt => ?_⟩
  · rw [rest, hs', TokenStream.rest_advanceBy, List.length_drop] at hn'
    have : s.stream.rest.length = s.rest.length := rfl
    omega
  · exact (hheights' id (Nat.lt_of_lt_of_le hlt hid)).trans (hheights id hlt)

theorem bump (s : ParserState) : s.Onward s.bump :=
  ⟨⟨0, Nat.zero_le _, rfl⟩, Nat.le_succ _, rfl, fun _ _ => rfl⟩

/-- A height is recorded under a new identity. -/
theorem record (s : ParserState) (height : Nat) : s.Onward (s.record height) := by
  refine ⟨⟨0, Nat.zero_le _, rfl⟩, Nat.le_succ _, rfl, fun id hlt => ?_⟩
  rw [getElem?_heights_record, if_neg (Nat.ne_of_gt hlt)]

/-- A level that is opened and closed leaves the rest. -/
theorem closed (h : s.deeper.Onward s') : s.Onward s'.shallower := by
  refine ⟨h.stream, h.nextId, ?_, h.heights⟩
  rw [depth_shallower, h.depth, depth_deeper, Nat.add_sub_cancel]

/-- A token that is there can be passed. -/
theorem next {t : Token} (h : s.stream.next? = some t) : s.Onward s.next := by
  refine ⟨⟨1, ?_, rfl⟩, Nat.le_refl _, rfl, fun _ _ => rfl⟩
  cases hrest : s.rest with
  | nil =>
    rw [TokenStream.next?, show s.stream.rest = [] from hrest] at h
    cases h
  | cons u us => exact Nat.succ_le_succ (Nat.zero_le _)

theorem position_le (h : s.Onward s') : s.stream.position ≤ s'.stream.position := by
  obtain ⟨⟨n, -, hs'⟩, -⟩ := h
  rw [hs', TokenStream.position_advanceBy]
  exact Nat.le_add_right _ n

/-- Tokens that have been passed are no longer ahead. -/
theorem length_rest (h : s.Onward s') :
    s'.rest.length + s'.stream.position = s.rest.length + s.stream.position := by
  obtain ⟨⟨n, hn, hs'⟩, -⟩ := h
  rw [rest, hs', TokenStream.rest_advanceBy, TokenStream.position_advanceBy, List.length_drop,
    show s.stream.rest = s.rest from rfl]
  omega

theorem length_le (h : s.Onward s') : s'.rest.length ≤ s.rest.length := by
  have hlength := h.length_rest
  have hposition := h.position_le
  omega

end ParserState.Onward

theorem TokenStream.exists_of_peek {s : TokenStream} {p : Token.Pattern} (h : s.peek p = true) :
    ∃ t, s.next? = some t := by
  rw [peek] at h
  cases hn : s.next? with
  | none =>
    rw [hn] at h
    cases h
  | some t => exact ⟨t, rfl⟩

namespace Parse

variable {α β : Type}

/-- The state that a parser leaves, however it ends. -/
def after (p : Parse α) (s : ParserState) : ParserState :=
  match p s with
  | .ok _ s' => s'
  | .error _ s' => s'

/-- The parser moves forward, whether it succeeds or fails. -/
def Moves (p : Parse α) : Prop := ∀ s : ParserState, s.Onward (after p s)

/-- The parser passes a token if it succeeds. -/
def Consumes (p : Parse α) : Prop :=
  ∀ s a s', p s = .ok a s' → s.stream.position < s'.stream.position

section
variable {p : Parse α} {f : α → Parse β} {s s' : ParserState}

theorem after_of_ok {a : α} (h : p s = .ok a s') : after p s = s' := by rw [after, h]

theorem after_of_error {e : ParseError} (h : p s = .error e s') : after p s = s' := by
  rw [after, h]

/-- What two parsers leave, if they have the same outcome. -/
theorem after_congr {q : Parse α} {t : ParserState} (h : p s = q t) : after p s = after q t := by
  rw [after, after, h]

theorem Moves.of_ok {a : α} (h : Moves p) (hp : p s = .ok a s') : s.Onward s' :=
  after_of_ok hp ▸ h s

theorem Moves.of_error {e : ParseError} (h : Moves p) (hp : p s = .error e s') : s.Onward s' :=
  after_of_error hp ▸ h s

theorem Moves.pure (a : α) : Moves (pure a : Parse α) := fun s => .refl s

theorem Moves.throw (e : ParseError) : Moves (throw e : Parse α) := fun s => .refl s

/-- A composite parser moves forward from a state if its first part does, and what follows
    does. -/
theorem onward_bind (h : s.Onward (after p s)) (hf : ∀ a, Moves (f a)) :
    s.Onward (after (p >>= f) s) := by
  cases hp : p s with
  | ok a s₁ =>
    have hafter : after (p >>= f) s = after (f a) s₁ := by rw [after, after, bind_of_ok hp]
    rw [after_of_ok hp] at h
    rw [hafter]
    exact h.trans (hf a s₁)
  | error e s₁ =>
    rw [after_of_error hp] at h
    rwa [after_of_error (bind_of_error hp)]

theorem Moves.bind (h : Moves p) (hf : ∀ a, Moves (f a)) : Moves (p >>= f) :=
  fun s => onward_bind (h s) hf

theorem Moves.discard (h : Moves p) : Moves (discard p) := h.bind fun _ => .pure _

theorem Consumes.bind_left (h : Consumes p) (hf : ∀ a, Moves (f a)) : Consumes (p >>= f) := by
  intro s b s' hb
  obtain ⟨a, s₁, ha, hb⟩ := bind_eq_ok.1 hb
  exact Nat.lt_of_lt_of_le (h s a s₁ ha) ((hf a).of_ok hb).position_le

end

/-! ## Primitives and lists -/

theorem moves_stream : Moves stream := fun s => .refl s

theorem moves_peek (p : Token.Pattern) : Moves (peek p) := fun s => .refl s

theorem moves_freshId : Moves freshId := fun s => .bump s

theorem moves_accept (p : Token.Pattern) : Moves (accept p) := by
  intro s
  have haccept := accept_apply p s
  split at haccept
  · rename_i hp
    obtain ⟨t, ht⟩ := TokenStream.exists_of_peek hp
    rw [after_of_ok haccept]
    exact .next ht
  · rw [after_of_ok haccept]
    exact .refl s

theorem moves_acceptText (text : String) : Moves (acceptText text) := moves_accept _

/-- A choice by whether the next token has a text. -/
theorem Moves.ifText {p q : Parse α} (hp : Moves p) (hq : Moves q) (text : String) :
    Moves (do if ← acceptText text then p else q) := by
  refine (moves_acceptText text).bind fun b => ?_
  cases b with
  | false => exact hq
  | true => exact hp

theorem moves_expect (p : Token.Pattern) (expected : String) : Moves (expect p expected) := by
  intro s
  rw [after, expect, stream_bind]
  cases hn : s.stream.next? with
  | none => exact .refl s
  | some t =>
    by_cases hp : p.accepts t = true
    · simp only [hp, ↓reduceIte, advance_bind, pure_apply]
      exact .next hn
    · simp only [hp, Bool.false_eq_true, ↓reduceIte, throw_apply]
      exact .refl s

theorem moves_expectText (text expected : String) : Moves (expectText text expected) :=
  (moves_expect _ expected).discard

theorem moves_expectName (expected : String) : Moves (expectName expected) :=
  (moves_expect _ expected).bind fun _ => .pure _

theorem moves_tooDeep : Moves (tooDeep : Parse α) := moves_stream.bind fun _ => .throw _

/-- A level is closed however the parser in it ends. -/
theorem moves_nested {p : Parse α} (h : Moves p) : Moves (nested p) := by
  intro s
  by_cases hdepth : s.depth = nestingLimit
  · rw [after_congr (nested_of_limit hdepth)]
    exact moves_tooDeep s
  · cases hp : p s.deeper with
    | ok a s' =>
      rw [after_of_ok (nested_eq_ok.2 ⟨hdepth, s', hp, rfl⟩)]
      exact (h.of_ok hp).closed
    | error e s' =>
      rw [after_of_error (nested_of_error hdepth hp)]
      exact (h.of_error hp).closed

theorem consumes_nested {p : Parse α} (h : Consumes p) : Consumes (nested p) := by
  intro s a s' hs
  obtain ⟨-, t, ht, rfl⟩ := nested_eq_ok.1 hs
  exact h s.deeper a t ht

section
variable {p item : Parse α}

theorem moves_optionalAfter (h : Moves p) (text : String) : Moves (optionalAfter text p) :=
  Moves.ifText (h.bind fun _ => .pure _) (.pure _) text

theorem moves_listTail (h : Moves item) (closing : String) : (bound : List Token) →
    Moves (listTail item closing bound)
  | [] => moves_stream.bind fun _ => .throw _
  | _ :: bound => by
    refine Moves.ifText (.pure _) ?_ closing
    refine (moves_expectText _ _).bind fun _ => h.bind fun _ => ?_
    exact (moves_listTail h closing bound).bind fun _ => .pure _

theorem moves_commaSeparated (h : Moves item) (closing : String) :
    Moves (commaSeparated item closing) := by
  refine Moves.ifText (.pure _) ?_ closing
  refine h.bind fun _ => moves_stream.bind fun _ => ?_
  exact (moves_listTail h closing _).bind fun _ => .pure _

end

/-! ## Expressions -/

theorem moves_build {offset : Nat} {make : Node → Expr} : Moves (build offset make) := by
  intro s
  have hbuild := build_apply offset make s
  split at hbuild
  · rw [after_of_error hbuild]
    exact .refl s
  · rw [after_of_ok hbuild]
    exact .record s _

theorem onward_literal {s : ParserState} {t u : Token} (h : s.stream.next? = some u) :
    s.Onward (after (literal t) s) := by
  refine onward_bind (.next h) fun _ => ?_
  cases Literal.ofToken? t with
  | none => exact .throw _
  | some value => exact moves_build

section
variable {inner : Parse Expr} (h : Moves inner)
include h

theorem moves_arguments : Moves (arguments inner) := moves_commaSeparated h ")"

theorem moves_named (offset : Nat) : Moves (named inner offset) := by
  refine (moves_expectName _).bind fun name => ?_
  exact Moves.ifText ((moves_arguments h).bind fun _ => moves_build) moves_build "("

theorem moves_primary : Moves (primary inner) := by
  intro s
  by_cases hno : NoKeywordLiteral s
  · have hprimary : primary inner s = _ := primary_of_noKeywordLiteral hno
    cases hl : s.stream.next?.filter Token.isLiteral with
    | some t =>
      rw [hl] at hprimary
      rw [after_congr hprimary]
      exact onward_literal (Option.filter_eq_some_iff.1 hl).1
    | none =>
      simp only [hl] at hprimary
      split at hprimary
      · rename_i hp
        obtain ⟨t, ht⟩ := TokenStream.exists_of_peek hp
        rw [after_congr hprimary]
        refine (ParserState.Onward.next ht).trans (h.bind (fun e => ?_) s.next)
        exact (moves_expectText _ _).bind fun _ => moves_build
      · split at hprimary
        · rw [after_congr hprimary]
          exact moves_named h _ s
        · rw [after_of_error hprimary]
          exact .refl s
  · obtain ⟨w, hw, hp⟩ : ∃ w ∈ Grammar.valueWords, s.stream.peek (.text w.1) = true := by
      simpa [NoKeywordLiteral] using hno
    obtain ⟨t, ht⟩ := TokenStream.exists_of_peek hp
    rw [after_congr (primary_of_valueWord hw hp)]
    exact (ParserState.Onward.next ht).trans (moves_build s.next)

theorem consumes_primary : Consumes (primary inner) := by
  intro s e s' he
  have hnext : s.stream.position < s.next.stream.position := Nat.lt_succ_self _
  rcases primary_eq_ok he with ⟨w, -, -, hb⟩ | ⟨-, ⟨t, v, -, -, -, hb⟩ | hgroup | ⟨-, -, hname⟩⟩
  · exact Nat.lt_of_lt_of_le hnext (moves_build.of_ok hb).position_le
  · exact Nat.lt_of_lt_of_le hnext (moves_build.of_ok hb).position_le
  · obtain ⟨-, e', s₁, s₂, he', hclose, hb⟩ := hgroup
    have hinner := (h.of_ok he').trans ((moves_expectText _ _).of_ok hclose)
    exact Nat.lt_of_lt_of_le hnext (hinner.trans (moves_build.of_ok hb)).position_le
  · refine Consumes.bind_left (fun s x s' hx => ?_) (fun name => ?_) s e s' hname
    · obtain ⟨t, -, -, -, rfl⟩ := expectName_eq_ok.1 hx
      exact Nat.lt_succ_self _
    · exact Moves.ifText ((moves_arguments h).bind fun _ => moves_build) moves_build "("

theorem moves_member (receiver : Expr) : Moves (member inner receiver) := by
  refine (moves_expect _ _).bind fun name => ?_
  exact Moves.ifText ((moves_arguments h).bind fun _ => moves_build) moves_build "("

theorem moves_members : (bound : List Token) → (receiver : Expr) →
    Moves (members inner bound receiver)
  | [], _ => .pure _
  | _ :: bound, receiver =>
    Moves.ifText ((moves_member h receiver).bind fun e => moves_members bound e) (.pure _) "."

theorem moves_secondary : Moves (secondary inner) :=
  (moves_primary h).bind fun e => moves_stream.bind fun _ => moves_members h _ e

theorem consumes_secondary : Consumes (secondary inner) :=
  (consumes_primary h).bind_left fun e => moves_stream.bind fun _ => moves_members h _ e

end

section
variable {operand : Parse Expr} (h : Moves operand) (operators : List BinaryOperator)
include h

omit h in
/-- Looking for an operator does not move. -/
theorem moves_peekOperator : Moves (peekOperator operators) := by
  intro s
  have hpeek : peekOperator operators s = .ok _ s := peekOperator_eq_ok.2 ⟨rfl, rfl⟩
  rw [after_of_ok hpeek]
  exact .refl s

theorem moves_chain : (bound : List Token) → (left : Expr) →
    Moves (chain operators operand bound left)
  | [], _ => .pure _
  | _ :: bound, left => by
    intro s
    have hpeek : peekOperator operators s = .ok _ s := peekOperator_eq_ok.2 ⟨rfl, rfl⟩
    rw [after, chain, bind_of_ok hpeek]
    generalize ho : Option.bind _ _ = o
    cases o with
    | none => exact .refl s
    | some operator =>
      -- An operator was found, so there is a token to pass.
      obtain ⟨t, ht, -⟩ := Option.bind_eq_some_iff.1 ho
      have hrest : Moves (do
          let right ← operand
          let joined ← build left.offset (.binary · operator left right)
          chain operators operand bound joined) :=
        h.bind fun _ => moves_build.bind fun joined => moves_chain bound joined
      exact (ParserState.Onward.next (Option.filter_eq_some_iff.1 ht).1).trans (hrest s.next)

theorem moves_leftAssociative : Moves (leftAssociative operators operand) :=
  h.bind fun left => moves_stream.bind fun _ => moves_chain h operators _ left

theorem consumes_leftAssociative (hc : Consumes operand) :
    Consumes (leftAssociative operators operand) :=
  hc.bind_left fun left => moves_stream.bind fun _ => moves_chain h operators _ left

end

theorem moves_logical {inner : Parse Expr} (h : Moves inner) :
    Moves (logical inner) ∧ Consumes (logical inner) := by
  have hm := moves_leftAssociative (moves_secondary h) [.mul, .div]
  have ha := moves_leftAssociative hm [.add, .sub]
  have hc := moves_leftAssociative ha
    [.less, .lessEqual, .greater, .greaterEqual, .equal, .notEqual]
  refine ⟨moves_leftAssociative hc [.and, .or], ?_⟩
  refine consumes_leftAssociative hc _ (consumes_leftAssociative ha _ ?_)
  exact consumes_leftAssociative hm _
    (consumes_leftAssociative (moves_secondary h) _ (consumes_secondary h))

theorem moves_expression : (room : Nat) → Moves (expression room)
  | 0 => moves_tooDeep
  | room + 1 => moves_nested (moves_logical (moves_expression room)).1

/-- An expression takes a token. -/
theorem consumes_expression : (room : Nat) → Consumes (expression room)
  | 0 => fun _ _ _ h => nomatch h
  | room + 1 => consumes_nested (moves_logical (moves_expression room)).2

/-! ## Statements -/

section
variable {expression : Parse Expr} {statement : Parse Stmt}

theorem moves_statementsUpTo (hs : Moves statement) (terminators : List String) :
    (bound : List Token) → Moves (statementsUpTo statement terminators bound)
  | [] => .pure _
  | _ :: bound => by
    refine Moves.bind (moves_stream.bind fun _ => .pure _) fun b => ?_
    cases b with
    | true => exact .pure _
    | false => exact hs.bind fun _ =>
        (moves_statementsUpTo hs terminators bound).bind fun _ => .pure _

theorem moves_block (hs : Moves statement) (terminators : List String) :
    Moves (block statement terminators) :=
  moves_stream.bind fun _ => moves_statementsUpTo hs terminators _

theorem moves_declaration (he : Moves expression) : Moves (declaration expression) := by
  refine moves_stream.bind fun _ => (moves_expectName _).bind fun _ => ?_
  refine (moves_optionalAfter (moves_expectName _) ":").bind fun _ => ?_
  refine (moves_optionalAfter he "=").bind fun _ => (moves_expectText _ _).bind fun _ => ?_
  exact moves_freshId.bind fun _ => .pure _

theorem moves_branch (he : Moves expression) (hs : Moves statement) :
    Moves (branch expression statement) := by
  refine he.bind fun _ => (moves_expectText _ _).bind fun _ => (moves_block hs _).bind fun _ => ?_
  refine (moves_optionalAfter (moves_block hs _) "ELSE").bind fun _ => ?_
  exact (moves_expectText _ _).bind fun _ => .pure _

theorem moves_forEach (he : Moves expression) (hs : Moves statement) :
    Moves (forEach expression statement) := by
  refine (moves_expectName _).bind fun _ => (moves_expectText _ _).bind fun _ => ?_
  refine he.bind fun _ => (moves_expectText _ _).bind fun _ => (moves_block hs _).bind fun _ => ?_
  exact (moves_expectText _ _).bind fun _ => .pure _

theorem moves_loop (he : Moves expression) (hs : Moves statement) :
    Moves (loop expression statement) := by
  refine he.bind fun _ => (moves_expectText _ _).bind fun _ => (moves_block hs _).bind fun _ => ?_
  exact (moves_expectText _ _).bind fun _ => .pure _

theorem moves_ret (he : Moves expression) : Moves (ret expression) :=
  moves_stream.bind fun _ => he.bind fun _ => (moves_expectText _ _).bind fun _ => .pure _

theorem moves_assignment (he : Moves expression) (receiver : Expr) :
    Moves (do
      let value ← optionalAfter "=" expression
      expectText ";" "';' after the statement"
      match value with
      | some value => return Stmt.assign receiver value
      | none => return Stmt.expression receiver) := by
  refine (moves_optionalAfter he "=").bind fun value => (moves_expectText _ _).bind fun _ => ?_
  cases value with
  | none => exact .pure _
  | some _ => exact .pure _

theorem moves_statementOf (he : Moves expression) (hs : Moves statement) :
    Moves (statementOf expression statement) := by
  refine Moves.ifText ((moves_declaration he).bind fun _ => .pure _) ?_ "LET"
  refine Moves.ifText (moves_branch he hs) ?_ "IF"
  refine Moves.ifText (moves_forEach he hs) ?_ "FOR"
  refine Moves.ifText (moves_loop he hs) ?_ "WHILE"
  exact Moves.ifText (moves_ret he) (he.bind (moves_assignment he)) "RETURN"

/-- A choice by whether the next token has a text takes a token, if the other choice does. -/
theorem Consumes.ifText {p q : Parse Stmt} (hp : Moves p) (hq : Consumes q) (text : String) :
    Consumes (do if ← acceptText text then p else q) := by
  intro s a s' h
  rw [acceptText_bind] at h
  split at h
  · exact Nat.lt_of_lt_of_le (Nat.lt_succ_self _) (hp.of_ok h).position_le
  · exact hq s a s' h

theorem consumes_statementOf (he : Moves expression) (hc : Consumes expression)
    (hs : Moves statement) : Consumes (statementOf expression statement) := by
  refine Consumes.ifText ((moves_declaration he).bind fun _ => .pure _) ?_ "LET"
  refine Consumes.ifText (moves_branch he hs) ?_ "IF"
  refine Consumes.ifText (moves_forEach he hs) ?_ "FOR"
  refine Consumes.ifText (moves_loop he hs) ?_ "WHILE"
  exact Consumes.ifText (moves_ret he) (hc.bind_left (moves_assignment he)) "RETURN"

end

theorem moves_statement : (room : Nat) → Moves (statement room)
  | 0 => moves_tooDeep
  | room + 1 => moves_nested (moves_statementOf (moves_expression room) (moves_statement room))

/-- A statement takes a token. -/
theorem consumes_statement : (room : Nat) → Consumes (statement room)
  | 0 => fun _ _ _ h => nomatch h
  | room + 1 => consumes_nested
    (consumes_statementOf (moves_expression room) (consumes_expression room) (moves_statement room))

/-! ## Programs -/

theorem moves_field : Moves field := by
  refine moves_stream.bind fun _ => (moves_expectName _).bind fun _ => ?_
  refine (moves_expectText _ _).bind fun _ => (moves_expectName _).bind fun _ => ?_
  refine (moves_optionalAfter (moves_expression _) "=").bind fun _ => ?_
  exact (moves_expectText _ _).bind fun _ => moves_freshId.bind fun _ => .pure _

theorem moves_parameter : Moves parameter :=
  (moves_expectName _).bind fun _ =>
    (moves_optionalAfter (moves_expectName _) ":").bind fun _ => .pure _

theorem moves_method : Moves method := by
  refine moves_stream.bind fun _ => (moves_expectName _).bind fun _ => ?_
  refine (moves_expectText _ _).bind fun _ => ?_
  refine (moves_commaSeparated moves_parameter _).bind fun _ => ?_
  refine (moves_optionalAfter (moves_expectName _) ":").bind fun _ => ?_
  refine (moves_expectText _ _).bind fun _ => (moves_block (moves_statement _) _).bind fun _ => ?_
  exact (moves_expectText _ _).bind fun _ => moves_freshId.bind fun _ => .pure _

theorem moves_manyAfter {p : Parse α} (h : Moves p) (text : String) : (bound : List Token) →
    Moves (manyAfter text p bound)
  | [] => .pure _
  | _ :: bound => by
    refine (moves_optionalAfter h text).bind fun a => ?_
    cases a with
    | none => exact .pure _
    | some _ => exact (moves_manyAfter h text bound).bind fun _ => .pure _

theorem moves_source : Moves source := by
  refine moves_stream.bind fun _ => (moves_manyAfter moves_field "LET" _).bind fun _ => ?_
  refine moves_stream.bind fun _ => (moves_manyAfter moves_method "DEF" _).bind fun _ => ?_
  refine moves_stream.bind fun s => ?_
  cases s.next? with
  | none => exact .pure _
  | some _ => exact .throw _

end Parse

end TinyScript
