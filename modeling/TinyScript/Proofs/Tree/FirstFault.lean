import TinyScript.Proofs.Tree.ExprPrediction

/-
  Parse errors point at the first token that fits no program.

  Statements and whole programs predict as expressions do.  From this follows that the
  tokens before a reported one are the front of some program, while with it they are the
  front of none that the parser takes.

  * `Parse.predicts_source`: whole programs;
  * `Parse.Predicts.fault`: how such a parser fails on a list of tokens;
  * `parse_error_at_first_fault`: the theorem about the tokens of a text.
-/

namespace TinyScript

open Computability Grammar

namespace Parse

open ParserState

variable {α : Type} {s : ParserState}

/-! ## Statements -/

section
variable {statement : Parse Stmt}

/-- Whether a block ends before the next token. -/
def blockEnds (ends : List String) (s : ParserState) : Bool :=
  s.rest.head?.isNone || ends.any fun t => s.stream.peek (.text t)

theorem atEnd_bind {ends : List String} {k : Bool → Parse α} (s : ParserState) :
    (atEnd ends >>= k) s = k (blockEnds ends s) s :=
  rfl

theorem blockEnds_congr {ends : List String} {t : ParserState}
    (h : t.rest.head? = s.rest.head?) : blockEnds ends t = blockEnds ends s := by
  unfold blockEnds
  simp only [h, peek_congr h]

/-- A block goes on only with a token that is none of its ends. -/
theorem notMem_of_blockEnds {ends : List String} (h : blockEnds ends s = false) :
    ∀ t ∈ s.rest.head?, t.text ∉ ends := by
  intro t ht hmem
  rw [blockEnds, Bool.or_eq_false_iff] at h
  have hpeek : s.stream.peek (.text t.text) = false := by simpa using List.any_eq_false.1 h.2 _ hmem
  have htext : s.stream.peek (.text t.text) = true := by
    show s.rest.head?.any _ = true
    rw [Option.mem_def.1 ht]
    exact beq_self_eq_true t.text
  rw [hpeek] at htext
  cases htext

theorem repeats_statementsUpTo (hm : Moves statement) (hc : Consumes statement)
    (ends : List String) :
    Repeats (fun bound (_ : Unit) => statementsUpTo statement ends bound) fun k _ => do
      if ← atEnd ends then return []
      else
        let s ← statement
        let ss ← k ()
        return s :: ss where
  unfold _ _ _ := rfl
  stop k _ s hs := by
    rw [atEnd_bind, blockEnds, hs]
    rfl
  round_congr {k k' _ s} hk := by
    rw [atEnd_bind, atEnd_bind]
    split
    · rfl
    · refine bind_congr_of_ok fun st s' hst => bind_congr_first (hk () s' ?_)
      have hlength := (hm.of_ok hst).length_rest
      have hposition := hc s st s' hst
      omega

theorem predicts_block (hm : Moves statement) (hc : Consumes statement)
    (hst : Predicts statement (Words AnyStatement)) {ends : List String} (hends : "NIL" ∉ ends) :
    Predicts (block statement ends) (Words (Block AnyStatement ends)) := by
  refine ((repeats_statementsUpTo hm hc ends).predicts (fun _ s hs ih => ?_) ()).mono
    (block_le nil_notMem_anyStatement)
  cases hend : blockEnds ends s with
  | true =>
    refine ((PredictsAt.pure [] s).same fun t _ ht => ?_).mono one_le_kstar
    rw [atEnd_bind, blockEnds_congr ht, hend]
    rfl
  | false =>
    have hfirst := (hst s hs).headed (notMem_of_blockEnds hend) (front_anyStatement hends)
    have hmore : PredictsAt (Headed (·.text ∉ ends) (Words AnyStatement) *
        (Headed (·.text ∉ ends) (Words AnyStatement))∗) s (do
        let st ← statement
        let ss ← unbounded (fun bound (_ : Unit) => statementsUpTo statement ends bound) ()
        return st :: ss) := by
      refine hfirst.bind fun us st s₁ hus hrest => ?_
      refine (ih () s₁ (hs.after hrest) ?_).last fun ss s₂ => .pure _ s₂
      -- A statement is not empty, so the rest of the block is shorter.
      have hne : us ≠ [] := fun h => nil_notMem_anyStatement (h ▸ hus.1)
      have hpos := List.length_pos_iff.2 hne
      rw [hrest, List.length_append]
      omega
    refine (hmore.same fun t _ ht => ?_).mono mul_kstar_le_kstar
    rw [atEnd_bind, blockEnds_congr ht, hend]
    rfl

end

section
variable {expression : Parse Expr} {statement : Parse Stmt}
  (he : Predicts expression (Words AnyExpression))
include he

theorem predicts_declaration :
    Predicts (declaration expression) (Words (DeclarationRest AnyExpression)) := by
  refine Predicts.mono (Predicts.previousOffset (fun _ => ?_) fun s s' h => ?_) declarationRest_le
  · refine predicts_expectName.bind fun name => ?_
    refine (predicts_optionalAfter (by decide) predicts_expectName).bind fun typeName => ?_
    refine (predicts_optionalAfter (by decide) he).bind fun value => ?_
    exact (predicts_expectText (by decide)).last fun _ => predictsAt_identity _
  · simp only [h]

theorem predicts_ret : Predicts (ret expression) (Words (ReturnRest AnyExpression)) := by
  refine Predicts.mono (Predicts.previousOffset (fun _ => ?_) fun s s' h => ?_) returnRest_le
  · exact he.bind fun value => (predicts_expectText (by decide)).last fun _ s => .pure _ s
  · simp only [h]

theorem predicts_expressionOrAssignment :
    Predicts (expressionOrAssignment expression)
      (Words (ExpressionOrAssignment AnyExpression)) := by
  refine Predicts.mono (he.bind fun receiver => ?_) expressionOrAssignment_le
  refine (predicts_optionalAfter (by decide) he).bind fun value => ?_
  refine (predicts_expectText (by decide)).last fun _ s => ?_
  cases value with
  | none => exact .pure _ s
  | some value => exact .pure _ s

variable (hm : Moves statement) (hc : Consumes statement)
  (hst : Predicts statement (Words AnyStatement))
include hm hc hst

theorem predicts_branch :
    Predicts (branch expression statement) (Words (BranchRest AnyExpression AnyStatement)) := by
  refine Predicts.mono (he.bind fun condition => ?_) branchRest_le
  refine (predicts_expectText (by decide)).bind fun _ => ?_
  refine (predicts_block hm hc hst (by decide)).bind fun thenBody => ?_
  have helse : Predicts (block statement ["END"]) (Words (Block AnyStatement ["END"])) :=
    predicts_block hm hc hst (by decide)
  refine (predicts_optionalAfter (by decide) helse).bind fun elseBody => ?_
  exact (predicts_expectText (by decide)).last fun _ s => .pure _ s

theorem predicts_forEach :
    Predicts (forEach expression statement) (Words (ForRest AnyExpression AnyStatement)) := by
  refine Predicts.mono (predicts_expectName.bind fun name => ?_) forRest_le
  refine (predicts_expectText (by decide)).bind fun _ => he.bind fun value => ?_
  refine (predicts_expectText (by decide)).bind fun _ => ?_
  refine (predicts_block hm hc hst (by decide)).bind fun body => ?_
  exact (predicts_expectText (by decide)).last fun _ s => .pure _ s

theorem predicts_loop :
    Predicts (loop expression statement) (Words (WhileRest AnyExpression AnyStatement)) := by
  refine Predicts.mono (he.bind fun condition => ?_) whileRest_le
  refine (predicts_expectText (by decide)).bind fun _ => ?_
  refine (predicts_block hm hc hst (by decide)).bind fun body => ?_
  exact (predicts_expectText (by decide)).last fun _ s => .pure _ s

theorem predicts_statementOf :
    Predicts (statementOf expression statement) (Words AnyStatement) := by
  intro s hs
  have hnext := hs.next
  refine PredictsAt.mono ?_ (le_trans statementOf_le anyStatement_le)
  refine .ifText hs (by decide) (fun _ _ =>
    (predicts_declaration he s.next hnext).last fun d s => .pure (Stmt.declare d) s) fun hlet => ?_
  refine .ifText hs (by decide) (fun _ _ => predicts_branch he hm hc hst s.next hnext)
    fun hif => ?_
  refine .ifText hs (by decide) (fun _ _ => predicts_forEach he hm hc hst s.next hnext)
    fun hfor => ?_
  refine .ifText hs (by decide) (fun _ _ => predicts_loop he hm hc hst s.next hnext)
    fun hwhile => ?_
  refine .ifText hs (by decide) (fun _ _ => predicts_ret he s.next hnext) fun hreturn => ?_
  refine (predicts_expressionOrAssignment he s hs).headed (fun t ht => ?_)
    (front_expressionOrAssignment (by decide))
  have hrest : s.rest = t :: s.next.rest := List.eq_cons_of_mem_head? ht
  simp only [statementWords, List.mem_cons, List.not_mem_nil, or_false, not_or]
  exact ⟨ne_of_peek (by simp [hlet]) hrest, ne_of_peek (by simp [hif]) hrest,
    ne_of_peek (by simp [hfor]) hrest, ne_of_peek (by simp [hwhile]) hrest,
    ne_of_peek (by simp [hreturn]) hrest⟩

end

theorem predicts_statement (room : Nat) : Predicts (statement room) (Words AnyStatement) := by
  induction room with
  | zero => exact fun _ _ => predictsAt_tooDeep
  | succ room ih =>
    exact (predicts_statementOf (predicts_expression room) (moves_statement room)
      (consumes_statement room) ih).nested

/-! ## Programs -/

theorem predicts_field : Predicts field (Words (FieldOf AnyExpression)) := by
  refine Predicts.mono (Predicts.previousOffset (fun _ => ?_) fun s s' h => ?_) fieldOf_le
  · refine predicts_expectName.bind fun name => (predicts_expectText (by decide)).bind fun _ => ?_
    refine predicts_expectName.bind fun typeName => ?_
    refine (predicts_optionalAfter (by decide) (predicts_expression _)).bind fun value => ?_
    exact (predicts_expectText (by decide)).last fun _ => predictsAt_identity _
  · simp only [h]

theorem predicts_parameter : Predicts parameter (Words ParameterRule) := by
  refine Predicts.mono (predicts_expectName.bind fun name => ?_) parameterRule_le
  exact (predicts_optionalAfter (by decide) predicts_expectName).last fun _ s => .pure _ s

theorem predicts_method : Predicts method (Words (MethodOf AnyStatement)) := by
  have hbody : Predicts (block (statement nestingLimit) ["END"])
      (Words (Block AnyStatement ["END"])) :=
    predicts_block (moves_statement _) (consumes_statement _) (predicts_statement _) (by decide)
  refine Predicts.mono (Predicts.previousOffset (fun _ => ?_) fun s s' h => ?_) methodOf_le
  · refine predicts_expectName.bind fun name => (predicts_expectText (by decide)).bind fun _ => ?_
    refine (predicts_commaSeparated moves_parameter predicts_parameter).bind fun parameters => ?_
    refine (predicts_optionalAfter (by decide) predicts_expectName).bind fun resultName => ?_
    refine (predicts_expectText (by decide)).bind fun _ => hbody.bind fun body => ?_
    exact (predicts_expectText (by decide)).last fun _ => predictsAt_identity _
  · simp only [h]

section
variable {p : Parse α} {text : String}

theorem optionalAfter_bind {β : Type} {k : Option α → Parse β} :
    (optionalAfter text p >>= k) =
      (do if ← acceptText text then p >>= fun a => k (some a) else k none) := by
  rw [optionalAfter, bind_assoc]
  refine bind_congr fun b => ?_
  cases b with
  | false => exact pure_bind none k
  | true =>
    show (p >>= fun a => pure (some a)) >>= k = _
    rw [bind_assoc]
    exact bind_congr fun a => pure_bind (some a) k

theorem repeats_manyAfter (hm : Moves p) :
    Repeats (fun bound (_ : Unit) => manyAfter text p bound) fun k _ => do
      if ← acceptText text then
        let a ← p
        let as ← k ()
        return a :: as
      else return [] where
  unfold _ _ _ := optionalAfter_bind
  stop k _ s hs := by
    rw [acceptText_bind, peek_of_rest_nil hs]
    rfl
  round_congr {k k' _ s} hk := by
    refine ifText_congr (fun hlt => ?_) rfl
    refine bind_congr_of_moves hm fun a s' hle => bind_congr_first (hk () s' ?_)
    exact Nat.lt_of_le_of_lt hle hlt

theorem predicts_manyAfter {γ : Type} {L : Phrase γ} (hterm : isTerminal text = true)
    (hm : Moves p) (hp : Predicts p (Words L)) :
    Predicts (unbounded (fun bound (_ : Unit) => manyAfter text p bound) ())
      (Words (Many (Led text L))) := by
  refine ((repeats_manyAfter hm).predicts (A := (Terminal text * Words L)∗) (fun _ s hs ih => ?_)
    ()).mono (le_trans (kstar_mono led_le) many_le)
  have hmore : s.next.rest.length < s.rest.length →
      PredictsAt (Words L * (Terminal text * Words L)∗) s.next (do
        let a ← p
        let as ← unbounded (fun bound (_ : Unit) => manyAfter text p bound) ()
        return a :: as) := by
    intro hlt
    refine (hp s.next hs.next).bind fun us a s₁ _ hrest => ?_
    refine (ih () s₁ (hs.next.after hrest) (Nat.lt_of_le_of_lt ?_ hlt)).last fun as s₂ => .pure _ s₂
    rw [hrest, List.length_append]
    omega
  exact (PredictsAt.ifText hs hterm (fun _ => hmore) fun _ => .pure [] s).mono (round_le _ _)

end

/-- Whatever follows the last method is at fault. -/
theorem predicts_end (program : Source) : Predicts (do
    match (← stream).next? with
    | some t => throw (ParseError.trailingTokens t.text t.offset)
    | none => return program) 1 := by
  intro s _
  cases hrest : s.rest with
  | nil =>
    refine (PredictsAt.pure program s).same fun t _ ht => ?_
    have hnone : t.stream.next? = none := by
      rw [TokenStream.next?, show t.stream.rest.head? = s.rest.head? from ht, hrest]
      rfl
    rw [stream_bind, hnone]
  | cons u zs =>
    have hreports : (ParseError.trailingTokens u.text u.offset).Reports u := ⟨rfl, rfl⟩
    refine .faults hrest hreports fun t _ ht => ⟨t, ?_⟩
    rw [stream_bind, TokenStream.next?, show t.stream.rest.head? = some u from ht]
    rfl

theorem predicts_source : Predicts source (Words Unlimited) := by
  have hfields : Predicts (unbounded (fun bound (_ : Unit) => manyAfter "LET" field bound) ())
      (Words (Many (Led "LET" (FieldOf AnyExpression)))) :=
    predicts_manyAfter (by decide) moves_field predicts_field
  have hmethods : Predicts (unbounded (fun bound (_ : Unit) => manyAfter "DEF" method bound) ())
      (Words (Many (Led "DEF" (MethodOf AnyStatement)))) :=
    predicts_manyAfter (by decide) moves_method predicts_method
  refine Predicts.mono ?_ unlimited_le
  rw [← mul_one (Words (Many (Led "DEF" _)))]
  exact hfields.bind fun fields => hmethods.bind fun methods => predicts_end ⟨fields, methods⟩

/-! ## Errors -/

/-- Tokens that agree up to a place with some that have been read are read alike. -/
theorem eq_append_of_take {us vs zs : List Token} {u : Token}
    (h : us.take (vs.length + 1) = (vs ++ u :: zs).take (vs.length + 1)) :
    us = vs ++ u :: us.drop (vs.length + 1) := by
  have htake : (vs ++ u :: zs).take (vs.length + 1) = vs ++ [u] := by simp [List.take_append]
  conv_lhs => rw [← List.take_append_drop (vs.length + 1) us, h, htake]
  simp

/-- How a parser for a language fails on a list of tokens. -/
theorem Predicts.fault {p : Parse α} {A : Language Token} {ts : List Token} {e : ParseError}
    (hp : Predicts p A) (hts : ∀ t ∈ ts, t.Lexed) (h : p.onTokens ts = .error e) :
    (∃ k u, ts[k]? = some u ∧ e.Reports u ∧
      (∀ us : List Token, us.take (k + 1) = ts.take (k + 1) → p.onTokens us = .error e) ∧
      Front A (ts.take k)) ∨
    (∃ expected, e = .unexpectedEnd expected ((ts.getLast?.map Token.stop).getD 0) ∧
      Front A ts) ∨
    ∃ limit offset, e = .nestingTooDeep limit offset := by
  obtain ⟨s', hs'⟩ := onTokens_eq_error.1 h
  cases hp (.ofTokens ts) hts with
  | accepts hp =>
    rw [hp] at hs'
    cases hs'
  | @rejects vs zs u _ _ hp hrest hreports hfront hlocal =>
    rw [hp] at hs'
    cases hs'
    obtain rfl : ts = vs ++ u :: zs := hrest
    refine Or.inl ⟨vs.length, u, by simp, hreports, fun us hus => ?_, by simpa using hfront⟩
    -- The states at the start of two lists are alike: nothing has been passed or handed out.
    obtain ⟨t', ht'⟩ := hlocal (.ofTokens us) _ ⟨rfl, rfl, rfl, rfl⟩ (eq_append_of_take hus)
    exact onTokens_eq_error.2 ⟨t', ht'⟩
  | starves hp hfront =>
    rw [hp] at hs'
    cases hs'
    exact Or.inr (Or.inl ⟨_, rfl, hfront⟩)
  | sinks hp =>
    rw [hp] at hs'
    cases hs'
    exact Or.inr (Or.inr ⟨_, _, rfl⟩)

end Parse

/-- The error points at the first token of the list that fits no program.  A reported token
    stands at some place `k`: whatever follows it, the error is the same, and the tokens
    before it are the front of some program.  Where the tokens have run out, all of them are. -/
def ParseError.AtFirstFault (ts : List Token) (e : ParseError) : Prop :=
  match e with
  | .unexpectedToken _ found offset | .trailingTokens found offset =>
    ∃ k u, ts[k]? = some u ∧ found = u.text ∧ offset = u.offset ∧
      (∀ us : List Token, us.take (k + 1) = ts.take (k + 1) → parse us = .error e) ∧
      Front (Words Unlimited) (ts.take k)
  | .unexpectedEnd _ offset =>
    ∃ u, ts.getLast? = some u ∧ offset = u.stop ∧ Front (Words Unlimited) ts
  | .nestingTooDeep _ _ => True

/-- **Parse errors point at the first token that fits no program.** -/
theorem parse_error_at_first_fault {text : String} {ts : List Token} {e : ParseError}
    (hlex : lex text = .ok ts) (h : parse ts = .error e) : e.AtFirstFault ts := by
  rcases Parse.predicts_source.fault (lexed_of_lex hlex) h with
    ⟨k, u, hk, hreports, hlocal, hfront⟩ | ⟨expected, rfl, hfront⟩ | ⟨limit, offset, rfl⟩
  · cases e with
    | unexpectedToken expected found offset =>
      exact ⟨k, u, hk, hreports.1, hreports.2, hlocal, hfront⟩
    | trailingTokens found offset => exact ⟨k, u, hk, hreports.1, hreports.2, hlocal, hfront⟩
    | unexpectedEnd expected offset => exact hreports.elim
    | nestingTooDeep limit offset => trivial
  · cases hlast : ts.getLast? with
    | none =>
      rw [List.getLast?_eq_none_iff.1 hlast] at h
      cases h
    | some u => exact ⟨u, hlast, rfl, hfront⟩
  · trivial

/-- A method without a body. -/
def bodylessText : String := "DEF main() RETURN"

def bodylessTokens : List Token :=
  [⟨.identifier, "DEF", 0⟩, ⟨.identifier, "main", 4⟩, ⟨.operator, "(", 8⟩, ⟨.operator, ")", 9⟩,
    ⟨.identifier, "RETURN", 11⟩]

theorem lex_bodylessText : lex bodylessText = .ok bodylessTokens :=
  eq_ok_of_toOption (by decide +kernel)

theorem parse_bodylessTokens : parse bodylessTokens =
    .error (.unexpectedToken "'DO' before the method body" "RETURN" 11) :=
  rfl

/-- The token that stands in place of the body is reported. -/
theorem parse_error_at_missing_body : lex bodylessText = .ok bodylessTokens ∧
    parse bodylessTokens =
      .error (.unexpectedToken "'DO' before the method body" "RETURN" 11) ∧
    ∃ k u, bodylessTokens[k]? = some u ∧ "RETURN" = u.text ∧ 11 = u.offset ∧
      (∀ us : List Token, us.take (k + 1) = bodylessTokens.take (k + 1) →
        parse us = .error (.unexpectedToken "'DO' before the method body" "RETURN" 11)) ∧
      Front (Words Unlimited) (bodylessTokens.take k) :=
  ⟨lex_bodylessText, parse_bodylessTokens,
    parse_error_at_first_fault lex_bodylessText parse_bodylessTokens⟩

end TinyScript
