import TinyScript.Proofs.Spelling
import TinyScript.Proofs.Token.Tokenization
import TinyScript.Proofs.Tree.Progress

/-
  Parsers blame no token of a text for its spelling.

  A parser looks into a literal token only to read its value, and that is the one place where it
  can find a token badly spelled.  A literal token of a text always spells a value
  (`ofToken?_of_denotes`), so whatever else is wrong with a program, this error is not raised.

  * `ParseError.BlamesSpelling`: the error is about the spelling of a literal;
  * `ParserState.Legible`: all literal tokens ahead spell values;
  * `Parse.Trusts`: from such states a parser never blames the spelling;
  * `literals_denote`: tokens of a text are read as what they denote, and never blamed.
-/

namespace TinyScript

/-- The error says that a literal token spells no value. -/
def ParseError.BlamesSpelling (e : ParseError) : Prop :=
  ∃ found offset, e = .unexpectedToken "a valid literal" found offset

/-- All literal tokens ahead spell values. -/
def ParserState.Legible (s : ParserState) : Prop :=
  ∀ t ∈ s.rest, t.isLiteral = true → ∃ v, Literal.ofToken? t = some v

theorem ParserState.Onward.legible {s s' : ParserState} (h : s.Onward s') (hs : s.Legible) :
    s'.Legible := by
  obtain ⟨⟨n, -, hstream⟩, -⟩ := h
  intro t ht
  rw [rest, hstream, TokenStream.rest_advanceBy] at ht
  exact hs t (List.mem_of_mem_drop ht)

namespace Parse

variable {α β : Type}

/-- The parser moves forward, and blames no spelling where all literals spell values. -/
structure Trusts (p : Parse α) : Prop where
  moves : Moves p
  error : ∀ s e s', s.Legible → p s = .error e s' → ¬e.BlamesSpelling

section
variable {p q item : Parse α} {f : α → Parse β}

theorem Trusts.pure (a : α) : Trusts (pure a : Parse α) := ⟨.pure a, fun _ _ _ _ h => nomatch h⟩

theorem Trusts.throw {e : ParseError} (he : ¬e.BlamesSpelling) : Trusts (throw e : Parse α) := by
  refine ⟨.throw e, fun s e' s' _ h => ?_⟩
  cases h
  exact he

/-- Where the first part blames nothing and moves forward, the next part starts from a state
    like the first one. -/
theorem Trusts.bind (h : Trusts p) (hf : ∀ a, Trusts (f a)) : Trusts (p >>= f) := by
  refine ⟨h.moves.bind fun a => (hf a).moves, fun s e s' hs he => ?_⟩
  rcases bind_eq_error.1 he with he | ⟨a, s₁, ha, he⟩
  · exact h.error s e s' hs he
  · exact (hf a).error s₁ e s' ((h.moves.of_ok ha).legible hs) he

theorem trusts_stream : Trusts stream := ⟨moves_stream, fun _ _ _ _ h => nomatch h⟩

theorem trusts_freshId : Trusts freshId := ⟨moves_freshId, fun _ _ _ _ h => nomatch h⟩

theorem trusts_acceptText (text : String) : Trusts (acceptText text) := by
  refine ⟨moves_acceptText text, fun s e s' _ h => ?_⟩
  rw [acceptText, accept_apply] at h
  split at h <;> cases h

theorem Trusts.ifText (hp : Trusts p) (hq : Trusts q) (text : String) :
    Trusts (do if ← acceptText text then p else q) := by
  refine (trusts_acceptText text).bind fun b => ?_
  cases b with
  | false => exact hq
  | true => exact hp

/-- Something else is missing. -/
theorem not_blames_missing {expected : String} (h : expected ≠ "a valid literal")
    (s : TokenStream) : ¬(missing s expected).BlamesSpelling := by
  rintro ⟨found, offset, he⟩
  unfold missing at he
  split at he
  · exact h (ParseError.unexpectedToken.inj he).1
  · cases he

theorem trusts_expect {expected : String} (h : expected ≠ "a valid literal")
    (pattern : Token.Pattern) : Trusts (expect pattern expected) := by
  refine ⟨moves_expect pattern expected, fun s e s' _ he => ?_⟩
  rw [expect, stream_bind] at he
  cases hn : s.stream.next? with
  | none =>
    simp only [hn, throw_apply] at he
    cases he
    exact not_blames_missing h _
  | some t =>
    simp only [hn] at he
    split at he
    · cases he
    · cases he
      exact not_blames_missing h _

theorem trusts_expectText {expected : String} (h : expected ≠ "a valid literal") (text : String) :
    Trusts (expectText text expected) := (trusts_expect h _).bind fun _ => .pure _

theorem trusts_expectName {expected : String} (h : expected ≠ "a valid literal") :
    Trusts (expectName expected) := (trusts_expect h _).bind fun _ => .pure _

theorem trusts_tooDeep : Trusts (tooDeep : Parse α) :=
  trusts_stream.bind fun _ => .throw (by rintro ⟨_, _, ⟨⟩⟩)

theorem trusts_optionalAfter (h : Trusts p) (text : String) : Trusts (optionalAfter text p) :=
  Trusts.ifText (h.bind fun _ => .pure _) (.pure _) text

/-- The text for a missing comma starts with a quote. -/
theorem commaOr_ne (closing : String) : s!"',' or '{closing}'" ≠ "a valid literal" := by
  intro h
  have hchars := congrArg (fun s : String => s.toList.head?) h
  simp [String.toList_append, ToString.toString] at hchars

theorem trusts_listTail (h : Trusts item) (closing : String) : (bound : List Token) →
    Trusts (listTail item closing bound)
  | [] => trusts_stream.bind fun s => .throw (not_blames_missing (commaOr_ne closing) s)
  | _ :: bound => by
    refine Trusts.ifText (.pure _) ?_ closing
    refine (trusts_expectText (commaOr_ne closing) ",").bind fun _ => h.bind fun _ => ?_
    exact (trusts_listTail h closing bound).bind fun _ => .pure _

theorem trusts_commaSeparated (h : Trusts item) (closing : String) :
    Trusts (commaSeparated item closing) := by
  refine Trusts.ifText (.pure _) ?_ closing
  refine h.bind fun _ => trusts_stream.bind fun _ => ?_
  exact (trusts_listTail h closing _).bind fun _ => .pure _

end

/-! ## Expressions -/

theorem trusts_build {offset : Nat} {make : Node → Expr} : Trusts (build offset make) := by
  refine ⟨moves_build, fun s e s' _ he => ?_⟩
  rw [build_apply] at he
  split at he
  · cases he
    rintro ⟨_, _, ⟨⟩⟩
  · cases he

/-- A parser one level of nesting deeper. -/
theorem Trusts.nested {p : Parse α} (h : Trusts p) : Trusts (nested p) := by
  refine ⟨moves_nested h.moves, fun s e s' hs he => ?_⟩
  by_cases hdepth : s.depth = nestingLimit
  · rw [nested_of_limit hdepth] at he
    exact trusts_tooDeep.error s e s' hs he
  · cases hp : p s.deeper with
    | ok a t =>
      rw [nested_eq_ok.2 ⟨hdepth, t, hp, rfl⟩] at he
      cases he
    | error f t =>
      rw [nested_of_error hdepth hp] at he
      cases he
      exact h.error s.deeper _ t hs hp

section
variable {inner : Parse Expr} (h : Trusts inner)
include h

theorem trusts_named (offset : Nat) : Trusts (named inner offset) := by
  refine (trusts_expectName (by decide)).bind fun _ => Trusts.ifText ?_ trusts_build "("
  exact (trusts_commaSeparated h ")").bind fun _ => trusts_build

/-- A literal that comes next is read, for it spells a value. -/
theorem trusts_primary : Trusts (primary inner) := by
  refine ⟨moves_primary h.moves, fun s e s' hs he => ?_⟩
  by_cases hno : NoKeywordLiteral s
  · rw [primary_of_noKeywordLiteral hno] at he
    cases hl : s.stream.next?.filter Token.isLiteral with
    | some t =>
      obtain ⟨ht, hlit⟩ := Option.filter_eq_some_iff.1 hl
      obtain ⟨v, hv⟩ := hs t (List.mem_of_mem_head? ht) hlit
      simp only [hl, literal, advance_bind, hv] at he
      exact trusts_build.error _ e s' ((ParserState.Onward.next ht).legible hs) he
    | none =>
      simp only [hl] at he
      split at he
      · rename_i hp
        obtain ⟨t, ht⟩ := TokenStream.exists_of_peek hp
        refine Trusts.error (h.bind fun a => ?_) s.next e s'
          ((ParserState.Onward.next ht).legible hs) he
        exact (trusts_expectText (by decide) _).bind fun _ => trusts_build
      · split at he
        · exact (trusts_named h _).error s e s' hs he
        · cases he
          exact not_blames_missing (by decide) _
  · obtain ⟨w, hw, hp⟩ : ∃ w ∈ Grammar.valueWords, s.stream.peek (.text w.1) = true := by
      simpa [NoKeywordLiteral] using hno
    obtain ⟨t, ht⟩ := TokenStream.exists_of_peek hp
    rw [primary_of_valueWord hw hp] at he
    exact trusts_build.error _ e s' ((ParserState.Onward.next ht).legible hs) he

theorem trusts_member (receiver : Expr) : Trusts (member inner receiver) := by
  refine (trusts_expect (by decide) _).bind fun name => Trusts.ifText ?_ trusts_build "("
  exact (trusts_commaSeparated h ")").bind fun _ => trusts_build

theorem trusts_members : (bound : List Token) → (receiver : Expr) →
    Trusts (members inner bound receiver)
  | [], _ => .pure _
  | _ :: bound, receiver =>
    Trusts.ifText ((trusts_member h receiver).bind fun e => trusts_members bound e) (.pure _) "."

theorem trusts_secondary : Trusts (secondary inner) :=
  (trusts_primary h).bind fun e => trusts_stream.bind fun _ => trusts_members h _ e

end

section
variable {operand : Parse Expr} (h : Trusts operand) (operators : List BinaryOperator)
include h

theorem trusts_chain : (bound : List Token) → (left : Expr) →
    Trusts (chain operators operand bound left)
  | [], _ => .pure _
  | _ :: bound, left => by
    refine ⟨moves_chain h.moves operators _ left, fun s e s' hs he => ?_⟩
    have hpeek : peekOperator operators s = .ok _ s := peekOperator_eq_ok.2 ⟨rfl, rfl⟩
    rw [chain, bind_of_ok hpeek] at he
    generalize ho : Option.bind _ _ = o at he
    cases o with
    | none => cases he
    | some operator =>
      -- An operator was found, so there is a token to pass.
      obtain ⟨t, ht, -⟩ := Option.bind_eq_some_iff.1 ho
      have hnext := (ParserState.Onward.next (Option.filter_eq_some_iff.1 ht).1).legible hs
      refine Trusts.error (h.bind fun right => ?_) s.next e s' hnext he
      exact trusts_build.bind fun joined => trusts_chain bound joined

theorem trusts_leftAssociative : Trusts (leftAssociative operators operand) :=
  h.bind fun left => trusts_stream.bind fun _ => trusts_chain h operators _ left

end

theorem trusts_expression : (room : Nat) → Trusts (expression room)
  | 0 => trusts_tooDeep
  | room + 1 => by
    have hm := trusts_leftAssociative (trusts_secondary (trusts_expression room)) [.mul, .div]
    have ha := trusts_leftAssociative hm [.add, .sub]
    have hc := trusts_leftAssociative ha
      [.less, .lessEqual, .greater, .greaterEqual, .equal, .notEqual]
    exact (trusts_leftAssociative hc [.and, .or]).nested

/-! ## Statements -/

section
variable {expression : Parse Expr} {statement : Parse Stmt}

theorem trusts_statementsUpTo (hs : Trusts statement) (terminators : List String) :
    (bound : List Token) → Trusts (statementsUpTo statement terminators bound)
  | [] => .pure _
  | _ :: bound => by
    refine Trusts.bind (trusts_stream.bind fun _ => .pure _) fun b => ?_
    cases b with
    | true => exact .pure _
    | false => exact hs.bind fun _ =>
        (trusts_statementsUpTo hs terminators bound).bind fun _ => .pure _

theorem trusts_block (hs : Trusts statement) (terminators : List String) :
    Trusts (block statement terminators) :=
  trusts_stream.bind fun _ => trusts_statementsUpTo hs terminators _

theorem trusts_declaration (he : Trusts expression) : Trusts (declaration expression) := by
  refine trusts_stream.bind fun _ => (trusts_expectName (by decide)).bind fun _ => ?_
  refine (trusts_optionalAfter (trusts_expectName (by decide)) ":").bind fun _ => ?_
  refine (trusts_optionalAfter he "=").bind fun _ => ?_
  exact (trusts_expectText (by decide) _).bind fun _ => trusts_freshId.bind fun _ => .pure _

theorem trusts_branch (he : Trusts expression) (hs : Trusts statement) :
    Trusts (branch expression statement) := by
  refine he.bind fun _ => (trusts_expectText (by decide) _).bind fun _ => ?_
  refine (trusts_block hs _).bind fun _ => ?_
  refine (trusts_optionalAfter (trusts_block hs _) "ELSE").bind fun _ => ?_
  exact (trusts_expectText (by decide) _).bind fun _ => .pure _

theorem trusts_forEach (he : Trusts expression) (hs : Trusts statement) :
    Trusts (forEach expression statement) := by
  refine (trusts_expectName (by decide)).bind fun _ => ?_
  refine (trusts_expectText (by decide) _).bind fun _ => he.bind fun _ => ?_
  refine (trusts_expectText (by decide) _).bind fun _ => (trusts_block hs _).bind fun _ => ?_
  exact (trusts_expectText (by decide) _).bind fun _ => .pure _

theorem trusts_loop (he : Trusts expression) (hs : Trusts statement) :
    Trusts (loop expression statement) := by
  refine he.bind fun _ => (trusts_expectText (by decide) _).bind fun _ => ?_
  refine (trusts_block hs _).bind fun _ => ?_
  exact (trusts_expectText (by decide) _).bind fun _ => .pure _

theorem trusts_ret (he : Trusts expression) : Trusts (ret expression) :=
  trusts_stream.bind fun _ => he.bind fun _ =>
    (trusts_expectText (by decide) _).bind fun _ => .pure _

theorem trusts_expressionOrAssignment (he : Trusts expression) :
    Trusts (expressionOrAssignment expression) := by
  refine he.bind fun receiver => (trusts_optionalAfter he "=").bind fun value => ?_
  refine (trusts_expectText (by decide) _).bind fun _ => ?_
  cases value with
  | none => exact .pure _
  | some _ => exact .pure _

theorem trusts_statementOf (he : Trusts expression) (hs : Trusts statement) :
    Trusts (statementOf expression statement) := by
  refine Trusts.ifText ((trusts_declaration he).bind fun _ => .pure _) ?_ "LET"
  refine Trusts.ifText (trusts_branch he hs) ?_ "IF"
  refine Trusts.ifText (trusts_forEach he hs) ?_ "FOR"
  refine Trusts.ifText (trusts_loop he hs) ?_ "WHILE"
  exact Trusts.ifText (trusts_ret he) (trusts_expressionOrAssignment he) "RETURN"

end

theorem trusts_statement : (room : Nat) → Trusts (statement room)
  | 0 => trusts_tooDeep
  | room + 1 => (trusts_statementOf (trusts_expression room) (trusts_statement room)).nested

/-! ## Programs -/

theorem trusts_field : Trusts field := by
  refine trusts_stream.bind fun _ => (trusts_expectName (by decide)).bind fun _ => ?_
  refine (trusts_expectText (by decide) _).bind fun _ => ?_
  refine (trusts_expectName (by decide)).bind fun _ => ?_
  refine (trusts_optionalAfter (trusts_expression _) "=").bind fun _ => ?_
  exact (trusts_expectText (by decide) _).bind fun _ => trusts_freshId.bind fun _ => .pure _

theorem trusts_parameter : Trusts parameter := by
  refine (trusts_expectName (by decide)).bind fun _ => ?_
  exact (trusts_optionalAfter (trusts_expectName (by decide)) ":").bind fun _ => .pure _

theorem trusts_method : Trusts method := by
  refine trusts_stream.bind fun _ => (trusts_expectName (by decide)).bind fun _ => ?_
  refine (trusts_expectText (by decide) _).bind fun _ => ?_
  refine (trusts_commaSeparated trusts_parameter _).bind fun _ => ?_
  refine (trusts_optionalAfter (trusts_expectName (by decide)) ":").bind fun _ => ?_
  refine (trusts_expectText (by decide) _).bind fun _ => ?_
  refine (trusts_block (trusts_statement _) _).bind fun _ => ?_
  exact (trusts_expectText (by decide) _).bind fun _ => trusts_freshId.bind fun _ => .pure _

theorem trusts_manyAfter {p : Parse α} (h : Trusts p) (text : String) : (bound : List Token) →
    Trusts (manyAfter text p bound)
  | [] => .pure _
  | _ :: bound => by
    refine (trusts_optionalAfter h text).bind fun a => ?_
    cases a with
    | none => exact .pure _
    | some _ => exact (trusts_manyAfter h text bound).bind fun _ => .pure _

theorem trusts_source : Trusts source := by
  refine trusts_stream.bind fun _ => (trusts_manyAfter trusts_field "LET" _).bind fun _ => ?_
  refine trusts_stream.bind fun _ => (trusts_manyAfter trusts_method "DEF" _).bind fun _ => ?_
  refine trusts_stream.bind fun s => ?_
  cases s.next? with
  | none => exact .pure _
  | some _ => exact .throw (by rintro ⟨_, _, ⟨⟩⟩)

end Parse

/-! ## Tokens of a text -/

/-- A token of a text is no longer than the text. -/
theorem Tokenization.length_le {cs : List Char} {p : Nat} {ts : List Token} {t : Token}
    (h : Tokenization cs p ts) (ht : t ∈ ts) : t.text.toList.length ≤ cs.length := by
  rw [← h.text t ht, List.extract_eq_take_drop, List.length_take, List.length_drop]
  omega

/-- A literal token of a text denotes one value, and is read as it. -/
theorem Tokenization.exists_ofToken? {cs : List Char} {p : Nat} {ts : List Token} {t : Token}
    (h : Tokenization cs p ts) (hsize : Numeral.isScale cs.length = true) (ht : t ∈ ts)
    (hlit : t.isLiteral = true) :
    ∃ v, Literal.ofToken? t = some v ∧ ∀ v', Denotes t.kind t.text.toList v' ↔ v' = v := by
  have hread : ∀ v, Denotes t.kind t.text.toList v → Literal.ofToken? t = some v := by
    intro v hv
    have hof : Literal.ofToken? ⟨t.kind, String.ofList t.text.toList, t.offset⟩ = some v :=
      ofToken?_of_denotes hv (isScale_of_le hsize (h.length_le ht))
    rwa [String.ofList_toList] at hof
  have hkind : t.kind ≠ .identifier ∧ t.kind ≠ .operator := by
    constructor <;> intro hk <;> simp [Token.isLiteral, hk] at hlit
  obtain ⟨v, hv⟩ := exists_denotes (h.fits t ht) hkind
  refine ⟨v, hread v hv, fun v' => ⟨fun hv' => ?_, fun he => he ▸ hv⟩⟩
  exact Option.some.inj ((hread v' hv').symm.trans (hread v hv))

/-- Every literal token of a text is read as the one value that it denotes, and no parser that
    runs on tokens of the text reports a literal that is not valid.  Scales of decimals are
    64-bit numbers, and so are lengths of texts. -/
theorem literals_denote {source : String} {ts : List Token} (h : lex source = .ok ts)
    (hsize : Numeral.isScale source.length = true) :
    (∀ t ∈ ts, t.isLiteral = true →
      ∃ v, Literal.ofToken? t = some v ∧ ∀ v', Denotes t.kind t.text.toList v' ↔ v' = v) ∧
    (∀ e, parse ts = .error e → ¬e.BlamesSpelling) ∧
    ∀ s : ParserState, (∀ t ∈ s.rest, t ∈ ts) → ∀ room e s',
      Parse.source s = .error e s' ∨ Parse.statement room s = .error e s' ∨
        Parse.expression room s = .error e s' →
      ¬e.BlamesSpelling := by
  have htokens : Tokenization source.toList 0 ts := tokenization_of_cut (Cursor.cut_of_lex h) rfl
  rw [← String.length_toList] at hsize
  have hread : ∀ t ∈ ts, t.isLiteral = true →
      ∃ v, Literal.ofToken? t = some v ∧ ∀ v', Denotes t.kind t.text.toList v' ↔ v' = v :=
    fun t ht hlit => htokens.exists_ofToken? hsize ht hlit
  have hlegible : ∀ s : ParserState, (∀ t ∈ s.rest, t ∈ ts) → s.Legible := by
    intro s hs t ht hlit
    obtain ⟨v, hv, -⟩ := hread t (hs t ht) hlit
    exact ⟨v, hv⟩
  refine ⟨hread, fun e he => ?_, fun s hs room e s' he => ?_⟩
  · obtain ⟨s', hs'⟩ := Parse.onTokens_eq_error.1 he
    exact Parse.trusts_source.error _ e s' (hlegible (.ofTokens ts) fun t ht => ht) hs'
  · rcases he with he | he | he
    · exact Parse.trusts_source.error s e s' (hlegible s hs) he
    · exact (Parse.trusts_statement room).error s e s' (hlegible s hs) he
    · exact (Parse.trusts_expression room).error s e s' (hlegible s hs) he

/-- Escaped quotes and backslashes, and a signed decimal. -/
def literalsText : String := "'\\\\'+\"\\\"\\\\n\"- -1.50"

def literalsTokens : List Token :=
  [⟨.character, "'\\\\'", 0⟩, ⟨.operator, "+", 4⟩, ⟨.string, "\"\\\"\\\\n\"", 5⟩,
    ⟨.operator, "-", 12⟩, ⟨.decimal, "-1.50", 14⟩]

theorem lex_literalsText : lex literalsText = .ok literalsTokens :=
  eq_ok_of_toOption (by decide +kernel)

theorem literals_denote_escaped : lex literalsText = .ok literalsTokens ∧
    Numeral.isScale literalsText.length = true ∧
    (∀ t ∈ literalsTokens, t.isLiteral = true →
      ∃ v, Literal.ofToken? t = some v ∧ ∀ v', Denotes t.kind t.text.toList v' ↔ v' = v) ∧
    literalsTokens.filterMap Literal.ofToken? =
      [.character '\\', .string "\"\\n", .decimal ⟨-150, 2⟩] :=
  ⟨lex_literalsText, by decide, (literals_denote lex_literalsText (by decide)).1, by decide⟩

end TinyScript
