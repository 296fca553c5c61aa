import TinyScript.Proofs.Tree.Extent
import TinyScript.Proofs.Tree.Numbering
import TinyScript.Proofs.Tree.Progress
import TinyScript.Proofs.Tree.Room
import TinyScript.Proofs.Tree.SourceCompleteness

/-
  A parser in use.

  A parser may be called again and again, also after calls that failed.  Every call closes
  the levels that it opens, however it ends, and leaves the heights recorded before.  So
  between calls no level is open, and the parser is like a fresh one at a later place, which
  reads there whatever the grammar derives.

  * `Call`, `Answer`: what a parser is asked and what it gives;
  * `Parse.session`: calls one after another;
  * `ParserState.Idle`: what holds between calls;
  * `Answer.Proper`: what holds of every answer;
  * `parser_session`: all of it, for every list of tokens and every sequence of calls.
-/

namespace TinyScript

open Parse

/-! ## Calls -/

/-- A call of a parser. -/
inductive Call where
  /-- A whole program. -/
  | source
  /-- A statement. -/
  | statement
  /-- An expression. -/
  | expression
  /-- Whether the next token passes the pattern. -/
  | peek (p : Token.Pattern)
  /-- Moves past the next token if it passes the pattern. -/
  | accept (p : Token.Pattern)
  /-- Moves past the next token, which must pass the pattern. -/
  | expect (p : Token.Pattern) (expected : String)

/-- What a call gives if it succeeds. -/
inductive Answer where
  | source (s : Source)
  | statement (st : Stmt)
  | expression (e : Expr)
  | found (b : Bool)
  | token (t : Token)

/-- Runs a call.  Its rules have room for all levels, also where some are open. -/
def Call.run : Call → Parse Answer
  | source => return .source (← Parse.source)
  | statement => return .statement (← Parse.statement nestingLimit)
  | expression => return .expression (← Parse.expression nestingLimit)
  | peek p => return .found (← Parse.peek p)
  | accept p => return .found (← Parse.accept p)
  | expect p expected => return .token (← Parse.expect p expected)

namespace Answer

/-- The parts of an answer that have an identity. -/
def parts : Answer → List Part
  | source s => s.parts
  | statement st => st.parts
  | expression e => e.parts
  | found _ | token _ => []

/-- Whether the answer is a statement or an expression. -/
def isPhrase : Answer → Bool
  | statement _ | expression _ => true
  | source _ | found _ | token _ => false

/-- The answer is neither too high nor too deep. -/
def Fits : Answer → Prop
  | source s => ∀ m ∈ s.methods, Stmt.nestingList m.body ≤ nestingLimit
  | statement st => st.nesting ≤ nestingLimit
  | expression e => e.height ≤ nestingLimit
  | found _ | token _ => True

/-- What holds of an answer for which the parser went from one state to another: the identities
    in it are those handed out on the way, a statement or an expression has taken a token,
    nothing is too high or too deep, and the expressions in it are recorded with the heights
    of their trees. -/
structure Proper (s s' : ParserState) (a : Answer) : Prop where
  ids : Counts s.nextId (a.parts.map Part.id) s'.nextId
  progress : a.isPhrase = true → s.stream.position < s'.stream.position
  fits : a.Fits
  records : s'.Records a.parts

end Answer

/-- Calls one after another, whether they succeed or fail: the answers of those that succeed,
    and the state in the end. -/
def Parse.session (s : ParserState) : List Call → List Answer × ParserState
  | [] => ([], s)
  | c :: cs =>
    match c.run s with
    | .ok a s' => (a :: (session s' cs).1, (session s' cs).2)
    | .error _ s' => session s' cs

/-- Between calls no level is open.  The parser stands within the tokens, as a fresh one that
    has been moved there, and what the grammar derives is read. -/
structure ParserState.Idle (tokens : List Token) (s : ParserState) : Prop where
  depth : s.depth = 0
  position : s.stream.position ≤ tokens.length
  stream : s.stream = (TokenStream.ofList tokens).advanceBy s.stream.position
  expression : (∀ t ∈ tokens, t.Lexed) → ∀ ts b rest, s.rest = ts ++ rest →
    Grammar.Expression nestingLimit ts b → Stops continuations rest →
    ∃ e s', Call.expression.run s = .ok (.expression e) s' ∧ s'.rest = rest ∧ e.bare = b
  statement : (∀ t ∈ tokens, t.Lexed) → ∀ ts b rest, s.rest = ts ++ rest →
    Grammar.Statement nestingLimit ts b →
    ∃ st s', Call.statement.run s = .ok (.statement st) s' ∧ s'.rest = rest ∧ st.bare = b

/-! ## One call -/

theorem Call.moves (c : Call) : Moves c.run := by
  cases c with
  | source => exact moves_source.bind fun _ => .pure _
  | statement => exact (moves_statement _).bind fun _ => .pure _
  | expression => exact (moves_expression _).bind fun _ => .pure _
  | peek p => exact (moves_peek p).bind fun _ => .pure _
  | accept p => exact (moves_accept p).bind fun _ => .pure _
  | expect p expected => exact (moves_expect p expected).bind fun _ => .pure _

/-- What a call gives, if it succeeds. -/
theorem Call.proper {c : Call} {s s' : ParserState} {a : Answer} (h : c.run s = .ok a s') :
    a.Proper s s' := by
  cases c with
  | source =>
    obtain ⟨p, s₁, hp, ⟨⟩⟩ := bind_eq_ok.1 h
    obtain ⟨hfits, hrecords⟩ := gives_source _ _ _ hp
    exact ⟨numbers_source _ _ _ hp, nofun, hfits, hrecords⟩
  | statement =>
    obtain ⟨st, s₁, hst, ⟨⟩⟩ := bind_eq_ok.1 h
    obtain ⟨hfits, hrecords⟩ := gives_statement _ _ _ _ hst
    exact ⟨numbers_statement _ _ _ _ hst, fun _ => consumes_statement _ _ _ _ hst, hfits, hrecords⟩
  | expression =>
    obtain ⟨e, s₁, he, ⟨⟩⟩ := bind_eq_ok.1 h
    have hknows := gives_expression _ _ _ _ he
    exact ⟨numbers_expression _ _ _ _ he, fun _ => consumes_expression _ _ _ _ he,
      hknows.self.2.2, hknows⟩
  | peek p =>
    obtain ⟨b, s₁, ⟨⟩, ⟨⟩⟩ := bind_eq_ok.1 h
    exact ⟨.nil _, nofun, trivial, .nil⟩
  | accept p =>
    obtain ⟨b, s₁, hb, ⟨⟩⟩ := bind_eq_ok.1 h
    rw [accept_apply] at hb
    split at hb
    all_goals
      cases hb
      exact ⟨.nil _, nofun, trivial, .nil⟩
  | expect p expected =>
    obtain ⟨t, s₁, ht, ⟨⟩⟩ := bind_eq_ok.1 h
    obtain ⟨-, -, rfl⟩ := expect_eq_ok.1 ht
    exact ⟨.nil _, nofun, trivial, .nil⟩

/-! ## Sequences of calls -/

theorem onward_session (s : ParserState) (calls : List Call) : s.Onward (session s calls).2 := by
  induction calls generalizing s with
  | nil => exact .refl s
  | cons c cs ih =>
    rw [session]
    cases h : c.run s with
    | ok a s' => exact (c.moves.of_ok h).trans (ih s')
    | error e s' => exact (c.moves.of_error h).trans (ih s')

/-- The identities in the answers, in order, grow from those handed out before. -/
theorem ids_session (s : ParserState) (calls : List Call) :
    let ids := ((session s calls).1.flatMap Answer.parts).map Part.id
    ids.Pairwise (· < ·) ∧ ∀ id ∈ ids, s.nextId ≤ id ∧ id < (session s calls).2.nextId := by
  induction calls generalizing s with
  | nil => exact ⟨.nil, List.forall_mem_nil _⟩
  | cons c cs ih =>
    simp only [session]
    cases h : c.run s with
    | error e s' =>
      obtain ⟨hpairwise, hbounds⟩ := ih s'
      refine ⟨hpairwise, fun id hid => ?_⟩
      have hnext : s.nextId ≤ s'.nextId := (c.moves.of_error h).nextId
      exact ⟨Nat.le_trans hnext (hbounds id hid).1, (hbounds id hid).2⟩
    | ok a s' =>
      obtain ⟨hpairwise, hbounds⟩ := ih s'
      obtain ⟨hids, hnext⟩ := (Call.proper h).ids
      have hlast : s'.nextId ≤ (session s' cs).2.nextId := (onward_session s' cs).nextId
      have hbefore : ∀ id ∈ a.parts.map Part.id, s.nextId ≤ id ∧ id < s'.nextId := by
        intro id hid
        rw [hids] at hid
        obtain ⟨hle, hlt⟩ := List.mem_range'_1.1 hid
        exact ⟨hle, hnext ▸ hlt⟩
      simp only [List.flatMap_cons, List.map_append]
      refine ⟨List.pairwise_append.2 ⟨?_, hpairwise, fun id hid id' hid' => ?_⟩, ?_⟩
      · rw [hids]
        exact List.pairwise_lt_range'
      · exact Nat.lt_of_lt_of_le (hbefore id hid).2 (hbounds id' hid').1
      · refine List.forall_mem_append.2 ⟨fun id hid => ?_, fun id hid => ?_⟩
        · exact ⟨(hbefore id hid).1, Nat.lt_of_lt_of_le (hbefore id hid).2 hlast⟩
        · exact ⟨Nat.le_trans (hnext ▸ Nat.le_add_right _ _) (hbounds id hid).1, (hbounds id hid).2⟩

/-- The expressions in the answers stay recorded with the heights of their trees. -/
theorem records_session (s : ParserState) (calls : List Call) :
    (session s calls).2.Records ((session s calls).1.flatMap Answer.parts) := by
  induction calls generalizing s with
  | nil => exact .nil
  | cons c cs ih =>
    rw [session]
    cases h : c.run s with
    | error e s' => exact ih s'
    | ok a s' =>
      rw [List.flatMap_cons]
      exact ((Call.proper h).records.mono (onward_session s' cs)).append (ih s')

theorem idle_session (tokens : List Token) (calls : List Call) :
    (session (.ofTokens tokens) calls).2.Idle tokens := by
  obtain ⟨⟨n, hn, hstream⟩, -, hdepth, -⟩ := onward_session (.ofTokens tokens) calls
  generalize (session (.ofTokens tokens) calls).2 = s at hstream hdepth
  have hposition : s.stream.position = n := by
    rw [hstream, TokenStream.position_advanceBy]
    exact Nat.zero_add n
  have hrest : s.rest = tokens.drop n := by
    rw [ParserState.rest, hstream, TokenStream.rest_advanceBy]
    rfl
  have hopen : s.depth = 0 := hdepth
  have hadmits : (∀ t ∈ tokens, t.Lexed) → s.Admits nestingLimit := fun h =>
    ⟨fun t ht => h t (List.mem_of_mem_drop (hrest ▸ ht)),
      Nat.le_of_eq (by rw [hopen, Nat.zero_add])⟩
  refine ⟨hopen, hposition ▸ hn, hposition ▸ hstream, fun h ts b rest hs hb hstop => ?_,
    fun h ts b rest hs hb => ?_⟩
  · obtain ⟨e, s', he, -, hrest', hbare⟩ :=
      reads_expression nestingLimit s ts b rest (hadmits h) hs hb hstop
    exact ⟨e, s', bind_of_ok he, hrest', hbare⟩
  · obtain ⟨st, s', hst, -, hrest', hbare⟩ :=
      reads_statement nestingLimit s ts b rest (hadmits h) hs hb (stops_nil rest)
    exact ⟨st, s', bind_of_ok hst, hrest', hbare⟩

/-- **A parser in use.**  After any calls on any list of tokens, however they ended, the parser
    is idle, no identity has been given twice, and the expressions that it gave are recorded
    with the heights of their trees, as is every expression that was created on the way.  A
    further call moves it forward within the tokens, and what the call gives is proper; the
    room with which its rules recur is not felt. -/
theorem parser_session (tokens : List Token) (calls : List Call) :
    let (answers, s) := session (.ofTokens tokens) calls
    s.Idle tokens ∧
    ((answers.flatMap Answer.parts).map Part.id).Pairwise (· < ·) ∧
    (∀ id ∈ (answers.flatMap Answer.parts).map Part.id, id < s.nextId) ∧
    s.Records (answers.flatMap Answer.parts) ∧
    (∀ e : Expr, Created s e → s.heights[e.id]? = some e.height ∧ e.height ≤ nestingLimit) ∧
    (∀ c : Call, s.stream.position ≤ (after c.run s).stream.position ∧
      s.nextId ≤ (after c.run s).nextId) ∧
    (∀ (c : Call) (a : Answer) (s' : ParserState), c.run s = .ok a s' → a.Proper s s') ∧
    ∀ room, nestingLimit ≤ room → Parse.statement room s = Parse.statement nestingLimit s ∧
      Parse.expression room s = Parse.expression nestingLimit s := by
  obtain ⟨hpairwise, hbounds⟩ := ids_session (.ofTokens tokens) calls
  have hidle := idle_session tokens calls
  refine ⟨hidle, hpairwise, fun id hid => (hbounds id hid).2, records_session _ calls,
    fun e he => he.known.self.2, fun c => ?_, fun c a s' h => c.proper h, fun room hroom => ?_⟩
  · exact ⟨(c.moves _).position_le, (c.moves _).nextId⟩
  · have hlimit : nestingLimit ≤ 0 + nestingLimit := Nat.le_of_eq (Nat.zero_add _).symm
    have hmore : nestingLimit ≤ 0 + room := by rwa [Nat.zero_add]
    exact ⟨sameAt_statement (Nat.zero_le _) hmore hlimit _ hidle.depth,
      sameAt_expression (Nat.zero_le _) hmore hlimit _ hidle.depth⟩

/-- A parenthesis that closes nothing, and a name. -/
def strayTokens : List Token := [⟨.operator, ")", 0⟩, ⟨.identifier, "y", 2⟩]

/-- After a call that failed and one that did not, the name is read. -/
theorem parser_session_stray : ∃ s s',
    session (.ofTokens strayTokens) [.expression, .accept (.text ")")] = ([.found true], s) ∧
      s.Idle strayTokens ∧ Call.expression.run s = .ok (.expression (.var ⟨0, 2⟩ "y")) s' ∧
      Answer.Proper s s' (.expression (.var ⟨0, 2⟩ "y")) := by
  obtain ⟨hidle, -, -, -, -, -, hproper, -⟩ :=
    parser_session strayTokens [.expression, .accept (.text ")")]
  exact ⟨_, _, rfl, hidle, rfl, hproper .expression _ _ rfl⟩

end TinyScript
