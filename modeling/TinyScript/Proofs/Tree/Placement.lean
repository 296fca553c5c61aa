import TinyScript.Proofs.Tree.Acceptance
import TinyScript.Proofs.Token.Tokenization

/-
  What the offsets of expressions name.

  The parser of expressions yields them along their tokens, each known by the token that it is
  known by (`Expr.Along`).  So it is in statements and in programs.

  * `Stmt.Spans`, `Source.Spans`: trees along the tokens they were read from;
  * `offsets_name_tokens`: the offsets in every program.
-/

namespace TinyScript

open Grammar

/-! ## Trees along their tokens -/

/-- Statements along the tokens they were read from. -/
inductive Stmt.Spans (P : Token → Expr → Prop) : Phrase Stmt
  | intro {ts s} : StatementOf (Expr.Spans P) (Stmt.Spans P) ts s → Stmt.Spans P ts s

/-- The same of programs. -/
def Source.Spans (P : Token → Expr → Prop) (tokens : List Token) (s : Source) : Prop :=
  SourceOf (Expr.Spans P) (Stmt.Spans P) tokens (s.outline id)

theorem Stmt.Spans.ne_nil {P : Token → Expr → Prop} {ts : List Token} {s : Stmt}
    (h : s.Spans P ts) : ts ≠ [] := by
  obtain ⟨h⟩ := h
  exact Parse.statementOf_ne_nil h

/-! ## The parser -/

namespace Parse

/-- What the parser of expressions gives goes along the tokens that it moves past. -/
theorem places_expression (room : Nat) :
    Yields (expression room) (Expr.Spans Expr.KnownBy) fun e b => id e = b :=
  (yields_along room).mono fun _ _ h => h.2

/-- What the parser of programs gives goes along all the tokens. -/
theorem places_source {s s' : ParserState} {p : Source} (hs : s.Lexed)
    (h : source s = .ok p s') : p.Spans Expr.KnownBy s.rest :=
  yields_sourceOf (places_expression nestingLimit)
    (yields_statements (S := fun _ => Stmt.Spans Expr.KnownBy) places_expression
      (fun _ _ _ => .intro) (fun _ _ _ h => h.ne_nil) nestingLimit)
    (fun _ _ h => h.ne_nil) hs h

end Parse

/-! ## Programs -/

/-- The initial value of a global variable has a text of its own. -/
theorem Grammar.SourceOf.value {L : Phrase Expr} {M : Phrase Stmt} {ts : List Token} {s : Source}
    (h : SourceOf L M ts s) {d : Field} (hd : d ∈ s.fields) {e : Expr} (he : d.value = some e) :
    ∃ us, L us e := by
  obtain ⟨hfields, -⟩ := h
  induction hfields with
  | nil => cases hd
  | cons hfield _ ih =>
    rcases List.mem_cons.1 hd with rfl | hd
    · obtain ⟨-, -, -, hvalue, -⟩ := hfield
      simp only at he
      subst he
      cases hvalue with
      | some hled =>
        obtain ⟨-, hL⟩ := hled
        exact ⟨_, hL⟩
    · exact ih hd

/-- Tokens of a text that stand at different places have different offsets. -/
theorem offsets_increase {text : String} {tokens : List Token} (h : lex text = .ok tokens) :
    tokens.Pairwise fun t u => t.offset < u.offset := by
  have ht : Tokenization text.toList 0 tokens := tokenization_of_cut (Cursor.cut_of_lex h) rfl
  refine ht.ordered.imp_of_mem fun hmem _ hle => ?_
  exact Nat.lt_of_lt_of_le (ht.offset_lt_stop hmem) hle

/-- **What offsets name.**  In the program read from a text every member of an object has the
    offset of its name and every other expression the offset of its first token, except that a
    binary operation with a member of an object at the far left has the offset of that member's
    name.  Offsets tell the tokens of a text apart. -/
theorem offsets_name_tokens {text : String} {tokens : List Token} {s : Source}
    (hl : lex text = .ok tokens) (hp : parse tokens = .ok s) :
    s.Spans Expr.KnownBy tokens ∧ tokens.Pairwise fun t u => t.offset < u.offset := by
  obtain ⟨s', hs'⟩ := Parse.onTokens_eq_ok.1 hp
  exact ⟨Parse.places_source (lexed_of_lex hl) hs', offsets_increase hl⟩

/-- A program in which a binary operation has a member of an object at the far left. -/
def memberSumText : String := "LET x: Integer = a.b + 1;"

def memberSumTokens : List Token :=
  [⟨.identifier, "LET", 0⟩, ⟨.identifier, "x", 4⟩, ⟨.operator, ":", 5⟩,
    ⟨.identifier, "Integer", 7⟩, ⟨.operator, "=", 15⟩, ⟨.identifier, "a", 17⟩,
    ⟨.operator, ".", 18⟩, ⟨.identifier, "b", 19⟩, ⟨.operator, "+", 21⟩, ⟨.integer, "1", 23⟩,
    ⟨.operator, ";", 24⟩]

def memberSumTree : Source where
  fields := [⟨⟨4, 0⟩, "x", "Integer", some (.binary ⟨3, 19⟩ .add
    (.field ⟨1, 19⟩ (.var ⟨0, 17⟩ "a") "b") (.literal ⟨2, 23⟩ (.integer 1)))⟩]
  methods := []

theorem lex_memberSumText : lex memberSumText = .ok memberSumTokens :=
  eq_ok_of_toOption (by decide +kernel)

theorem parse_memberSumTokens : parse memberSumTokens = .ok memberSumTree := by
  rfl

theorem offsets_name_tokens_memberSum : lex memberSumText = .ok memberSumTokens ∧
    parse memberSumTokens = .ok memberSumTree ∧
    memberSumTree.Spans Expr.KnownBy memberSumTokens ∧
      memberSumTokens.Pairwise fun t u => t.offset < u.offset :=
  ⟨lex_memberSumText, parse_memberSumTokens,
    offsets_name_tokens lex_memberSumText parse_memberSumTokens⟩

/-- The operation in it does not have the offset of its first token. -/
theorem memberSum_not_firstToken : lex memberSumText = .ok memberSumTokens ∧
    parse memberSumTokens = .ok memberSumTree ∧
    ¬memberSumTree.Spans (fun t e => e.offset = t.offset) memberSumTokens := by
  refine ⟨lex_memberSumText, parse_memberSumTokens, fun h => ?_⟩
  -- the first token of the operation is the first token of its left operand, which is `a`
  obtain ⟨us, hsum⟩ := h.value (List.mem_singleton.2 rfl) rfl
  cases hsum with
  | @binary t ts _ _ _ _ _ _ hleft _ _ hknown =>
    have hsum : 19 = t.offset := hknown
    obtain ⟨vs, ws, hts, hreceiver⟩ := hleft.of_field
    obtain ⟨t', rfl, hknown'⟩ := hreceiver.of_var
    have hfirst : 17 = t'.offset := hknown'
    obtain ⟨rfl, -⟩ := List.cons.inj hts
    omega

end TinyScript
