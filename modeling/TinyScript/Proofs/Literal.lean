import TinyScript.Proofs.Numeral
import TinyScript.Proofs.Token.Tokenization
import TinyScript.Proofs.Tree.ExprCompleteness

/-
  Literals survive being written and read.

  * `Literal.Same`: the value is the same, a decimal as a number;
  * `exists_fits_source`: what is written for a literal is one token that spells it;
  * `Parse.expression_of_primary`: a primary expression before the end is the expression;
  * `lex_parse_source`: a literal that is written, cut into tokens and parsed comes back.
-/

namespace TinyScript

open CharClass

namespace Literal

/-- The second literal has the value of the first: decimals stand for the same number, and
    are the same if the first has digits after the point. -/
def Same : Literal → Literal → Prop
  | decimal d, decimal d' => d'.value = d.value ∧ (1 ≤ d.scale → d' = d)
  | v, v' => v' = v

/-! ## Escapes -/

section
variable {quote : Char}

/-- What is written for a character is one character or escape between its quotes. -/
theorem quoted_escapeChar (hq : isEscapeCode quote = true) (c : Char) :
    Quoted quote (escapeChar quote c) := by
  unfold escapeChar
  split
  · exact .escape rfl
  · exact .escape rfl
  · exact .escape rfl
  · exact .escape rfl
  · exact .escape rfl
  · rename_i hslash hn hr _ _
    split
    · rename_i heq
      rw [beq_iff_eq] at heq
      rw [heq]
      exact .escape hq
    · rename_i hne
      exact .plain (by simpa using hne) hslash (by simpa [isLineEnd] using And.intro hn hr)

theorem unescapeChars_cons {c : Char} (h : c ≠ '\\') (cs : List Char) :
    unescapeChars (c :: cs) = c :: unescapeChars cs := by
  rw [unescapeChars]
  · intro hc _
    exact h hc
  · intro _ _ hc _
    exact h hc

/-- What is written for a character reads back as it, whatever follows. -/
theorem unescapeChars_escapeChar (hq : escapedChar quote = quote) (c : Char) (cs : List Char) :
    unescapeChars (escapeChar quote c ++ cs) = c :: unescapeChars cs := by
  unfold escapeChar
  split
  · rfl
  · rfl
  · rfl
  · rfl
  · rfl
  · rename_i hslash _ _ _ _
    split
    · rename_i heq
      rw [beq_iff_eq] at heq
      rw [heq, List.cons_append, List.cons_append, unescapeChars, hq, List.nil_append]
    · exact unescapeChars_cons hslash cs

theorem unescapeChars_escape (hq : escapedChar quote = quote) (cs : List Char) :
    unescapeChars (escape quote cs) = cs := by
  induction cs with
  | nil => rfl
  | cons c cs ih =>
    rw [escape, List.flatMap_cons, unescapeChars_escapeChar hq]
    exact congrArg (c :: ·) ih

/-- The content of a literal is what stands between its quotes. -/
theorem content_ofList (cs : List Char) :
    content (String.ofList (quote :: cs ++ [quote])) = unescapeChars cs := by
  simp [content]

end

/-! ## Tokens -/

/-- Only literal tokens spell values. -/
theorem isLiteral_of_ofToken? {t : Token} {v : Literal} (h : ofToken? t = some v) :
    t.isLiteral = true := by
  unfold ofToken? at h
  unfold Token.isLiteral
  split at h <;> simp_all

/-- A number without a plus sign is read as it stands. -/
theorem unsigned_of_ne {text : String} (h : ∀ cs, text.toList ≠ '+' :: cs) :
    unsigned text = text.toList := by
  unfold unsigned
  split
  · rename_i cs hcs
    exact absurd hcs (h cs)
  · rfl

/-- A number that is written has no plus sign. -/
theorem signOf_append_ne {n : Int} {ds : List Char} (hd : Digits ds) (cs rest : List Char) :
    Numeral.signOf n ++ (ds ++ rest) ≠ '+' :: cs := by
  unfold Numeral.signOf
  split
  · rintro ⟨⟩
  · obtain ⟨d, ds, rfl, hdigit⟩ := hd.exists_cons
    rintro ⟨⟩
    exact Numeral.ne_of_isDigit hdigit rfl rfl

/-- A word at the end of a text is an identifier. -/
theorem fits_word {c : Char} {cs : List Char} (hc : isIdentifierStart c = true)
    (hcs : cs.all isIdentifierPart = true) : Fits .identifier (c :: cs) [] :=
  .identifier hc (List.all_eq_true.1 hcs) (by simp [NotNext])

/-- What is written for a literal is one token: a keyword for the value, or a token that
    spells it. -/
theorem exists_fits_source (v : Literal)
    (hv : ∀ d, v = .decimal d → Numeral.isScale d.scale = true) :
    ∃ kind, Fits kind v.source.toList [] ∧
      ((v.source, v) ∈ Grammar.valueWords ∨
        ∃ v', ofToken? ⟨kind, v.source, 0⟩ = some v' ∧ v.Same v') := by
  have hnext : ∀ p, NotNext p [] := fun p c hc => by cases hc
  cases v with
  | nil => exact ⟨.identifier, fits_word rfl rfl, Or.inl (by decide)⟩
  | boolean b =>
    cases b with
    | true => exact ⟨.identifier, fits_word rfl rfl, Or.inl (by decide)⟩
    | false => exact ⟨.identifier, fits_word rfl rfl, Or.inl (by decide)⟩
  | integer n =>
    have htext := Numeral.toList_toString n
    have hdigits := Numeral.digits_repr n.natAbs
    have hunsigned : unsigned (toString n) = (toString n).toList := by
      refine unsigned_of_ne fun cs => ?_
      rw [htext]
      simpa using signOf_append_ne hdigits cs []
    refine ⟨.integer, ?_, Or.inr ⟨.integer n, ?_, rfl⟩⟩
    · rw [source, htext]
      exact .integer (Numeral.sign_signOf n) hdigits (hnext _)
    · simp only [ofToken?, source, hunsigned, Numeral.integer?_toString, Option.map_some]
  | decimal d =>
    obtain ⟨ds, ds', d', htext, hd, hd', hread, hvalue, hsame⟩ :=
      Numeral.exists_digits_of_text d (hv d rfl)
    have hunsigned : unsigned d.text = d.text.toList := by
      refine unsigned_of_ne fun cs => ?_
      rw [htext]
      exact signOf_append_ne hd cs _
    refine ⟨.decimal, ?_, Or.inr ⟨.decimal d', ?_, hvalue, hsame⟩⟩
    · rw [source, htext]
      exact .decimal (Numeral.sign_signOf d.digits) hd hd' (hnext _)
    · simp only [ofToken?, source, hunsigned, hread, Option.map_some]
  | character c =>
    refine ⟨.character, ?_, Or.inr ⟨.character c, ?_, rfl⟩⟩
    · rw [source, String.toList_ofList]
      exact .character (quoted_escapeChar rfl c)
    · have hquote : escapedChar '\'' = '\'' := rfl
      have hc := unescapeChars_escapeChar hquote c []
      rw [List.append_nil] at hc
      simp only [ofToken?, source, content_ofList, hc, unescapeChars]
  | string s =>
    refine ⟨.string, ?_, Or.inr ⟨.string s, ?_, rfl⟩⟩
    · rw [source, String.toList_ofList, escape, List.flatMap_def]
      refine .string fun q hq => ?_
      obtain ⟨c, -, rfl⟩ := List.mem_map.1 hq
      exact quoted_escapeChar rfl c
    · have hquote : escapedChar '"' = '"' := rfl
      simp only [ofToken?, source, unescape, content_ofList, unescapeChars_escape hquote,
        String.ofList_toList]

end Literal

/-! ## Expressions at the end -/

namespace Parse

variable {s s' : ParserState} {e : Expr} {room : Nat}

theorem leftAssociative_of_rest_nil {operators : List BinaryOperator} {operand : Parse Expr}
    (h : operand s = .ok e s') (hrest : s'.rest = []) :
    leftAssociative operators operand s = .ok e s' := by
  have hbound : s'.stream.rest = [] := hrest
  rw [leftAssociative, bind_of_ok h, stream_bind, hbound]
  rfl

/-- A primary expression that ends the tokens is the whole expression. -/
theorem expression_of_primary (hdepth : s.depth ≠ nestingLimit)
    (h : primary (expression room) s.deeper = .ok e s') (hrest : s'.rest = []) :
    expression (room + 1) s = .ok e s'.shallower := by
  have hbound : s'.stream.rest = [] := hrest
  have hsecondary : secondary (expression room) s.deeper = .ok e s' := by
    rw [secondary, bind_of_ok h, stream_bind, hbound]
    rfl
  have hm : multiplicative (expression room) s.deeper = .ok e s' :=
    leftAssociative_of_rest_nil hsecondary hrest
  have ha : additive (expression room) s.deeper = .ok e s' := leftAssociative_of_rest_nil hm hrest
  have hc : comparison (expression room) s.deeper = .ok e s' :=
    leftAssociative_of_rest_nil ha hrest
  have hl : logical (expression room) s.deeper = .ok e s' := leftAssociative_of_rest_nil hc hrest
  exact nested_eq_ok.2 ⟨hdepth, s', hl, rfl⟩

/-- A keyword for a value is parsed as the value. -/
theorem primary_word {t : Token} {w : String × Literal} {inner : Parse Expr}
    (hrest : s.rest = [t]) (hw : w ∈ Grammar.valueWords) (ht : t.text = w.1) :
    primary inner s = .ok (.literal ⟨s.nextId, t.offset⟩ w.2) (s.next.record 1) := by
  have hpeek : s.stream.peek (.text w.1) = true := by rw [peek_of_rest hrest, ht, beq_self_eq_true]
  have hoffset : s.stream.currentOffset = t.offset := by
    simp [TokenStream.currentOffset, next?_of_rest hrest]
  rw [primary_of_valueWord hw hpeek, hoffset]
  exact build_eq_ok.2 ⟨rfl, show 1 ≤ nestingLimit by decide, rfl⟩

/-- A token that spells a value is parsed as the value. -/
theorem primary_literal {t : Token} {v : Literal} {inner : Parse Expr} (hlexed : t.Lexed)
    (hrest : s.rest = [t]) (hv : Literal.ofToken? t = some v) :
    primary inner s = .ok (.literal ⟨s.nextId, t.offset⟩ v) (s.next.record 1) := by
  have hlit := Literal.isLiteral_of_ofToken? hv
  have hkind : t.kind ≠ .identifier := by
    intro hkind
    simp [Token.isLiteral, hkind] at hlit
  have hno := noKeywordLiteral_of_rest hrest (text_notMem_valueWords hlexed hkind)
  have hnext : s.stream.next?.filter Token.isLiteral = some t := by
    simp [next?_of_rest hrest, Option.filter, hlit]
  rw [primary_of_noKeywordLiteral hno, hnext]
  simp only [literal, advance_bind, hv]
  exact build_eq_ok.2 ⟨rfl, show 1 ≤ nestingLimit by decide, rfl⟩

end Parse

/-- **A literal that is written and read comes back**: its text is one token, and the
    expression parsed from that token is the literal, with nothing left over. -/
theorem lex_parse_source (v : Literal)
    (hv : ∀ d, v = .decimal d → Numeral.isScale d.scale = true) :
    ∃ t v' s, lex v.source = .ok [t] ∧
      Parse.expression nestingLimit (.ofTokens [t]) = .ok (.literal ⟨0, 0⟩ v') s ∧
      s.rest = [] ∧ v.Same v' := by
  obtain ⟨kind, hfits, hvalue⟩ := Literal.exists_fits_source v hv
  have hlex : lex v.source = .ok [⟨kind, v.source, 0⟩] := by
    have h := Cursor.lex_of_fits (p := 0) hfits
    rw [List.append_nil, String.ofList_toList, Cursor.lex_nil] at h
    exact h
  let s := ParserState.ofTokens [⟨kind, v.source, 0⟩]
  obtain ⟨v', hprimary, hsame⟩ : ∃ v', Parse.primary (Parse.expression 127) s.deeper =
      .ok (.literal ⟨0, 0⟩ v') (s.deeper.next.record 1) ∧ v.Same v' := by
    rcases hvalue with hw | ⟨v', hread, hsame⟩
    · refine ⟨v, Parse.primary_word (s := s.deeper) rfl hw rfl, ?_⟩
      simp only [Grammar.valueWords, List.mem_cons, Prod.mk.injEq, List.not_mem_nil, or_false] at hw
      rcases hw with ⟨-, rfl⟩ | ⟨-, rfl⟩ | ⟨-, rfl⟩ <;> rfl
    · exact ⟨v', Parse.primary_literal (s := s.deeper) (lexed_of_lex hlex _ (by simp)) rfl hread,
        hsame⟩
  have hdepth : 0 ≠ nestingLimit := by decide
  exact ⟨_, v', _, hlex, Parse.expression_of_primary hdepth hprimary rfl, rfl, hsame⟩

/-- A decimal with a negative scale is written with zeros, and its token reads back. -/
theorem lex_parse_source_thousands :
    Numeral.isScale (-3) = true ∧ (Literal.decimal ⟨-5, -3⟩).source = "-5000.0" ∧
      ∃ t v' s, lex (Literal.decimal ⟨-5, -3⟩).source = .ok [t] ∧
        Parse.expression nestingLimit (.ofTokens [t]) = .ok (.literal ⟨0, 0⟩ v') s ∧
        s.rest = [] ∧ (Literal.decimal ⟨-5, -3⟩).Same v' :=
  have hscale : Numeral.isScale (-3) = true := by decide
  ⟨hscale, by decide, lex_parse_source (.decimal ⟨-5, -3⟩) fun _ h => by cases h; exact hscale⟩

end TinyScript
