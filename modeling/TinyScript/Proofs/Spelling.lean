import TinyScript.Proofs.Literal

/-
  What literal tokens denote.

  A literal is validated when its token is cut from the text, and decoded when the token is
  parsed.  The two are written apart, and decoding by itself would take more than tokens can
  hold: any escape, and any characters for the quotes.  On tokens of a text both agree, and
  decoding cannot fail.

  * `Spells`: one character of a quoted literal and how it is written;
  * `Denotes`: the text of a literal token and its value, without any way to compute it;
  * `exists_denotes`: a text that fits its kind denotes something;
  * `ofToken?_of_denotes`: a token is read as what it denotes.
-/

namespace TinyScript

open CharClass

/-- The characters that may follow a backslash, and what they stand for there. -/
def escapes : List (Char × Char) :=
  [('b', '\x08'), ('n', '\n'), ('r', '\r'), ('t', '\t'), ('\'', '\''), ('"', '"'), ('\\', '\\')]

/-- How a character is written inside quotes. -/
inductive Spells (quote : Char) : List Char → Char → Prop
  | plain {c} : c ≠ quote → c ≠ '\\' → isLineEnd c = false → Spells quote [c] c
  | escape {c d} : (c, d) ∈ escapes → Spells quote ['\\', c] d

/-- The text of a token of this kind denotes the value. -/
inductive Denotes : TokenKind → List Char → Literal → Prop
  /-- The sign and the digits of an integer. -/
  | integer {sign ds} : Sign sign → Digits ds →
      Denotes .integer (sign ++ ds) (.integer (Numeral.signed sign (Nat.ofDigitChars 10 ds 0)))
  /-- The sign and all the digits of a decimal; those after the point are counted. -/
  | decimal {sign ds ds'} : Sign sign → Digits ds → Digits ds' →
      Denotes .decimal (sign ++ (ds ++ '.' :: ds'))
        (.decimal ⟨Numeral.signed sign (Nat.ofDigitChars 10 (ds ++ ds') 0), ds'.length⟩)
  /-- The one character between the quotes. -/
  | character {q c} : Spells '\'' q c → Denotes .character ('\'' :: (q ++ ['\''])) (.character c)
  /-- The characters between the quotes, from left to right. -/
  | string {qs cs} : List.Forall₂ (Spells '"') qs cs →
      Denotes .string ('"' :: (qs.flatten ++ ['"'])) (.string (String.ofList cs))

/-! ## Every token denotes something -/

section
variable {quote c : Char} {q rest : List Char}

theorem exists_escape (h : isEscapeCode c = true) : ∃ d, (c, d) ∈ escapes := by
  simp only [isEscapeCode, Bool.or_eq_true, beq_iff_eq] at h
  refine ⟨Literal.escapedChar c, ?_⟩
  rcases h with (((((rfl | rfl) | rfl) | rfl) | rfl) | rfl) | rfl <;> decide

theorem exists_spells (h : Quoted quote q) : ∃ c, Spells quote q c := by
  cases h with
  | plain hquote hslash hline => exact ⟨_, .plain hquote hslash hline⟩
  | escape hcode =>
    obtain ⟨d, hd⟩ := exists_escape hcode
    exact ⟨d, .escape hd⟩

theorem exists_spells_all {qs : List (List Char)} (h : ∀ q ∈ qs, Quoted quote q) :
    ∃ cs, List.Forall₂ (Spells quote) qs cs := by
  induction qs with
  | nil => exact ⟨[], .nil⟩
  | cons q qs ih =>
    obtain ⟨hq, hqs⟩ := List.forall_mem_cons.1 h
    obtain ⟨c, hc⟩ := exists_spells hq
    obtain ⟨cs, hcs⟩ := ih hqs
    exact ⟨c :: cs, .cons hc hcs⟩

/-- A text that fits a literal kind denotes a value. -/
theorem exists_denotes {k : TokenKind} {text : List Char} (h : Fits k text rest)
    (hk : k ≠ .identifier ∧ k ≠ .operator) : ∃ v, Denotes k text v := by
  cases h with
  | integer hs hd _ => exact ⟨_, .integer hs hd⟩
  | decimal hs hd hd' _ => exact ⟨_, .decimal hs hd hd'⟩
  | character hq =>
    obtain ⟨c, hc⟩ := exists_spells hq
    exact ⟨_, .character hc⟩
  | string hqs =>
    obtain ⟨cs, hcs⟩ := exists_spells_all hqs
    exact ⟨_, .string hcs⟩
  | identifier => exact absurd rfl hk.1
  | comparison | comparisonEqual | other => exact absurd rfl hk.2

end

/-! ## Tokens are read as what they denote -/

namespace Literal

section
variable {quote c : Char} {q rest sign ds : List Char}

/-- What spells a character is decoded as it, whatever follows. -/
theorem unescapeChars_of_spells (h : Spells quote q c) (cs : List Char) :
    unescapeChars (q ++ cs) = c :: unescapeChars cs := by
  cases h with
  | plain _ hslash _ => exact unescapeChars_cons hslash cs
  | @escape e _ he =>
    have hall : ∀ p ∈ escapes, escapedChar p.1 = p.2 := by decide
    rw [List.cons_append, List.cons_append, unescapeChars, hall _ he, List.nil_append]

theorem unescapeChars_of_spells_all {qs : List (List Char)} {cs : List Char}
    (h : List.Forall₂ (Spells quote) qs cs) : unescapeChars qs.flatten = cs := by
  induction h with
  | nil => rfl
  | cons hc _ ih => rw [List.flatten_cons, unescapeChars_of_spells hc, ih]

/-- One plus sign in front of digits is left out, and the number stays the same. -/
theorem unsigned_signed (hs : Sign sign) (hd : Digits ds) (rest : List Char) (n : Nat) :
    ∃ sign', Sign sign' ∧ unsigned (String.ofList (sign ++ (ds ++ rest))) = sign' ++ (ds ++ rest) ∧
      Numeral.signed sign' n = Numeral.signed sign n := by
  rcases hs with rfl | rfl | rfl
  · refine ⟨[], Or.inl rfl, ?_, rfl⟩
    obtain ⟨d, ds, rfl, hdigit⟩ := hd.exists_cons
    rw [unsigned_of_ne]
    · simp
    · intro cs hcs
      rw [String.toList_ofList] at hcs
      cases hcs
      exact Numeral.ne_of_isDigit (c := '+') hdigit rfl rfl
  · exact ⟨[], Or.inl rfl, by simp [unsigned], rfl⟩
  · exact ⟨['-'], Or.inr (Or.inr rfl), by simp [unsigned], rfl⟩

end

end Literal

theorem isScale_of_le {m n : Nat} (h : Numeral.isScale n = true) (hle : m ≤ n) :
    Numeral.isScale m = true := by
  simp only [Numeral.isScale, Bool.and_eq_true, decide_eq_true_eq] at h ⊢
  omega

/-- A token is read as what its text denotes, if its length can be a scale. -/
theorem ofToken?_of_denotes {k : TokenKind} {text : List Char} {v : Literal} {offset : Nat}
    (h : Denotes k text v) (hsize : Numeral.isScale text.length = true) :
    Literal.ofToken? ⟨k, String.ofList text, offset⟩ = some v := by
  cases h with
  | @integer sign ds hs hd =>
    obtain ⟨sign', hs', htext, hsigned⟩ := Literal.unsigned_signed hs hd []
      (Nat.ofDigitChars 10 ds 0)
    rw [List.append_nil] at htext
    simp only [Literal.ofToken?, htext, Numeral.integer?_signed hs' hd, hsigned, Option.map_some]
  | @decimal sign ds ds' hs hd hd' =>
    obtain ⟨sign', hs', htext, hsigned⟩ := Literal.unsigned_signed hs hd ('.' :: ds')
      (Nat.ofDigitChars 10 (ds ++ ds') 0)
    have hscale : Numeral.isScale ds'.length = true := isScale_of_le hsize (by simp; omega)
    simp only [Literal.ofToken?, htext, Numeral.decimal?_signed hs' hd hd' hscale, hsigned,
      Option.map_some]
  | @character q c hc =>
    have hread := Literal.unescapeChars_of_spells hc []
    rw [List.append_nil] at hread
    simp only [Literal.ofToken?, ← List.cons_append, Literal.content_ofList, hread,
      Literal.unescapeChars]
  | string hcs =>
    simp only [Literal.ofToken?, Literal.unescape, ← List.cons_append, Literal.content_ofList,
      Literal.unescapeChars_of_spells_all hcs]

end TinyScript
