import TinyScript.Proofs.Token.Tokenization

/-
  Tokens in another layout.

  The tokens of a text may be written again with other blanks between them.  A blank ends
  every token, so each is found again as it was, at another place.

  * `Token.unplaced`: a token without its place;
  * `Laid`: texts one after the other, with blanks between and around them;
  * `exists_lex_of_laid`: lexing finds the same tokens in any layout of them.
-/

namespace TinyScript

open CharClass

/-- The token without its place. -/
def Token.unplaced (t : Token) : Token := { t with offset := 0 }

@[simp] theorem Token.offset_unplaced (t : Token) : t.unplaced.offset = 0 := rfl

/-- Blanks and nothing else. -/
def Gap (cs : List Char) : Prop := ∀ c ∈ cs, isBlank c = true

/-- Texts one after the other, each with blanks behind it; only the last may do without. -/
inductive Spaced : List String → List Char → Prop
  | nil : Spaced [] []
  | cons {text texts gap rest} : Gap gap → (texts ≠ [] → gap ≠ []) → Spaced texts rest →
      Spaced (text :: texts) (text.toList ++ (gap ++ rest))

/-- The texts stand in the source in this order, with blanks between them, and with or
    without blanks in front and behind. -/
def Laid (texts : List String) (source : String) : Prop :=
  ∃ gap rest, Gap gap ∧ Spaced texts rest ∧ source.toList = gap ++ rest

section
variable {p q : Nat} {cs cs' gap rest text : List Char} {k : TokenKind} {ts : List Token}

theorem mem_of_isBlank {c : Char} (h : isBlank c = true) : c ∈ [' ', '\x08', '\n', '\r', '\t'] := by
  simpa [isBlank, or_assoc] using h

/-- Where a gap comes next, nothing of another class does. -/
theorem NotNext.of_gap {f : Char → Bool} (hnext : ∀ c ∈ rest.head?, isBlank c = true)
    (hf : [' ', '\x08', '\n', '\r', '\t'].any f = false) : NotNext f rest := by
  intro c hc
  rw [List.any_eq_false] at hf
  exact Bool.eq_false_iff.2 (hf c (mem_of_isBlank (hnext c hc)))

/-- A text that is a token in one place is one in front of every gap. -/
theorem Fits.of_gap {rest' : List Char} (h : Fits k text rest)
    (hnext : ∀ c ∈ rest'.head?, isBlank c = true) : Fits k text rest' := by
  cases h with
  | identifier hc hcs _ => exact .identifier hc hcs (.of_gap hnext (by decide))
  | integer hsign hds _ => exact .integer hsign hds (.of_gap hnext (by decide))
  | decimal hsign hds hds' _ => exact .decimal hsign hds hds' (.of_gap hnext (by decide))
  | character hq => exact .character hq
  | string hqs => exact .string hqs
  | comparison hc _ => exact .comparison hc (.of_gap hnext (by decide))
  | comparisonEqual hc => exact .comparisonEqual hc
  | other hcomparison hblank hstart hdigit hquote hquotes _ =>
    exact .other hcomparison hblank hstart hdigit hquote hquotes fun _ =>
      .of_gap hnext (by decide)

theorem Cut.of_gap (hgap : Gap gap) (h : Cut (p + gap.length) rest ts) :
    Cut p (gap ++ rest) ts := by
  induction gap generalizing p with
  | nil => exact h
  | cons c gap ih =>
    obtain ⟨hc, hgap⟩ := List.forall_mem_cons.1 hgap
    refine .blank hc (ih hgap ?_)
    rwa [Nat.add_assoc, Nat.add_comm 1]

/-- What follows a text begins with a blank, if there is anything. -/
theorem Spaced.head_isBlank {texts : List String} (hgap : Gap gap)
    (hne : texts ≠ [] → gap ≠ []) (h : Spaced texts rest) :
    ∀ c ∈ (gap ++ rest).head?, isBlank c = true := by
  cases gap with
  | cons d gap =>
    intro c hc
    cases hc
    exact hgap _ List.mem_cons_self
  | nil =>
    cases h with
    | nil => nofun
    | cons _ _ _ => exact absurd rfl (hne (List.cons_ne_nil _ _))

/-- Texts with the same gap behind each of them. -/
theorem spaced_flatMap (hgap : Gap gap) (hne : gap ≠ []) (texts : List String) :
    Spaced texts (texts.flatMap fun text => text.toList ++ gap) := by
  induction texts with
  | nil => exact .nil
  | cons text texts ih =>
    rw [List.flatMap_cons, List.append_assoc]
    exact .cons hgap (fun _ => hne) ih

/-- The tokens of a text are found again in every layout of them. -/
theorem Cut.exists_of_spaced (h : Cut p cs ts) (hs : Spaced (ts.map Token.text) cs') :
    ∃ ts', Cut q cs' ts' ∧ ts'.map Token.unplaced = ts.map Token.unplaced := by
  induction h generalizing q cs' with
  | done =>
    cases hs
    exact ⟨[], .done, rfl⟩
  | blank _ _ ih => exact ih hs
  | @token p k text rest ts hfits _ ih =>
    cases hs with
    | @cons _ _ gap rest' hgap hne hrest =>
      obtain ⟨ts', hcut, hts'⟩ := ih (q := q + text.length + gap.length) hrest
      have hfits' : Fits k text (gap ++ rest') := hfits.of_gap (Spaced.head_isBlank hgap hne hrest)
      refine ⟨⟨k, String.ofList text, q⟩ :: ts', ?_, ?_⟩
      · rw [String.toList_ofList]
        exact .token hfits' (.of_gap hgap hcut)
      · rw [List.map_cons, List.map_cons, hts']
        rfl

/-- Lexing finds the same tokens in every layout of their texts. -/
theorem exists_lex_of_laid {source source' : String} (h : lex source = .ok ts)
    (hlaid : Laid (ts.map Token.text) source') :
    ∃ ts', lex source' = .ok ts' ∧ ts'.map Token.unplaced = ts.map Token.unplaced := by
  obtain ⟨gap, rest, hgap, hspaced, heq⟩ := hlaid
  obtain ⟨ts', hcut, hts'⟩ :=
    (Cursor.cut_of_lex h).exists_of_spaced (q := 0 + gap.length) hspaced
  refine ⟨ts', ?_, hts'⟩
  show Cursor.lex ⟨source'.toList, 0, []⟩ = .ok ts'
  rw [heq]
  exact Cursor.lex_of_cut (.of_gap hgap hcut)

end

end TinyScript
