import TinyScript.Proofs.Tree.Grammar
import TinyScript.Token.Cursor

/-
  Tokens that come from a text.

  The text of such a token determines its kind, as far as the terminals of the grammar
  are concerned (`Token.Lexed.is`).  A parser that looks at texts only is thus never
  misled by a literal.
-/

namespace TinyScript

open Lexeme CharClass

/-- The token is what a scan of some text has found. -/
def Token.Lexed (t : Token) : Prop :=
  ∃ rest, scan (t.text.toList ++ rest) = ⟨t.text.toList.length, .ok t.kind⟩

/-- The text can only be a word or an operator. -/
def isTerminal (text : String) : Bool :=
  match text.toList with
  | [] => false
  | c :: cs => isIdentifierStart c ||
      ((!isSign c || cs.isEmpty) && !c.isDigit && c != '\'' && c != '"')

theorem verdict_operator (cs : List Char) : (operator cs).verdict = .ok .operator := by
  unfold operator
  split
  · rfl
  · rfl
  · split <;> rfl

/-- A token with the text of a terminal is that terminal. -/
theorem Token.Lexed.is {t : Token} {text : String} (h : t.Lexed) (ht : t.text = text)
    (hterm : isTerminal text = true) : t.Is text := by
  subst ht
  refine ⟨rfl, ?_⟩
  obtain ⟨rest, hscan⟩ := h
  have hverdict : (scan (t.text.toList ++ rest)).verdict = .ok t.kind := by rw [hscan]
  have hlength : (scan (t.text.toList ++ rest)).length = t.text.toList.length := by rw [hscan]
  unfold terminalKind
  unfold isTerminal at hterm
  generalize t.text.toList = cs at *
  cases cs with
  | nil => cases hterm
  | cons c cs =>
    simp only [List.cons_append, scan] at hverdict hlength
    by_cases hstart : isIdentifierStart c = true
    · rw [if_pos hstart] at hverdict
      rw [if_pos (by simpa using hstart)]
      exact (Except.ok.inj hverdict).symm
    · rw [if_neg hstart] at hverdict hlength
      rw [if_neg (by simpa using hstart)]
      simp only [hstart, Bool.false_or, Bool.and_eq_true, Bool.or_eq_true, Bool.not_eq_true',
        bne_iff_ne, ne_eq, List.isEmpty_iff] at hterm
      obtain ⟨⟨⟨hsign, hdigit⟩, hquote⟩, hquotes⟩ := hterm
      have hnumber : ¬(isSign c && startsWithDigit (cs ++ rest)) = true := by
        intro hs
        rw [if_pos hs] at hlength
        rw [Bool.and_eq_true] at hs
        -- a number has a digit after its sign, so it is longer than the sign alone
        rcases hsign with hsign | rfl
        · rw [hsign] at hs
          cases hs.1
        · cases rest with
          | nil => cases hs.2
          | cons d rest =>
            have hpos : 0 < (number (d :: rest)).length := length_number_pos hs.2
            simp only [List.nil_append, length_after, List.length_cons, List.length_nil] at hlength
            omega
      rw [if_neg hnumber, if_neg (by simp [hdigit]), if_neg (by simpa using hquote),
        if_neg (by simpa using hquotes), verdict_operator] at hverdict
      exact (Except.ok.inj hverdict).symm

theorem Cursor.lexed_lexToken {c c' : Cursor} {t : Token} (hp : c.pending = [])
    (h : c.lexToken = (.ok t, c')) : t.Lexed ∧ c'.pending = [] := by
  unfold lexToken at h
  dsimp only at h
  split at h
  · rename_i kind hv
    simp only [Prod.mk.injEq, Except.ok.injEq] at h
    obtain ⟨rfl, rfl⟩ := h
    refine ⟨⟨c.rest.drop (scan c.rest).length, ?_⟩, rfl⟩
    have htext : (c.advanceBy (scan c.rest).length).pending.reverse =
        c.rest.take (scan c.rest).length := by
      simp [advanceBy, hp]
    simp only [emit, htext, String.toList_ofList, List.take_append_drop, List.length_take,
      Nat.min_eq_left (length_scan_le c.rest)]
    rw [← hv]
  · simp at h

/-- All tokens of a text come from it. -/
theorem lexed_of_lex {text : String} {ts : List Token} (h : lex text = .ok ts) :
    ∀ t ∈ ts, t.Lexed := by
  suffices hc : ∀ (n : Nat) (c : Cursor) (ts : List Token), c.rest.length = n → c.pending = [] →
      c.lex = .ok ts → ∀ t ∈ ts, t.Lexed from hc _ (.ofString text) ts rfl rfl h
  intro n
  induction n using Nat.strongRecOn with
  | ind n ih =>
    intro c ts hn hp h
    rw [Cursor.lex] at h
    split at h
    · cases h
      simp
    · rename_i x xs hrest
      split at h
      · refine ih _ ?_ _ ts rfl rfl h
        simp [← hn, Cursor.advance, hrest]
      · split at h
        · cases h
        · rename_i t c' hlex
          have hlt := Cursor.length_rest_lexToken_lt hrest
          rw [hlex] at hlt
          obtain ⟨ht, hp'⟩ := Cursor.lexed_lexToken hp hlex
          cases hl : c'.lex with
          | error e => rw [hl] at h; cases h
          | ok us =>
            rw [hl] at h
            cases h
            intro u hu
            rcases List.mem_cons.1 hu with rfl | hu
            · exact ht
            · exact ih _ (hn ▸ hlt) c' us rfl hp' hl u hu

end TinyScript
