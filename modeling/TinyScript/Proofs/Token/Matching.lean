import Mathlib.Logic.Function.Iterate
import TinyScript.Token.Cursor

/-
  Matching one token after another.

  `Cursor.lexToken` may be called again and again, also after matches that failed and past the
  end of the text.  What a failed match has passed stays pending and becomes the front of the
  next token, so no character is lost and none is given out twice: the text is what the tokens
  spell, then the pending characters, then the rest.

  * `Cursor.lexTokens`: matches one after another;
  * `Cursor.Accounts`: the tokens so far and the cursor together account for the whole text;
  * `Cursor.Accounts.advance`, `Cursor.Accounts.emit`: each single move keeps the account;
  * `Cursor.lexToken_eq`: a match is so many single moves forward, then a token or a fault;
  * `lexTokens_account`: the account after any number of matches, and in the course of the next.
-/

namespace TinyScript

/-- The characters of some tokens, one token after the other. -/
def Token.chars (ts : List Token) : List Char := ts.flatMap fun t => t.text.toList

theorem Token.chars_append (ts us : List Token) : chars (ts ++ us) = chars ts ++ chars us :=
  List.flatMap_append

theorem Token.toList_join (ts : List Token) :
    (String.join (ts.map Token.text)).toList = chars ts := by
  rw [String.toList_join, chars, List.flatMap_map]

namespace Cursor

/-- Matches tokens one after another, whether the matches succeed or fail: the tokens of those
    that succeed, and the cursor in the end. -/
def lexTokens (c : Cursor) : Nat → List Token × Cursor
  | 0 => ([], c)
  | n + 1 =>
    match c.lexToken with
    | (.ok t, c') => (t :: (c'.lexTokens n).1, (c'.lexTokens n).2)
    | (.error _, c') => c'.lexTokens n

/-- The tokens so far, the pending characters and the rest are the text, and the places of the
    cursor and of the tokens are what is in front of them. -/
structure Accounts (text : List Char) (ts : List Token) (c : Cursor) : Prop where
  split : text = Token.chars ts ++ (c.pending.reverse ++ c.rest)
  position : c.position = (Token.chars ts).length + c.pending.length
  offsets : ∀ before t after, ts = before ++ t :: after → t.offset = (Token.chars before).length

namespace Accounts

variable {text : List Char} {ts : List Token} {c : Cursor}

theorem ofString (source : String) : Accounts source.toList [] (ofString source) :=
  ⟨rfl, rfl, fun before t after h => by simp at h⟩

theorem pending_le (h : Accounts text ts c) : c.pending.length ≤ c.position :=
  h.position ▸ Nat.le_add_left _ _

theorem length_eq (h : Accounts text ts c) : text.length = c.position + c.rest.length := by
  rw [h.split, h.position]
  simp only [List.length_append, List.length_reverse]
  omega

theorem position_le (h : Accounts text ts c) : c.position ≤ text.length :=
  h.length_eq ▸ Nat.le_add_right _ _

/-- Where the token that is being matched starts. -/
theorem start_eq (h : Accounts text ts c) :
    c.position - c.pending.length = (Token.chars ts).length := by
  rw [h.position, Nat.add_sub_cancel]

theorem chars_eq (h : Accounts text ts c) :
    Token.chars ts = text.take (c.position - c.pending.length) := by
  rw [h.start_eq, h.split, List.take_left]

/-- The pending characters are those of the text from the start of the token to the cursor. -/
theorem pending_eq (h : Accounts text ts c) :
    c.pending.reverse = (text.take c.position).drop (c.position - c.pending.length) := by
  have hlength : c.position = (Token.chars ts ++ c.pending.reverse).length := by
    rw [List.length_append, List.length_reverse, h.position]
  rw [h.start_eq, h.split, ← List.append_assoc, hlength, List.take_left, List.drop_left]

/-- Where a character is ahead, the cursor moves past it. -/
theorem advance (h : Accounts text ts c) (hrest : c.rest ≠ []) : Accounts text ts c.advance := by
  obtain ⟨x, xs, hx⟩ := List.exists_cons_of_ne_nil hrest
  have hadvance : c.advance = ⟨xs, c.position + 1, x :: c.pending⟩ := by rw [Cursor.advance, hx]
  rw [hadvance]
  refine ⟨?_, ?_, h.offsets⟩
  · rw [h.split, hx, List.reverse_cons, List.append_assoc, List.singleton_append]
  · rw [h.position, List.length_cons, Nat.add_assoc]

/-- The pending characters become a token, which starts behind those before it. -/
theorem emit (h : Accounts text ts c) (kind : TokenKind) :
    Accounts text (ts ++ [(c.emit kind).1]) (c.emit kind).2 := by
  have hchars : Token.chars (ts ++ [(c.emit kind).1]) = Token.chars ts ++ c.pending.reverse := by
    rw [Token.chars_append]
    simp [Token.chars, Cursor.emit]
  refine ⟨?_, ?_, fun before t after hts => ?_⟩
  · rw [hchars, h.split, List.append_assoc]
    rfl
  · rw [hchars, List.length_append, List.length_reverse]
    exact h.position
  · -- the token is the new one, or one of those before
    rcases List.eq_nil_or_concat after with rfl | ⟨after, u, rfl⟩
    · obtain ⟨rfl, hlast⟩ := List.append_inj' hts rfl
      obtain rfl := (List.cons.inj hlast).1
      exact h.start_eq
    · rw [List.concat_eq_append, ← List.cons_append, ← List.append_assoc] at hts
      exact h.offsets before t after (List.append_inj' hts rfl).1

end Accounts

/-! ## One match -/

/-- Single moves forward, one after another. -/
theorem iterate_advance (c : Cursor) {n : Nat} (h : n ≤ c.rest.length) :
    advance^[n] c = c.advanceBy n := by
  induction n generalizing c with
  | zero => rfl
  | succ n ih =>
    obtain ⟨x, xs, hx⟩ := List.exists_cons_of_length_pos (Nat.lt_of_lt_of_le n.succ_pos h)
    have hadvance : c.advance = ⟨xs, c.position + 1, x :: c.pending⟩ := by rw [advance, hx]
    rw [hx, List.length_cons] at h
    rw [Function.iterate_succ_apply, hadvance, ih _ (Nat.le_of_succ_le_succ h)]
    simp only [advanceBy, hx, List.drop_succ_cons, List.take_succ_cons, List.reverse_cons,
      List.append_assoc, List.singleton_append]
    rw [Nat.add_assoc, Nat.add_comm 1 n]

/-- Moves forward within the rest keep the account. -/
theorem Accounts.iterate {text : List Char} {ts : List Token} {c : Cursor}
    (h : Accounts text ts c) {n : Nat} (hn : n ≤ c.rest.length) :
    Accounts text ts (Cursor.advance^[n] c) := by
  induction n with
  | zero => exact h
  | succ n ih =>
    rw [Function.iterate_succ_apply']
    refine (ih (Nat.le_of_succ_le hn)).advance ?_
    rw [iterate_advance c (Nat.le_of_succ_le hn), rest_advanceBy, ne_eq, List.drop_eq_nil_iff]
    omega

/-- A match moves forward character by character, and then gives a token out or stops. -/
theorem lexToken_eq (c : Cursor) :
    let c' := advance^[(Lexeme.scan c.rest).length] c
    c.lexToken = match (Lexeme.scan c.rest).verdict with
      | .ok kind => (.ok (c'.emit kind).1, (c'.emit kind).2)
      | .error fault => (.error ⟨fault, c'.position⟩, c') := by
  rw [iterate_advance c (Lexeme.length_scan_le c.rest)]
  rfl

/-- Matches keep the account. -/
theorem Accounts.lexTokens {text : List Char} {ts : List Token} {c : Cursor}
    (h : Accounts text ts c) (n : Nat) : Accounts text (ts ++ (c.lexTokens n).1) (c.lexTokens n).2 := by
  induction n generalizing ts c with
  | zero => rwa [Cursor.lexTokens, List.append_nil]
  | succ n ih =>
    have hmoved := h.iterate (Lexeme.length_scan_le c.rest)
    have heq := c.lexToken_eq
    rw [Cursor.lexTokens]
    cases hv : (Lexeme.scan c.rest).verdict with
    | ok kind =>
      rw [hv] at heq
      rw [heq]
      have htail := ih (hmoved.emit kind)
      rwa [List.append_assoc] at htail
    | error fault =>
      rw [hv] at heq
      rw [heq]
      exact ih hmoved

/-- A match before the end of the text moves forward. -/
theorem position_lt_lexToken {c : Cursor} (h : c.rest ≠ []) :
    c.position < c.lexToken.2.position := by
  obtain ⟨x, xs, hx⟩ := List.exists_cons_of_ne_nil h
  have hpos : 0 < (Lexeme.scan c.rest).length := hx ▸ Lexeme.length_scan_pos x xs
  have hposition : c.lexToken.2.position = c.position + (Lexeme.scan c.rest).length := by
    rw [lexToken]
    cases (Lexeme.scan c.rest).verdict <;> rfl
  omega

end Cursor

open Cursor in
/-- **Nothing is lost between tokens.**  After any number of matches on a text, in the course of
    the next one and at its end, there are no more pending characters than passed ones, and no
    more passed ones than the text has.  The texts of the tokens so far are the text in front of
    the pending characters, and each token's offset is the length of the texts before it.  The
    next match gives out the characters from the end of the last token on, or keeps them
    pending, and before the end of the text it moves forward. -/
theorem lexTokens_account (source : String) (n : Nat) :
    let (tokens, c) := (ofString source).lexTokens n
    let scanned := (Lexeme.scan c.rest).length
    let start := c.position - c.pending.length
    let c' := advance^[scanned] c
    (∀ k ≤ scanned, (advance^[k] c).pending.length ≤ (advance^[k] c).position ∧
      (advance^[k] c).position ≤ source.length) ∧
    (String.join (tokens.map Token.text)).toList = source.toList.take start ∧
    (∀ before t after, tokens = before ++ t :: after →
      t.offset = (String.join (before.map Token.text)).length) ∧
    (c.position < source.length → c.position < c.lexToken.2.position) ∧
    c.lexToken = match (Lexeme.scan c.rest).verdict with
      | .ok kind => (.ok ⟨kind, String.ofList ((source.toList.take c'.position).drop start), start⟩,
          c'.skip)
      | .error fault => (.error ⟨fault, c'.position⟩, c') := by
  have hlength : source.toList.length = source.length := String.length_toList
  have haccount := (Accounts.ofString source).lexTokens n
  rw [List.nil_append] at haccount
  generalize (ofString source).lexTokens n = r at haccount
  obtain ⟨tokens, c⟩ := r
  have hmoved := haccount.iterate (Lexeme.length_scan_le c.rest)
  have hstart : c.position - c.pending.length = (Token.chars tokens).length := haccount.start_eq
  refine ⟨fun k hk => ?_, ?_, fun before t after h => ?_, fun h => ?_, ?_⟩
  · have hbetween := haccount.iterate (Nat.le_trans hk (Lexeme.length_scan_le c.rest))
    exact ⟨hbetween.pending_le, hlength ▸ hbetween.position_le⟩
  · rw [Token.toList_join, haccount.chars_eq]
  · rw [← String.length_toList, Token.toList_join, haccount.offsets before t after h]
  · refine position_lt_lexToken fun hnil => ?_
    have htotal := haccount.length_eq
    rw [hnil, List.length_nil, Nat.add_zero, hlength] at htotal
    exact Nat.lt_irrefl _ (htotal ▸ h)
  · rw [lexToken_eq]
    cases (Lexeme.scan c.rest).verdict with
    | error fault => rfl
    | ok kind =>
      simp only [emit]
      rw [hmoved.pending_eq, hmoved.start_eq, hstart]

/-- A string that no quote ends stays pending as far as it was read; the next tokens go on
    from there. -/
example : ((Cursor.ofString "\"ab\n1").lexTokens 3).1.map (fun t => (t.text, t.offset)) =
    [("\"ab\n", 0), ("1", 4)] := by decide +kernel

end TinyScript
