import TinyScript.Proofs.Token.Tokenization

/-
  Where lexing fails.

  A text that has no tokens is read up to some place, where a token has begun and cannot
  go on.

  * `Stuck`: what was read of a token, and why what follows does not continue it;
  * `Halts`: the same for a text, after the tokens in front of that place;
  * `lex_eq_error_iff`: lexing fails where a text halts;
  * `lex_error_at_first_fault`: what was read can be continued, and the next character
    alone is to blame.
-/

namespace TinyScript

open CharClass Lexeme

/-- The text is the front of a token that what follows does not continue. -/
inductive Stuck : LexFault → List Char → List Char → Prop
  | decimal {sign ds rest} : Sign sign → Digits ds → NotNext Char.isDigit rest →
      Stuck .invalidDecimal (sign ++ (ds ++ ['.'])) rest
  | emptyCharacter {rest} : Stuck .emptyCharacter ['\''] ('\'' :: rest)
  | lineEnd {c rest} : isLineEnd c = true → Stuck .invalidCharacter ['\''] (c :: rest)
  | second {q c rest} : Quoted '\'' q → c ≠ '\'' → Stuck .invalidCharacter ('\'' :: q) (c :: rest)
  | noCharacter : Stuck .unterminatedCharacter ['\''] []
  | noQuote {q} : Quoted '\'' q → Stuck .unterminatedCharacter ('\'' :: q) []
  | characterEscape {rest} : NotNext isEscapeCode rest → Stuck .invalidEscape ['\'', '\\'] rest
  | stringEscape {qs : List (List Char)} {rest} : (∀ q ∈ qs, Quoted '"' q) →
      NotNext isEscapeCode rest → Stuck .invalidEscape ('"' :: (qs.flatten ++ ['\\'])) rest
  | string {qs : List (List Char)} {rest} : (∀ q ∈ qs, Quoted '"' q) →
      (∀ c ∈ rest.head?, isLineEnd c = true) → Stuck .unterminatedString ('"' :: qs.flatten) rest

/-- Reading a text from `p` on halts with an error between its two parts. -/
inductive Halts : Nat → List Char → List Char → LexError → Prop
  | here {p fault text rest} : Stuck fault text rest → Halts p text rest ⟨fault, p + text.length⟩
  | blank {p c text rest e} : isBlank c = true → Halts (p + 1) text rest e →
      Halts p (c :: text) rest e
  | token {p k token text rest e} : Fits k token (text ++ rest) →
      Halts (p + token.length) text rest e → Halts p (token ++ text) rest e

section
variable {p n : Nat} {c x : Char} {k : TokenKind} {fault : LexFault} {e : LexError}
  {cs xs ys q text rest : List Char} {qs : List (List Char)}

/-! ## Numbers -/

theorem run_eq_zero_iff {f : Char → Bool} : run f rest = 0 ↔ NotNext f rest := by
  have hrun : run f ([] ++ rest) = 0 ↔ _ := run_append_iff (w := [])
  simpa using hrun

/-- A number without a digit behind its point. -/
theorem number_of_point (hd : ∀ d ∈ cs, d.isDigit = true) (hr : NotNext Char.isDigit rest) :
    number (cs ++ '.' :: rest) = ⟨cs.length + 1, .error .invalidDecimal⟩ := by
  have hrun : run Char.isDigit (cs ++ '.' :: rest) = cs.length :=
    run_append_iff.2 ⟨hd, notNext_cons.2 rfl⟩
  have hrun' : run Char.isDigit rest = 0 := run_eq_zero_iff.2 hr
  simp only [number, hrun, List.drop_left, hrun', if_pos]

theorem point_of_number (h : number cs = ⟨n, .error fault⟩) :
    fault = .invalidDecimal ∧ ∃ ds rest, cs = ds ++ '.' :: rest ∧ n = ds.length + 1 ∧
      (∀ d ∈ ds, d.isDigit = true) ∧ NotNext Char.isDigit rest := by
  obtain ⟨ds, rest, rfl, hl, hd, -⟩ := exists_run Char.isDigit cs
  simp only [number, ← hl, List.drop_left] at h
  split at h
  · rename_i rest
    split at h
    · rename_i hzero
      cases h
      exact ⟨rfl, ds, rest, rfl, rfl, hd, run_eq_zero_iff.1 hzero⟩
    · cases h
  · cases h

/-- A number is stuck at its point, with the sign that stands before it. -/
theorem stuck_of_number {sign : List Char} (hs : Sign sign) (hd : startsWithDigit cs = true)
    (h : number cs = ⟨n, .error fault⟩) :
    ∃ text rest, sign ++ cs = text ++ rest ∧ text.length = sign.length + n ∧
      Stuck fault text rest := by
  obtain ⟨rfl, ds, rest, rfl, rfl, hds, hr⟩ := point_of_number h
  have hdigits : Digits ds := digits_of_startsWithDigit hd hds (notNext_cons.2 rfl)
  refine ⟨sign ++ (ds ++ ['.']), rest, by simp, by simp, .decimal hs hdigits hr⟩

/-! ## Literals between quotes -/

theorem after_eq_error {l : Lexeme} {i : Nat} (h : l.after i = ⟨n, .error fault⟩) :
    ∃ m, l = ⟨m, .error fault⟩ ∧ n = i + m := by
  obtain ⟨m, v⟩ := l
  cases h
  exact ⟨m, rfl, rfl⟩

theorem characterEnd_eq_error (h : characterEnd cs = ⟨n, .error fault⟩) :
    n = 0 ∧ (fault = .unterminatedCharacter ∧ cs = [] ∨
      ∃ c rest, fault = .invalidCharacter ∧ cs = c :: rest ∧ c ≠ '\'') := by
  unfold characterEnd at h
  split at h
  · cases h
    exact ⟨rfl, Or.inl ⟨rfl, rfl⟩⟩
  · rename_i c rest
    split at h
    · cases h
    · rename_i hquote
      cases h
      exact ⟨rfl, Or.inr ⟨c, rest, rfl, rfl, by simpa using hquote⟩⟩

/-- A quoted character is stuck where its closing quote is missing. -/
theorem Quoted.stuck (hq : Quoted '\'' q) (h : characterEnd cs = ⟨n, .error fault⟩) :
    n = 0 ∧ Stuck fault ('\'' :: q) cs := by
  obtain ⟨rfl, ⟨rfl, rfl⟩ | ⟨c, rest, rfl, rfl, hc⟩⟩ := characterEnd_eq_error h
  · exact ⟨rfl, .noQuote hq⟩
  · exact ⟨rfl, .second hq hc⟩

theorem stuck_of_characterBody (h : characterBody cs = ⟨n, .error fault⟩) :
    ∃ q rest, cs = q ++ rest ∧ n = q.length ∧ Stuck fault ('\'' :: q) rest := by
  unfold characterBody at h
  split at h
  · cases h
    exact ⟨[], [], rfl, rfl, .noCharacter⟩
  · cases h
    exact ⟨[], _, rfl, rfl, .emptyCharacter⟩
  · cases h
    exact ⟨['\\'], [], rfl, rfl, .characterEscape nofun⟩
  · rename_i e rest
    split at h
    · rename_i hcode
      obtain ⟨m, hend, rfl⟩ := after_eq_error h
      obtain ⟨rfl, hstuck⟩ := (Quoted.escape hcode).stuck hend
      exact ⟨['\\', e], rest, rfl, rfl, hstuck⟩
    · rename_i hcode
      cases h
      exact ⟨['\\'], e :: rest, rfl, rfl, .characterEscape (notNext_cons.2 (by simpa using hcode))⟩
  · rename_i c rest hquote hlast hslash
    split at h
    · rename_i hline
      cases h
      exact ⟨[], c :: rest, rfl, rfl, .lineEnd hline⟩
    · rename_i hline
      obtain ⟨m, hend, rfl⟩ := after_eq_error h
      have hne : c ≠ '\\' := by
        rintro rfl
        cases rest with
        | nil => exact hlast rfl rfl
        | cons d rest => exact hslash d rest rfl rfl
      have hq : Quoted '\'' [c] := .plain hquote hne (by simpa using hline)
      obtain ⟨rfl, hstuck⟩ := hq.stuck hend
      exact ⟨[c], rest, rfl, rfl, hstuck⟩

theorem stringBody_of_end (h : ∀ c ∈ rest.head?, isLineEnd c = true) :
    stringBody rest = ⟨0, .error .unterminatedString⟩ := by
  cases rest with
  | nil => rfl
  | cons c rest =>
    have hline : isLineEnd c = true := h c rfl
    have hc : c = '\n' ∨ c = '\r' := by simpa [isLineEnd] using hline
    rcases hc with rfl | rfl <;> rfl

theorem stringBody_of_slash (h : NotNext isEscapeCode rest) :
    stringBody ('\\' :: rest) = ⟨1, .error .invalidEscape⟩ := by
  cases rest with
  | nil => rfl
  | cons c rest => simp [stringBody, notNext_cons.1 h]

/-- How a string literal ends too early, after the characters that are fine. -/
theorem end_of_stringBody (h : stringBody cs = ⟨n, .error fault⟩) :
    ∃ (qs : List (List Char)) (w rest : List Char), (∀ q ∈ qs, Quoted '"' q) ∧
      cs = qs.flatten ++ (w ++ rest) ∧ n = qs.flatten.length + w.length ∧
      (fault = .unterminatedString ∧ w = [] ∧ (∀ c ∈ rest.head?, isLineEnd c = true) ∨
        fault = .invalidEscape ∧ w = ['\\'] ∧ NotNext isEscapeCode rest) := by
  fun_induction stringBody cs generalizing n fault with
  | case1 =>
    cases h
    exact ⟨[], [], [], by simp, rfl, rfl, Or.inl ⟨rfl, rfl, by simp⟩⟩
  | case2 => cases h
  | case3 =>
    cases h
    exact ⟨[], ['\\'], [], by simp, rfl, rfl, Or.inr ⟨rfl, rfl, by simp [NotNext]⟩⟩
  | case4 e rest hcode ih =>
    obtain ⟨m, hbody, rfl⟩ := after_eq_error h
    obtain ⟨qs, w, rest, hqs, rfl, rfl, hend⟩ := ih hbody
    refine ⟨['\\', e] :: qs, w, rest, List.forall_mem_cons.2 ⟨.escape hcode, hqs⟩, rfl, ?_, hend⟩
    simp only [List.flatten_cons, List.length_append, List.length_cons, List.length_nil]
    omega
  | case5 e rest hcode =>
    cases h
    have hnext : NotNext isEscapeCode (e :: rest) := notNext_cons.2 (by simpa using hcode)
    exact ⟨[], ['\\'], e :: rest, by simp, rfl, rfl, Or.inr ⟨rfl, rfl, hnext⟩⟩
  | case6 c rest hquote hlast hslash hline =>
    cases h
    refine ⟨[], [], c :: rest, by simp, rfl, rfl, Or.inl ⟨rfl, rfl, ?_⟩⟩
    rintro d ⟨⟩
    exact hline
  | case7 c rest hquote hlast hslash hline ih =>
    obtain ⟨m, hbody, rfl⟩ := after_eq_error h
    obtain ⟨qs, w, rest', hqs, hrest, rfl, hend⟩ := ih hbody
    have hne : c ≠ '\\' := by
      intro hc
      cases rest with
      | nil => exact hlast hc rfl
      | cons d rest => exact hslash d rest hc rfl
    have hq : Quoted '"' [c] := .plain hquote hne (by simpa using hline)
    refine ⟨[c] :: qs, w, rest', List.forall_mem_cons.2 ⟨hq, hqs⟩, ?_, ?_, hend⟩
    · rw [hrest]
      rfl
    · simp only [List.flatten_cons, List.length_append, List.length_cons, List.length_nil]
      omega

theorem stuck_of_stringBody (h : stringBody cs = ⟨n, .error fault⟩) :
    ∃ text rest, cs = text ++ rest ∧ n = text.length ∧ Stuck fault ('"' :: text) rest := by
  obtain ⟨qs, w, rest, hqs, rfl, rfl, ⟨rfl, rfl, hend⟩ | ⟨rfl, rfl, hnext⟩⟩ := end_of_stringBody h
  · exact ⟨qs.flatten, rest, by simp, by simp, .string hqs hend⟩
  · exact ⟨qs.flatten ++ ['\\'], rest, by simp, by simp, .stringEscape hqs hnext⟩

/-! ## Scans -/

/-- **A text that is stuck is how far a scan gets.** -/
theorem scan_of_stuck (h : Stuck fault text rest) :
    scan (text ++ rest) = ⟨text.length, .error fault⟩ := by
  have hquote : ∀ cs, scan ('\'' :: cs) = (characterBody cs).after 1 := fun _ => rfl
  have hquotes : ∀ cs, scan ('"' :: cs) = (stringBody cs).after 1 := fun _ => rfl
  cases h with
  | @decimal sign ds _ hs hd hr =>
    have heq : sign ++ (ds ++ ['.']) ++ rest = sign ++ (ds ++ '.' :: rest) := by simp
    rw [heq, scan_signed hs (startsWithDigit_append hd), number_of_point hd.2 hr]
    simp [after]
  | emptyCharacter | noCharacter => rfl
  | @lineEnd c rest hline =>
    have hc : c = '\n' ∨ c = '\r' := by simpa [isLineEnd] using hline
    rcases hc with rfl | rfl <;> rfl
  | @second q c rest hq hc =>
    rw [List.cons_append, hquote, characterBody_append hq]
    simp [characterEnd, hc, after, Nat.add_comm]
  | @noQuote q hq =>
    rw [List.cons_append, hquote, characterBody_append hq]
    simp [characterEnd, after, Nat.add_comm]
  | characterEscape hnext =>
    cases rest with
    | nil => rfl
    | cons c rest =>
      rw [List.cons_append, hquote]
      simp [characterBody, notNext_cons.1 hnext, after]
  | @stringEscape qs _ hqs hnext =>
    rw [List.cons_append, List.append_assoc, hquotes, stringBody_append hqs,
      List.singleton_append, stringBody_of_slash hnext]
    simp [after, Nat.add_comm]
  | @string qs _ hqs hend =>
    rw [List.cons_append, hquotes, stringBody_append hqs, stringBody_of_end hend]
    simp [after, Nat.add_comm]

/-- **What a scan gets stuck at**, unless it starts with a blank. -/
theorem stuck_of_scan (hb : isBlank c = false) (h : scan (c :: cs) = ⟨n, .error fault⟩) :
    ∃ text rest, c :: cs = text ++ rest ∧ text.length = n ∧ Stuck fault text rest := by
  rw [scan] at h
  split at h
  · cases h
  split at h
  · rename_i hs
    rw [Bool.and_eq_true] at hs
    obtain ⟨m, hnum, rfl⟩ := after_eq_error h
    have hsign : Sign [c] := by simpa [isSign, Sign] using hs.1
    exact stuck_of_number hsign hs.2 hnum
  split at h
  · rename_i hdigit
    have hd : startsWithDigit (c :: cs) = true := hdigit
    simpa using stuck_of_number (Or.inl rfl) hd h
  split at h
  · rename_i hquote
    obtain ⟨m, hbody, rfl⟩ := after_eq_error h
    obtain ⟨q, rest, rfl, rfl, hq⟩ := stuck_of_characterBody hbody
    obtain rfl : c = '\'' := by simpa using hquote
    exact ⟨'\'' :: q, rest, rfl, by simp [Nat.add_comm], hq⟩
  split at h
  · rename_i hquotes
    obtain ⟨m, hbody, rfl⟩ := after_eq_error h
    obtain ⟨text, rest, rfl, rfl, hq⟩ := stuck_of_stringBody hbody
    obtain rfl : c = '"' := by simpa using hquotes
    exact ⟨'"' :: text, rest, rfl, by simp [Nat.add_comm], hq⟩
  · unfold operator at h
    split at h
    · cases h
    · cases h
    · split at h <;> cases h

/-- What is stuck is the front of some token. -/
theorem Stuck.exists_fits (h : Stuck fault text rest) : ∃ k more, Fits k (text ++ more) [] := by
  cases h with
  | @decimal sign ds _ hs hd _ =>
    have hzero : Digits ['0'] := ⟨by simp, by simp⟩
    have hfits : Fits .decimal (sign ++ (ds ++ '.' :: ['0'])) [] := .decimal hs hd hzero nofun
    exact ⟨.decimal, ['0'], by simpa using hfits⟩
  | emptyCharacter | lineEnd _ | noCharacter =>
    have hq : Quoted '\'' ['a'] := .plain (by decide) (by decide) (by decide)
    exact ⟨.character, ['a', '\''], .character hq⟩
  | second hq _ | noQuote hq => exact ⟨.character, ['\''], .character hq⟩
  | characterEscape _ => exact ⟨.character, ['n', '\''], .character (.escape rfl)⟩
  | @stringEscape qs _ hqs _ =>
    have hq : Quoted '"' ['\\', 'n'] := .escape rfl
    have hall : ∀ q ∈ qs ++ [['\\', 'n']], Quoted '"' q := by
      intro q hmem
      rcases List.mem_append.1 hmem with hmem | hmem
      · exact hqs q hmem
      · rwa [List.mem_singleton.1 hmem]
    have hfits : Fits .string ('"' :: ((qs ++ [['\\', 'n']]).flatten ++ ['"'])) [] := .string hall
    exact ⟨.string, ['n', '"'], by simpa using hfits⟩
  | string hqs _ => exact ⟨.string, ['"'], .string hqs⟩

theorem Stuck.exists_cons (h : Stuck fault text rest) :
    ∃ c cs, text = c :: cs ∧ isBlank c = false := by
  obtain ⟨k, more, hfits⟩ := h.exists_fits
  obtain ⟨c, cs, heq, hb⟩ := hfits.exists_cons
  have hne : text ≠ [] := by cases h <;> simp
  cases text with
  | nil => exact absurd rfl hne
  | cons d text =>
    obtain ⟨rfl, -⟩ := List.cons.inj heq
    exact ⟨d, text, rfl, hb⟩

/-- Only the next character is to blame. -/
theorem Stuck.of_head (h : Stuck fault text (x :: xs)) (ys : List Char) :
    Stuck fault text (x :: ys) := by
  cases h with
  | decimal hs hd hr => exact .decimal hs hd hr
  | emptyCharacter => exact .emptyCharacter
  | lineEnd hline => exact .lineEnd hline
  | second hq hx => exact .second hq hx
  | characterEscape hnext => exact .characterEscape hnext
  | stringEscape hqs hnext => exact .stringEscape hqs hnext
  | string hqs hend => exact .string hqs hend

/-- A token depends on the next character only. -/
theorem Fits.of_head? {rest' : List Char} (h : Fits k text rest) (heq : rest.head? = rest'.head?) :
    Fits k text rest' := by
  have hnext : ∀ {f : Char → Bool}, NotNext f rest → NotNext f rest' := by
    intro f hf
    rwa [NotNext, ← heq]
  cases h with
  | identifier hc hcs hr => exact .identifier hc hcs (hnext hr)
  | integer hs hd hr => exact .integer hs hd (hnext hr)
  | decimal hs hd hd' hr => exact .decimal hs hd hd' (hnext hr)
  | character hq => exact .character hq
  | string hqs => exact .string hqs
  | comparison hc hr => exact .comparison hc (hnext hr)
  | comparisonEqual hc => exact .comparisonEqual hc
  | other hcomp hb hident hdigit hquote hquotes hsign =>
    exact .other hcomp hb hident hdigit hquote hquotes fun hs => hnext (hsign hs)

/-! ## Texts -/

namespace Halts

theorem offset_eq (h : Halts p text rest e) : e.offset = p + text.length := by
  induction h with
  | here _ => rfl
  | blank _ _ ih =>
    rw [ih, List.length_cons]
    omega
  | token _ _ ih =>
    rw [ih, List.length_append]
    omega

theorem ne_nil (h : Halts p text rest e) : text ≠ [] := by
  cases h with
  | here hstuck =>
    obtain ⟨c, cs, rfl, -⟩ := hstuck.exists_cons
    exact List.cons_ne_nil _ _
  | blank _ _ => exact List.cons_ne_nil _ _
  | token hfits _ =>
    obtain ⟨c, cs, rfl, -⟩ := hfits.exists_cons
    exact List.cons_ne_nil _ _

/-- The tokens in front do not change with what follows. -/
theorem fits_append (h : Halts p text rest e) (hfits : Fits k q (text ++ rest)) :
    Fits k q (text ++ ys) := by
  refine hfits.of_head? ?_
  cases text with
  | nil => exact absurd rfl h.ne_nil
  | cons c text => rfl

/-- What was read can be continued to a text that has tokens. -/
theorem exists_cut (h : Halts p text rest e) : ∃ more ts, Cut p (text ++ more) ts := by
  induction h with
  | @here p _ text _ hstuck =>
    obtain ⟨k, more, hfits⟩ := hstuck.exists_fits
    refine ⟨more, [⟨k, String.ofList (text ++ more), p⟩], ?_⟩
    simpa using Cut.token (p := p) hfits .done
  | blank hb _ ih =>
    obtain ⟨more, ts, hcut⟩ := ih
    exact ⟨more, ts, .blank hb hcut⟩
  | @token p k token text rest e hfits hhalts ih =>
    obtain ⟨more, ts, hcut⟩ := ih
    refine ⟨more, ⟨k, String.ofList token, p⟩ :: ts, ?_⟩
    rw [List.append_assoc]
    exact .token (hhalts.fits_append hfits) hcut

/-- Only the next character is to blame. -/
theorem of_head (h : Halts p text (x :: xs) e) (ys : List Char) : Halts p text (x :: ys) e := by
  generalize hrest : x :: xs = rest at h
  induction h with
  | here hstuck =>
    subst hrest
    exact .here (hstuck.of_head ys)
  | blank hb _ ih => exact .blank hb (ih hrest)
  | token hfits hhalts ih => exact .token (hhalts.fits_append hfits) (ih hrest)

end Halts

namespace Cursor

theorem lex_of_halts (h : Halts p text rest e) : lex ⟨text ++ rest, p, []⟩ = .error e := by
  induction h with
  | here hstuck =>
    have hscan := scan_of_stuck hstuck
    obtain ⟨c, cs, rfl, hb⟩ := hstuck.exists_cons
    exact lex_of_fault hb hscan
  | blank hb _ ih =>
    rw [List.cons_append, lex_blank hb]
    exact ih
  | token hfits _ ih =>
    rw [List.append_assoc, lex_of_fits hfits, ih]
    rfl

theorem halts_of_lex (h : lex ⟨cs, p, []⟩ = .error e) :
    ∃ text rest, cs = text ++ rest ∧ Halts p text rest e := by
  induction hn : cs.length using Nat.strongRecOn generalizing cs p with
  | ind n ih =>
    cases cs with
    | nil =>
      rw [lex_nil] at h
      cases h
    | cons c cs =>
      cases hb : isBlank c with
      | true =>
        rw [lex_blank hb] at h
        obtain ⟨text, rest, rfl, hhalts⟩ := ih cs.length (by simp [← hn]) h rfl
        exact ⟨c :: text, rest, rfl, .blank hb hhalts⟩
      | false =>
        cases hs : scan (c :: cs) with
        | mk m verdict =>
          cases verdict with
          | error fault =>
            rw [lex_of_fault hb hs] at h
            cases h
            obtain ⟨text, rest, heq, rfl, hstuck⟩ := stuck_of_scan hb hs
            exact ⟨text, rest, heq, .here hstuck⟩
          | ok k =>
            obtain ⟨token, rest, heq, -, hfits⟩ := fits_of_scan hb hs
            rw [heq] at h hn ⊢
            rw [lex_of_fits hfits] at h
            obtain ⟨d, ds, rfl, -⟩ := hfits.exists_cons
            have hlt : rest.length < n := by
              rw [← hn, List.length_append, List.length_cons]
              omega
            cases hl : lex ⟨rest, p + (d :: ds).length, []⟩ with
            | ok ts =>
              rw [hl] at h
              cases h
            | error e' =>
              rw [hl] at h
              cases h
              obtain ⟨text, rest', rfl, hhalts⟩ := ih rest.length hlt hl rfl
              exact ⟨d :: ds ++ text, rest', by simp, .token hfits hhalts⟩

end Cursor

end

/-- Lexing fails where reading halts. -/
theorem lex_eq_error_iff {source : String} {e : LexError} :
    lex source = .error e ↔ ∃ text rest, source.toList = text ++ rest ∧ Halts 0 text rest e := by
  constructor
  · exact Cursor.halts_of_lex
  · rintro ⟨text, rest, heq, hhalts⟩
    rw [lex, Cursor.ofString, heq]
    exact Cursor.lex_of_halts hhalts

/-- **A failure to lex points at the first offending character**: what stands in front of it
    can be continued to a text that lexes, and no text that starts with it and what stands in
    front of it lexes. -/
theorem lex_error_at_first_fault {source : String} {e : LexError} (h : lex source = .error e) :
    e.offset ≤ source.length ∧
      (∃ source' ts, source.toList.take e.offset <+: source'.toList ∧ lex source' = .ok ts) ∧
      (e.offset < source.length → ∀ source' : String,
        source.toList.take (e.offset + 1) <+: source'.toList → lex source' = .error e) := by
  obtain ⟨text, rest, heq, hhalts⟩ := lex_eq_error_iff.1 h
  have hoffset : e.offset = text.length := by
    rw [hhalts.offset_eq, Nat.zero_add]
  have hlength : source.length = text.length + rest.length := by
    rw [← String.length_toList, heq, List.length_append]
  rw [hoffset, hlength, heq]
  refine ⟨Nat.le_add_right .., ?_, fun hlt source' hfront => ?_⟩
  · obtain ⟨more, ts, hcut⟩ := hhalts.exists_cut
    refine ⟨String.ofList (text ++ more), ts, ?_, ?_⟩
    · rw [List.take_left, String.toList_ofList]
      exact List.prefix_append text more
    · rw [lex, Cursor.ofString, String.toList_ofList]
      exact Cursor.lex_of_cut hcut
  · cases rest with
    | nil => exact absurd hlt (by simp)
    | cons c rest =>
      obtain ⟨more, hmore⟩ := hfront
      rw [List.take_length_add_append] at hmore
      refine lex_eq_error_iff.2 ⟨text, c :: more, ?_, hhalts.of_head more⟩
      rw [← hmore]
      simp

/-- A character literal that holds two characters fails at the second one, whatever follows. -/
theorem lex_error_at_second_character :
    lex "name 'ab'" = .error ⟨.invalidCharacter, 7⟩ ∧
      ∀ source : String, "name 'ab".toList <+: source.toList →
        lex source = .error ⟨.invalidCharacter, 7⟩ := by
  have hname : Fits .identifier ['n', 'a', 'm', 'e'] [' ', '\'', 'a', 'b', '\''] :=
    .identifier (by decide) (List.all_eq_true.1 (by decide)) (notNext_cons.2 (by decide))
  have hquoted : Quoted '\'' ['a'] := .plain (by decide) (by decide) (by decide)
  have hstuck : Stuck .invalidCharacter ['\'', 'a'] ['b', '\''] := .second hquoted (by decide)
  have hliteral : Halts 5 ['\'', 'a'] ['b', '\''] ⟨.invalidCharacter, 7⟩ := .here hstuck
  have hblank : Halts 4 [' ', '\'', 'a'] ['b', '\''] ⟨.invalidCharacter, 7⟩ := .blank rfl hliteral
  have hhalts : Halts 0 (['n', 'a', 'm', 'e'] ++ [' ', '\'', 'a']) ['b', '\'']
      ⟨.invalidCharacter, 7⟩ := .token hname hblank
  have hlex : lex "name 'ab'" = .error ⟨.invalidCharacter, 7⟩ :=
    lex_eq_error_iff.2 ⟨_, _, rfl, hhalts⟩
  obtain ⟨-, -, hfail⟩ := lex_error_at_first_fault hlex
  exact ⟨hlex, fun source hfront => hfail (by decide) source (by simpa using hfront)⟩

end TinyScript
