import Mathlib.Data.List.Basic
import TinyScript.Token.Cursor

/-
  The forms of tokens.

  `Fits kind text rest` says that a text is a token of a kind where `rest` follows; it
  speaks of the characters of the token and of the one after it, and not of any way to
  find them.

  * `scan_of_fits`: a text that fits is what a scan finds;
  * `fits_of_scan`: what a scan finds fits, unless it starts with a blank.
-/

namespace TinyScript

open CharClass Lexeme

/-! ## Forms -/

/-- The next character, if there is one, is not of the class. -/
def NotNext (p : Char → Bool) (rest : List Char) : Prop := ∀ c ∈ rest.head?, p c = false

/-- Digits, at least one. -/
def Digits (ds : List Char) : Prop := ds ≠ [] ∧ ∀ d ∈ ds, d.isDigit = true

/-- The sign of a number, or none. -/
def Sign (cs : List Char) : Prop := cs = [] ∨ cs = ['+'] ∨ cs = ['-']

/-- One character of a literal between quotes, or an escape. -/
inductive Quoted (quote : Char) : List Char → Prop
  | plain {c} : c ≠ quote → c ≠ '\\' → isLineEnd c = false → Quoted quote [c]
  | escape {c} : isEscapeCode c = true → Quoted quote ['\\', c]

/-- The text is a token of the kind where `rest` follows. -/
inductive Fits : TokenKind → List Char → List Char → Prop
  | identifier {c cs rest} : isIdentifierStart c = true → (∀ d ∈ cs, isIdentifierPart d = true) →
      NotNext isIdentifierPart rest → Fits .identifier (c :: cs) rest
  | integer {sign ds rest} : Sign sign → Digits ds →
      NotNext (fun c => c.isDigit || c == '.') rest → Fits .integer (sign ++ ds) rest
  | decimal {sign ds ds' rest} : Sign sign → Digits ds → Digits ds' →
      NotNext Char.isDigit rest → Fits .decimal (sign ++ (ds ++ '.' :: ds')) rest
  | character {q rest} : Quoted '\'' q → Fits .character ('\'' :: (q ++ ['\''])) rest
  | string {qs : List (List Char)} {rest} : (∀ q ∈ qs, Quoted '"' q) →
      Fits .string ('"' :: (qs.flatten ++ ['"'])) rest
  | comparison {c rest} : isComparisonStart c = true → NotNext (· == '=') rest →
      Fits .operator [c] rest
  | comparisonEqual {c rest} : isComparisonStart c = true → Fits .operator [c, '='] rest
  -- any other character that starts nothing else
  | other {c rest} : isComparisonStart c = false → isBlank c = false →
      isIdentifierStart c = false → c.isDigit = false → c ≠ '\'' → c ≠ '"' →
      (isSign c = true → NotNext Char.isDigit rest) → Fits .operator [c] rest

/-! ## Runs of a class -/

section
variable {p : Char → Bool} {cs rest : List Char}

theorem notNext_cons {c : Char} : NotNext p (c :: rest) ↔ p c = false := by
  simp [NotNext]

/-- A run ends where the class does. -/
theorem run_append_iff {w : List Char} :
    run p (w ++ rest) = w.length ↔ (∀ c ∈ w, p c = true) ∧ NotNext p rest := by
  induction w with
  | nil =>
    cases rest with
    | nil => simp [run, NotNext]
    | cons c rest => by_cases hc : p c = true <;> simp [run, notNext_cons, hc]
  | cons c w ih =>
    by_cases hc : p c = true
    · have hrun : run p (c :: (w ++ rest)) = run p (w ++ rest) + 1 := by simp [run, hc]
      rw [List.cons_append, hrun, List.length_cons, Nat.add_right_cancel_iff, ih]
      simp [hc]
    · simp [run, hc]

/-- A text is a run of the class and what follows it. -/
theorem exists_run (p : Char → Bool) (cs : List Char) :
    ∃ w rest, cs = w ++ rest ∧ w.length = run p cs ∧ (∀ c ∈ w, p c = true) ∧ NotNext p rest := by
  refine ⟨cs.take (run p cs), cs.drop (run p cs), (List.take_append_drop ..).symm,
    List.length_take_of_le (run_le p cs), run_append_iff.1 ?_⟩
  rw [List.take_append_drop, List.length_take_of_le (run_le p cs)]

end

/-! ## Numbers -/

section
variable {ds ds' cs rest : List Char} {c : Char}

theorem Digits.exists_cons (hd : Digits ds) : ∃ d ds', ds = d :: ds' ∧ d.isDigit = true := by
  obtain ⟨hne, hall⟩ := hd
  cases ds with
  | nil => exact absurd rfl hne
  | cons d ds => exact ⟨d, ds, rfl, hall d (by simp)⟩

theorem Digits.append (hd : Digits ds) (hd' : ∀ d ∈ ds', d.isDigit = true) : Digits (ds ++ ds') :=
  ⟨by simp [hd.1], fun d h => (List.mem_append.1 h).elim (hd.2 d) (hd' d)⟩

/-- Where neither a digit nor a point follows, no digit does. -/
theorem NotNext.isDigit (h : NotNext (fun c => c.isDigit || c == '.') rest) :
    NotNext Char.isDigit rest := by
  intro c hc
  have hor := h c hc
  simp only [Bool.or_eq_false_iff] at hor
  exact hor.1

theorem number_of_digits (hd : ∀ d ∈ ds, d.isDigit = true)
    (hr : NotNext (fun c => c.isDigit || c == '.') rest) :
    number (ds ++ rest) = ⟨ds.length, .ok .integer⟩ := by
  have hrun : run Char.isDigit (ds ++ rest) = ds.length := run_append_iff.2 ⟨hd, hr.isDigit⟩
  simp only [number, hrun, List.drop_left]
  split
  · simp [notNext_cons] at hr
  · rfl

theorem number_of_decimal (hd : ∀ d ∈ ds, d.isDigit = true) (hd' : Digits ds')
    (hr : NotNext Char.isDigit rest) :
    number (ds ++ '.' :: (ds' ++ rest)) = ⟨ds.length + 1 + ds'.length, .ok .decimal⟩ := by
  have hrun : run Char.isDigit (ds ++ '.' :: (ds' ++ rest)) = ds.length :=
    run_append_iff.2 ⟨hd, notNext_cons.2 rfl⟩
  have hrun' : run Char.isDigit (ds' ++ rest) = ds'.length := run_append_iff.2 ⟨hd'.2, hr⟩
  have hpos : ds'.length ≠ 0 := fun h => hd'.1 (List.length_eq_zero_iff.1 h)
  simp only [number, hrun, List.drop_left, hrun', if_neg hpos]

/-- What a number can be. -/
theorem forms_of_number {n : Nat} {k : TokenKind} (h : number cs = ⟨n, .ok k⟩) :
    ∃ ds rest, cs = ds ++ rest ∧ (∀ d ∈ ds, d.isDigit = true) ∧
      (k = .integer ∧ n = ds.length ∧ NotNext (fun c => c.isDigit || c == '.') rest ∨
        ∃ ds' rest', rest = '.' :: (ds' ++ rest') ∧ k = .decimal ∧ n = ds.length + 1 + ds'.length ∧
          Digits ds' ∧ NotNext Char.isDigit rest') := by
  obtain ⟨ds, rest, rfl, hl, hd, hr⟩ := exists_run Char.isDigit cs
  refine ⟨ds, rest, rfl, hd, ?_⟩
  simp only [number, ← hl, List.drop_left] at h
  split at h
  · rename_i rest
    obtain ⟨ds', rest', rfl, hl', hd', hr'⟩ := exists_run Char.isDigit rest
    rw [← hl'] at h
    split at h
    · cases h
    · rename_i hpos
      cases h
      exact Or.inr ⟨ds', rest', rfl, rfl, rfl, ⟨fun hnil => hpos (by simp [hnil]), hd'⟩, hr'⟩
  · rename_i hdot
    cases h
    refine Or.inl ⟨rfl, rfl, fun c hc => ?_⟩
    cases rest with
    | nil => cases hc
    | cons d rest =>
      have hd : d ≠ '.' := fun hd => hdot rest (by rw [hd])
      cases hc
      simp [notNext_cons.1 hr, hd]

theorem startsWithDigit_append (hd : Digits ds) : startsWithDigit (ds ++ rest) = true := by
  obtain ⟨d, ds, rfl, hdigit⟩ := hd.exists_cons
  exact hdigit

/-- The digits of a text that starts with one. -/
theorem digits_of_startsWithDigit (hs : startsWithDigit (ds ++ rest) = true)
    (hd : ∀ d ∈ ds, d.isDigit = true) (hr : NotNext Char.isDigit rest) : Digits ds := by
  refine ⟨?_, hd⟩
  rintro rfl
  cases rest with
  | nil => cases hs
  | cons c rest =>
    rw [notNext_cons] at hr
    rw [List.nil_append, startsWithDigit, hr] at hs
    cases hs

end

/-! ## Literals between quotes -/

section
variable {q cs rest : List Char} {n : Nat} {k : TokenKind}

theorem after_after (m n : Nat) (l : Lexeme) : (l.after n).after m = l.after (m + n) := by
  simp [after, Nat.add_assoc]

/-- After a quoted character comes the closing quote. -/
theorem characterBody_append (hq : Quoted '\'' q) (cs : List Char) :
    characterBody (q ++ cs) = (characterEnd cs).after q.length := by
  cases hq with
  | plain hquote hslash hline =>
    rw [List.singleton_append, characterBody]
    · simp [hline]
    · exact hquote
    · rintro h -
      exact hslash h
    · intro _ _ h _
      exact hslash h
  | escape hc => simp [characterBody, hc]

theorem characterBody_of_quoted (hq : Quoted '\'' q) :
    characterBody (q ++ '\'' :: rest) = ⟨q.length + 1, .ok .character⟩ := by
  rw [characterBody_append hq]
  rfl

theorem characterEnd_eq_ok (h : characterEnd cs = ⟨n, .ok k⟩) :
    k = .character ∧ n = 1 ∧ ∃ rest, cs = '\'' :: rest := by
  unfold characterEnd at h
  split at h
  · cases h
  · rename_i c rest
    split at h <;> cases h
    exact ⟨rfl, rfl, rest, by simp_all⟩

theorem after_eq_ok {l : Lexeme} {i : Nat} (h : l.after i = ⟨n, .ok k⟩) :
    ∃ m, l = ⟨m, .ok k⟩ ∧ n = i + m := by
  obtain ⟨m, v⟩ := l
  cases h
  exact ⟨m, rfl, rfl⟩

theorem quoted_of_characterBody (h : characterBody cs = ⟨n, .ok k⟩) :
    k = .character ∧ ∃ q rest, cs = q ++ '\'' :: rest ∧ n = q.length + 1 ∧ Quoted '\'' q := by
  unfold characterBody at h
  split at h
  · cases h
  · cases h
  · cases h
  · split at h
    · rename_i e rest hcode
      obtain ⟨m, hend, rfl⟩ := after_eq_ok h
      obtain ⟨rfl, rfl, rest, rfl⟩ := characterEnd_eq_ok hend
      exact ⟨rfl, ['\\', e], rest, rfl, rfl, .escape hcode⟩
    · cases h
  · rename_i c rest hquote hlast hslash
    split at h
    · cases h
    · rename_i hline
      obtain ⟨m, hend, rfl⟩ := after_eq_ok h
      obtain ⟨rfl, rfl, rest, rfl⟩ := characterEnd_eq_ok hend
      refine ⟨rfl, [c], rest, rfl, rfl, .plain hquote (fun hc => ?_) (by simpa using hline)⟩
      exact hslash _ _ hc rfl

theorem stringBody_cons (hq : Quoted '"' q) (cs : List Char) :
    stringBody (q ++ cs) = (stringBody cs).after q.length := by
  cases hq with
  | plain hquote hslash hline =>
    rw [List.singleton_append, stringBody]
    · simp [hline]
    · exact hquote
    · rintro h -
      exact hslash h
    · intro _ _ h _
      exact hslash h
  | escape hc => simp [stringBody, hc]

/-- A string literal is read one quoted character after the other. -/
theorem stringBody_append {qs : List (List Char)} (hqs : ∀ q ∈ qs, Quoted '"' q)
    (cs : List Char) :
    stringBody (qs.flatten ++ cs) = (stringBody cs).after qs.flatten.length := by
  induction qs with
  | nil => simp [after]
  | cons q qs ih =>
    obtain ⟨hq, hqs⟩ := List.forall_mem_cons.1 hqs
    rw [List.flatten_cons, List.append_assoc, stringBody_cons hq, ih hqs, after_after,
      List.length_append]

theorem stringBody_of_quoted {qs : List (List Char)} (hqs : ∀ q ∈ qs, Quoted '"' q) :
    stringBody (qs.flatten ++ '"' :: rest) = ⟨qs.flatten.length + 1, .ok .string⟩ := by
  rw [stringBody_append hqs]
  rfl

theorem quoted_of_stringBody (h : stringBody cs = ⟨n, .ok k⟩) :
    k = .string ∧ ∃ (qs : List (List Char)) (rest : List Char), cs = qs.flatten ++ '"' :: rest ∧
      n = qs.flatten.length + 1 ∧ ∀ q ∈ qs, Quoted '"' q := by
  fun_induction stringBody cs generalizing n k with
  | case1 => cases h
  | case2 rest =>
    cases h
    exact ⟨rfl, [], rest, rfl, rfl, by simp⟩
  | case3 => cases h
  | case4 e rest hcode ih =>
    obtain ⟨m, hbody, rfl⟩ := after_eq_ok h
    obtain ⟨rfl, qs, rest, rfl, rfl, hqs⟩ := ih hbody
    refine ⟨rfl, ['\\', e] :: qs, rest, rfl, by simp [Nat.add_comm, Nat.add_left_comm], ?_⟩
    exact List.forall_mem_cons.2 ⟨.escape hcode, hqs⟩
  | case5 e rest hcode => cases h
  | case6 c rest hquote hlast hslash hline => cases h
  | case7 c rest hquote hlast hslash hline ih =>
    obtain ⟨m, hbody, rfl⟩ := after_eq_ok h
    obtain ⟨rfl, qs, rest, rfl, rfl, hqs⟩ := ih hbody
    refine ⟨rfl, [c] :: qs, rest, rfl, by simp [Nat.add_comm, Nat.add_left_comm], ?_⟩
    refine List.forall_mem_cons.2 ⟨.plain hquote (fun hc => ?_) (by simpa using hline), hqs⟩
    cases hrest : qs.flatten ++ '"' :: rest with
    | nil => simp at hrest
    | cons d ds => exact hslash d ds hc hrest

end

/-! ## Operators -/

section
variable {c : Char} {rest : List Char}

theorem operator_of_notNext (h : NotNext (· == '=') rest) :
    operator (c :: rest) = ⟨1, .ok .operator⟩ := by
  cases rest with
  | nil => rfl
  | cons d rest => simp [operator, notNext_cons.1 h]

theorem operator_of_other (h : isComparisonStart c = false) :
    operator (c :: rest) = ⟨1, .ok .operator⟩ := by
  cases rest with
  | nil => rfl
  | cons d rest => simp [operator, h]

end

/-! ## Scans -/

section
variable {c : Char} {cs text rest : List Char} {n : Nat} {k : TokenKind}

theorem isIdentifierStart_of_isDigit (h : c.isDigit = true) : isIdentifierStart c = false := by
  have hc : c ≠ '_' := by
    rintro rfl
    cases h
  simp only [Char.isDigit, Bool.and_eq_true, decide_eq_true_eq, ge_iff_le,
    UInt32.le_iff_toNat_le] at h
  have h' : c.toNat ≤ 57 := h.2
  have hupper : c.isUpper = false := by
    refine decide_eq_false fun hle => ?_
    have : 65 ≤ c.toNat := UInt32.le_iff_toNat_le.1 hle.1
    omega
  have hlower : c.isLower = false := by
    refine Bool.and_eq_false_iff.2 (.inl (decide_eq_false fun hle => ?_))
    have : 97 ≤ c.toNat := UInt32.le_iff_toNat_le.1 hle
    omega
  show (c.isUpper || c.isLower || c == '_') = false
  simp [hupper, hlower, hc]

theorem scan_digit (h : c.isDigit = true) : scan (c :: cs) = number (c :: cs) := by
  have hsign : isSign c = false := by
    simp only [isSign, Bool.or_eq_false_iff, beq_eq_false_iff_ne]
    constructor <;> rintro rfl <;> cases h
  simp [scan, isIdentifierStart_of_isDigit h, hsign, h]

theorem scan_sign (h : isSign c = true) (hd : startsWithDigit cs = true) :
    scan (c :: cs) = (number cs).after 1 := by
  have hstart : isIdentifierStart c = false := by
    simp only [isSign, Bool.or_eq_true, beq_iff_eq] at h
    rcases h with rfl | rfl <;> rfl
  simp [scan, hstart, h, hd]

/-- A signed number scans like the number. -/
theorem scan_signed {sign : List Char} (h : Sign sign) (hd : startsWithDigit cs = true) :
    scan (sign ++ cs) = (number cs).after sign.length := by
  rcases h with rfl | rfl | rfl
  · cases cs with
    | nil => cases hd
    | cons d cs =>
      rw [List.nil_append, scan_digit hd]
      simp [after]
  · exact scan_sign rfl hd
  · exact scan_sign rfl hd

theorem scan_comparison (h : isComparisonStart c = true) :
    scan (c :: cs) = operator (c :: cs) := by
  simp only [isComparisonStart, Bool.or_eq_true, beq_iff_eq] at h
  rcases h with ((rfl | rfl) | rfl) | rfl <;> rfl

/-- **A text that fits is what a scan finds.** -/
theorem scan_of_fits (h : Fits k text rest) : scan (text ++ rest) = ⟨text.length, .ok k⟩ := by
  cases h with
  | @identifier c cs _ hc hcs hr =>
    simp [scan, hc, run_append_iff.2 ⟨hcs, hr⟩, Nat.add_comm]
  | integer hs hd hr =>
    rw [List.append_assoc, scan_signed hs (startsWithDigit_append hd), number_of_digits hd.2 hr]
    simp [after]
  | @decimal sign ds ds' _ hs hd hd' hr =>
    rw [List.append_assoc, List.append_assoc, List.cons_append,
      scan_signed hs (startsWithDigit_append hd), number_of_decimal hd.2 hd' hr]
    simp only [after, List.length_append, List.length_cons, Lexeme.mk.injEq, and_true]
    omega
  | @character q _ hq =>
    have hstart : isIdentifierStart '\'' = false := rfl
    have hbody : characterBody (q ++ '\'' :: rest) = _ := characterBody_of_quoted hq
    simp [scan, hstart, isSign, hbody, after, Nat.add_comm]
  | @string qs _ hqs =>
    have hstart : isIdentifierStart '"' = false := rfl
    have hbody : stringBody (qs.flatten ++ '"' :: rest) = _ := stringBody_of_quoted hqs
    simp [scan, hstart, isSign, hbody, after, Nat.add_comm]
  | comparison hc hr => exact (scan_comparison hc).trans (operator_of_notNext hr)
  | @comparisonEqual c _ hc =>
    refine (scan_comparison hc).trans ?_
    simp [operator, hc]
  | @other c _ hcomp _ hident hdigit hquote hquotes hsign =>
    have hnumber : (isSign c && startsWithDigit rest) = false := by
      cases hs : isSign c with
      | false => rfl
      | true =>
        cases rest with
        | nil => rfl
        | cons d rest => simpa [startsWithDigit] using notNext_cons.1 (hsign hs)
    simp only [List.singleton_append, scan, hident, hnumber, hdigit, beq_eq_false_iff_ne.2 hquote,
      beq_eq_false_iff_ne.2 hquotes, Bool.false_eq_true, if_false]
    exact operator_of_other hcomp

/-- A number fits, with the sign that stands before it. -/
theorem fits_of_number {sign : List Char} (hs : Sign sign) (hd : startsWithDigit cs = true)
    (h : number cs = ⟨n, .ok k⟩) :
    ∃ text rest, sign ++ cs = text ++ rest ∧ text.length = sign.length + n ∧ Fits k text rest := by
  obtain ⟨ds, rest, rfl, hds, ⟨rfl, rfl, hr⟩ | ⟨ds', rest', rfl, rfl, rfl, hd', hr⟩⟩ :=
    forms_of_number h
  · have hdigits : Digits ds := digits_of_startsWithDigit hd hds hr.isDigit
    exact ⟨sign ++ ds, rest, (List.append_assoc ..).symm, by simp, .integer hs hdigits hr⟩
  · have hdigits : Digits ds := digits_of_startsWithDigit hd hds (notNext_cons.2 rfl)
    refine ⟨sign ++ (ds ++ '.' :: ds'), rest', by simp, ?_, .decimal hs hdigits hd' hr⟩
    simp only [List.length_append, List.length_cons]
    omega

/-- An operator fits, where nothing else starts. -/
theorem fits_of_operator (hb : isBlank c = false) (hident : isIdentifierStart c = false)
    (hdigit : c.isDigit = false) (hquote : c ≠ '\'') (hquotes : c ≠ '"')
    (hsign : isSign c = true → NotNext Char.isDigit cs)
    (h : operator (c :: cs) = ⟨n, .ok k⟩) :
    ∃ text rest, c :: cs = text ++ rest ∧ text.length = n ∧ Fits k text rest := by
  cases hc : isComparisonStart c with
  | false =>
    rw [operator_of_other hc] at h
    cases h
    exact ⟨[c], cs, rfl, rfl, .other hc hb hident hdigit hquote hquotes hsign⟩
  | true =>
    cases cs with
    | nil =>
      cases h
      exact ⟨[c], [], rfl, rfl, .comparison hc (by simp [NotNext])⟩
    | cons d cs =>
      by_cases hd : d = '='
      · subst hd
        simp only [operator, hc, beq_self_eq_true, Bool.and_true, if_true] at h
        cases h
        exact ⟨[c, '='], cs, rfl, rfl, .comparisonEqual hc⟩
      · have hnext : NotNext (· == '=') (d :: cs) := notNext_cons.2 (by simpa using hd)
        rw [operator_of_notNext hnext] at h
        cases h
        exact ⟨[c], d :: cs, rfl, rfl, .comparison hc hnext⟩

/-- **What a scan finds fits**, unless it starts with a blank. -/
theorem fits_of_scan (hb : isBlank c = false) (h : scan (c :: cs) = ⟨n, .ok k⟩) :
    ∃ text rest, c :: cs = text ++ rest ∧ text.length = n ∧ Fits k text rest := by
  rw [scan] at h
  split at h
  · rename_i hident
    cases h
    obtain ⟨w, rest, rfl, hl, hw, hr⟩ := exists_run isIdentifierPart cs
    exact ⟨c :: w, rest, rfl, by rw [List.length_cons, hl, Nat.add_comm], .identifier hident hw hr⟩
  rename_i hident
  split at h
  · rename_i hs
    rw [Bool.and_eq_true] at hs
    obtain ⟨m, hnum, rfl⟩ := after_eq_ok h
    have hsign : Sign [c] := by simpa [isSign, Sign] using hs.1
    exact fits_of_number hsign hs.2 hnum
  rename_i hsign
  split at h
  · rename_i hdigit
    have hd : startsWithDigit (c :: cs) = true := hdigit
    simpa using fits_of_number (Or.inl rfl) hd h
  rename_i hdigit
  split at h
  · rename_i hquote
    obtain ⟨m, hbody, rfl⟩ := after_eq_ok h
    obtain ⟨rfl, q, rest, rfl, rfl, hq⟩ := quoted_of_characterBody hbody
    obtain rfl : c = '\'' := by simpa using hquote
    exact ⟨'\'' :: (q ++ ['\'']), rest, by simp, by simp [Nat.add_comm], .character hq⟩
  rename_i hquote
  split at h
  · rename_i hquotes
    obtain ⟨m, hbody, rfl⟩ := after_eq_ok h
    obtain ⟨rfl, qs, rest, rfl, rfl, hqs⟩ := quoted_of_stringBody hbody
    obtain rfl : c = '"' := by simpa using hquotes
    exact ⟨'"' :: (qs.flatten ++ ['"']), rest, by simp, by simp [Nat.add_comm], .string hqs⟩
  · rename_i hquotes
    refine fits_of_operator hb (by simpa using hident) (by simpa using hdigit)
      (by simpa using hquote) (by simpa using hquotes) (fun hs => ?_) h
    cases cs with
    | nil => simp [NotNext]
    | cons d cs =>
      rw [hs, Bool.true_and] at hsign
      exact notNext_cons.2 (by simpa [startsWithDigit] using hsign)

/-- A character of a class without blanks is none. -/
theorem isBlank_eq_false {p : Char → Bool} (h : p c = true)
    (hp : [' ', '\x08', '\n', '\r', '\t'].all (fun b => !p b) = true := by rfl) :
    isBlank c = false := by
  refine Bool.eq_false_iff.2 fun hb => ?_
  have hmem : c ∈ [' ', '\x08', '\n', '\r', '\t'] := by
    simpa [isBlank, or_assoc] using hb
  have hc := List.all_eq_true.1 hp c hmem
  rw [h] at hc
  cases hc

/-- A token is not empty and does not start with a blank. -/
theorem Fits.exists_cons (h : Fits k text rest) :
    ∃ c cs, text = c :: cs ∧ isBlank c = false := by
  cases h with
  | identifier hc _ _ => exact ⟨_, _, rfl, isBlank_eq_false hc⟩
  | @integer sign ds _ hs hd _ | @decimal sign ds _ _ hs hd _ _ =>
    obtain ⟨d, ds, rfl, hdigit⟩ := hd.exists_cons
    rcases hs with rfl | rfl | rfl
    · exact ⟨d, _, rfl, isBlank_eq_false hdigit⟩
    · exact ⟨'+', _, rfl, rfl⟩
    · exact ⟨'-', _, rfl, rfl⟩
  | character _ | string _ => exact ⟨_, _, rfl, rfl⟩
  | comparison hc _ | comparisonEqual hc => exact ⟨_, _, rfl, isBlank_eq_false hc⟩
  | other _ hb => exact ⟨_, _, rfl, hb⟩

end

end TinyScript
