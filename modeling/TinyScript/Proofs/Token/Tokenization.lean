import TinyScript.Proofs.Token.Form

/-
  What it means to cut a text into tokens, and that lexing does it.

  * `Tokenization`: tokens that lie in a text one after the other, fit their places,
    and leave out blanks only;
  * `Cut`: the same, read from left to right;
  * `lex_iff_tokenization`: lexing finds the tokens of a text, there is never a choice,
    and it fails exactly where there are none.
-/

namespace TinyScript

open CharClass Lexeme

/-- The tokens cut the text from `start` on. -/
structure Tokenization (cs : List Char) (start : Nat) (ts : List Token) : Prop where
  /-- No token lies before the start. -/
  start_le : ∀ t ∈ ts, start ≤ t.offset
  /-- Tokens are in order and do not overlap. -/
  ordered : ts.Pairwise fun t u => t.stop ≤ u.offset
  /-- No token is empty. -/
  nonempty : ∀ t ∈ ts, t.text ≠ ""
  /-- A token is the text between its offsets. -/
  text : ∀ t ∈ ts, cs.extract t.offset t.stop = t.text.toList
  /-- What lies outside of all tokens is blank. -/
  blank : ∀ (i : Nat) (c : Char), start ≤ i → cs[i]? = some c →
    (∀ t ∈ ts, ¬(t.offset ≤ i ∧ i < t.stop)) → isBlank c = true
  /-- A token fits its kind where it stands. -/
  fits : ∀ t ∈ ts, Fits t.kind t.text.toList (cs.drop t.stop)

/-- The tokens of a text that starts at `p`, from left to right. -/
inductive Cut : Nat → List Char → List Token → Prop
  | done {p} : Cut p [] []
  | blank {p c cs ts} : isBlank c = true → Cut (p + 1) cs ts → Cut p (c :: cs) ts
  | token {p k text rest ts} : Fits k text rest → Cut (p + text.length) rest ts →
      Cut p (text ++ rest) (⟨k, String.ofList text, p⟩ :: ts)

/-! ## Lexing cuts -/

namespace Cursor

variable {p : Nat} {c : Char} {cs text rest : List Char} {k : TokenKind} {ts : List Token}

theorem lex_nil : lex ⟨[], p, []⟩ = .ok [] := by
  rw [lex]

theorem lex_blank (h : isBlank c = true) : lex ⟨c :: cs, p, []⟩ = lex ⟨cs, p + 1, []⟩ := by
  rw [lex]
  simp [h, advance, skip]

theorem lexToken_of_fits (h : Fits k text rest) :
    lexToken ⟨text ++ rest, p, []⟩ =
      (.ok ⟨k, String.ofList text, p⟩, ⟨rest, p + text.length, []⟩) := by
  simp [lexToken, scan_of_fits h, advanceBy, emit, skip]

theorem lex_of_fits (h : Fits k text rest) :
    lex ⟨text ++ rest, p, []⟩ =
      (lex ⟨rest, p + text.length, []⟩).map (⟨k, String.ofList text, p⟩ :: ·) := by
  have htoken := lexToken_of_fits (p := p) h
  obtain ⟨c, cs, rfl, hb⟩ := h.exists_cons
  rw [List.cons_append] at htoken ⊢
  rw [lex]
  simp only [hb, Bool.false_eq_true, if_false]
  rw [htoken]

theorem lex_of_fault {n : Nat} {fault : LexFault} (hb : isBlank c = false)
    (h : scan (c :: cs) = ⟨n, .error fault⟩) : lex ⟨c :: cs, p, []⟩ = .error ⟨fault, p + n⟩ := by
  have htoken : lexToken ⟨c :: cs, p, []⟩ =
      (.error ⟨fault, p + n⟩, (⟨c :: cs, p, []⟩ : Cursor).advanceBy n) := by
    simp [lexToken, h, advanceBy]
  rw [lex]
  simp only [hb, Bool.false_eq_true, if_false]
  rw [htoken]

theorem cut_of_lex (h : lex ⟨cs, p, []⟩ = .ok ts) : Cut p cs ts := by
  induction hn : cs.length using Nat.strongRecOn generalizing cs p ts with
  | ind n ih =>
    cases cs with
    | nil =>
      rw [lex_nil] at h
      cases h
      exact .done
    | cons c cs =>
      cases hb : isBlank c with
      | true =>
        rw [lex_blank hb] at h
        exact .blank hb (ih cs.length (by simp [← hn]) h rfl)
      | false =>
        cases hs : scan (c :: cs) with
        | mk n' verdict =>
          cases verdict with
          | error fault =>
            rw [lex_of_fault hb hs] at h
            cases h
          | ok k =>
            obtain ⟨text, rest, heq, -, hfits⟩ := fits_of_scan hb hs
            rw [heq] at h hn ⊢
            rw [lex_of_fits hfits] at h
            obtain ⟨d, ds, rfl, -⟩ := hfits.exists_cons
            cases hl : lex ⟨rest, p + (d :: ds).length, []⟩ with
            | error e =>
              rw [hl] at h
              cases h
            | ok us =>
              rw [hl] at h
              cases h
              have hlt : rest.length < n := by
                rw [← hn, List.length_append, List.length_cons]
                omega
              exact .token hfits (ih rest.length hlt hl rfl)

theorem lex_of_cut (h : Cut p cs ts) : lex ⟨cs, p, []⟩ = .ok ts := by
  induction h with
  | done => exact lex_nil
  | blank hb _ ih => rw [lex_blank hb, ih]
  | token hfits _ ih =>
    rw [lex_of_fits hfits, ih]
    rfl

end Cursor

/-! ## Cuts are tokenizations -/

section
variable {cs text : List Char} {p : Nat} {c : Char} {k : TokenKind} {t : Token} {ts : List Token}

namespace Tokenization

theorem of_blank (h : Tokenization cs (p + 1) ts) (hc : cs[p]? = some c)
    (hb : isBlank c = true) : Tokenization cs p ts where
  start_le t ht := Nat.le_of_succ_le (h.start_le t ht)
  ordered := h.ordered
  nonempty := h.nonempty
  text := h.text
  blank i d hi hd hout := by
    rcases Nat.eq_or_lt_of_le hi with rfl | hi
    · rw [hc] at hd
      cases hd
      exact hb
    · exact h.blank i d hi hd hout
  fits := h.fits

theorem cons (h : Tokenization cs t.stop ts) (hne : t.text ≠ "")
    (htext : cs.extract t.offset t.stop = t.text.toList)
    (hfits : Fits t.kind t.text.toList (cs.drop t.stop)) : Tokenization cs t.offset (t :: ts) where
  start_le := by
    refine List.forall_mem_cons.2 ⟨Nat.le_refl _, fun u hu => ?_⟩
    exact Nat.le_trans (Nat.le_add_right ..) (h.start_le u hu)
  ordered := List.pairwise_cons.2 ⟨h.start_le, h.ordered⟩
  nonempty := List.forall_mem_cons.2 ⟨hne, h.nonempty⟩
  text := List.forall_mem_cons.2 ⟨htext, h.text⟩
  blank i d hi hd hout := by
    obtain ⟨hout, hout'⟩ := List.forall_mem_cons.1 hout
    refine h.blank i d ?_ hd hout'
    omega
  fits := List.forall_mem_cons.2 ⟨hfits, h.fits⟩

theorem tail (h : Tokenization cs p (t :: ts)) : Tokenization cs t.stop ts where
  start_le := (List.pairwise_cons.1 h.ordered).1
  ordered := (List.pairwise_cons.1 h.ordered).2
  nonempty u hu := h.nonempty u (by simp [hu])
  text u hu := h.text u (by simp [hu])
  blank i d hi hd hout := by
    have hp := h.start_le t (by simp)
    have hstop : t.offset ≤ t.stop := Nat.le_add_right ..
    refine h.blank i d (by omega) hd (List.forall_mem_cons.2 ⟨?_, hout⟩)
    omega
  fits u hu := h.fits u (by simp [hu])

theorem offset_lt_stop (h : Tokenization cs p ts) (ht : t ∈ ts) : t.offset < t.stop := by
  have hpos : 0 < t.text.length := by
    refine Nat.pos_of_ne_zero fun h0 => h.nonempty t ht ?_
    simpa using h0
  exact Nat.lt_add_of_pos_right hpos

/-- The text from a token on is that of the token, and what follows. -/
theorem drop_offset (h : Tokenization cs p ts) (ht : t ∈ ts) :
    cs.drop t.offset = t.text.toList ++ cs.drop t.stop := by
  have htext := h.text t ht
  rw [List.extract_eq_take_drop] at htext
  rw [← htext, Token.stop, Nat.add_sub_cancel_left, ← List.drop_drop, List.take_append_drop]

/-- A token starts with a character of the text, which is not blank. -/
theorem exists_getElem? (h : Tokenization cs p ts) (ht : t ∈ ts) :
    ∃ c, cs[t.offset]? = some c ∧ isBlank c = false := by
  obtain ⟨c, ds, htext, hb⟩ := (h.fits t ht).exists_cons
  refine ⟨c, ?_, hb⟩
  rw [← List.head?_drop, h.drop_offset ht, htext, List.cons_append, List.head?_cons]

end Tokenization

theorem tokenization_of_cut {cs' : List Char} (h : Cut p cs' ts) (hcs : cs.drop p = cs') :
    Tokenization cs p ts := by
  induction h with
  | @done p =>
    have hlen : cs.length ≤ p := List.drop_eq_nil_iff.1 hcs
    refine ⟨by simp, .nil, by simp, by simp, fun i c hi hc _ => ?_, by simp⟩
    rw [List.getElem?_eq_none (Nat.le_trans hlen hi)] at hc
    cases hc
  | @blank p c cs' ts hb _ ih =>
    have hc : cs[p]? = some c := by rw [← List.head?_drop, hcs, List.head?_cons]
    have hrest : cs.drop (p + 1) = cs' := by
      rw [← List.drop_drop, hcs, List.drop_one, List.tail_cons]
    exact (ih hrest).of_blank hc hb
  | @token p k text rest ts hfits _ ih =>
    have hrest : cs.drop (p + text.length) = rest := by rw [← List.drop_drop, hcs, List.drop_left]
    have hstop : (⟨k, String.ofList text, p⟩ : Token).stop = p + text.length := by
      simp [Token.stop]
    refine Tokenization.cons (t := ⟨k, String.ofList text, p⟩) (hstop ▸ ih hrest) ?_ ?_ ?_
    · obtain ⟨c, cs, rfl, -⟩ := hfits.exists_cons
      simp
    · rw [hstop, List.extract_eq_take_drop, hcs]
      simp
    · rw [hstop, hrest, String.toList_ofList]
      exact hfits

/-- A character that is not blank belongs to the first token, which starts with it. -/
theorem Tokenization.exists_first (h : Tokenization cs p ts) (hc : cs[p]? = some c)
    (hb : isBlank c = false) : ∃ t us, ts = t :: us ∧ t.offset = p := by
  have hcover : ∃ t ∈ ts, t.offset ≤ p ∧ p < t.stop := by
    refine Classical.by_contradiction fun hnone => ?_
    have hblank := h.blank p c (Nat.le_refl p) hc fun t ht hin => hnone ⟨t, ht, hin⟩
    rw [hb] at hblank
    cases hblank
  obtain ⟨t, ht, hle, -⟩ := hcover
  cases ts with
  | nil => cases ht
  | cons u us =>
    refine ⟨u, us, rfl, ?_⟩
    have hu := h.start_le u (by simp)
    rcases List.mem_cons.1 ht with rfl | ht
    · exact Nat.le_antisymm hle hu
    · have hstop := (List.pairwise_cons.1 h.ordered).1 t ht
      have := h.offset_lt_stop (t := u) (by simp)
      omega

/-- Where a blank stands, no token starts. -/
theorem Tokenization.of_isBlank (h : Tokenization cs p ts) (hc : cs[p]? = some c)
    (hb : isBlank c = true) : Tokenization cs (p + 1) ts where
  start_le t ht := by
    refine Nat.lt_of_le_of_ne (h.start_le t ht) fun heq => ?_
    obtain ⟨d, hd, hnb⟩ := h.exists_getElem? ht
    rw [← heq, hc] at hd
    cases hd
    rw [hb] at hnb
    cases hnb
  ordered := h.ordered
  nonempty := h.nonempty
  text := h.text
  blank i d hi hd hout := h.blank i d (Nat.le_of_succ_le hi) hd hout
  fits := h.fits

theorem cut_of_tokenization (h : Tokenization cs p ts) : Cut p (cs.drop p) ts := by
  induction hn : cs.length - p using Nat.strongRecOn generalizing p ts with
  | ind n ih =>
    cases hc : cs[p]? with
    | none =>
      have hlen : cs.length ≤ p := List.getElem?_eq_none_iff.1 hc
      rw [List.drop_eq_nil_of_le hlen]
      cases ts with
      | nil => exact .done
      | cons t ts =>
        have hstart := h.start_le t (by simp)
        obtain ⟨d, hd, -⟩ := h.exists_getElem? (t := t) (by simp)
        rw [List.getElem?_eq_none (Nat.le_trans hlen hstart)] at hd
        cases hd
    | some c =>
      obtain ⟨hlt, hget⟩ := List.getElem?_eq_some_iff.1 hc
      cases hb : isBlank c with
      | true =>
        rw [List.drop_eq_getElem_cons hlt, hget]
        exact .blank hb (ih _ (by omega) (h.of_isBlank hc hb) rfl)
      | false =>
        obtain ⟨t, us, rfl, rfl⟩ := h.exists_first hc hb
        have hstop := h.offset_lt_stop (t := t) (by simp)
        have hrest : Cut t.stop (cs.drop t.stop) us := ih _ (by omega) h.tail rfl
        rw [Token.stop, ← String.length_toList] at hrest
        rw [h.drop_offset (t := t) (by simp)]
        simpa [Token.stop] using Cut.token (h.fits t (by simp)) hrest

end

/-- **Lexing cuts a text into its tokens**: it finds them if there are any, they are the
    only ones, and it fails if there are none. -/
theorem lex_iff_tokenization (source : String) :
    (∀ ts, lex source = .ok ts ↔ Tokenization source.toList 0 ts) ∧
      (∀ ts ts', Tokenization source.toList 0 ts → Tokenization source.toList 0 ts' → ts = ts') ∧
      ((∃ e, lex source = .error e) ↔ ¬∃ ts, Tokenization source.toList 0 ts) := by
  have hiff : ∀ ts, lex source = .ok ts ↔ Tokenization source.toList 0 ts := fun ts =>
    ⟨fun h => tokenization_of_cut (Cursor.cut_of_lex h) rfl,
      fun h => Cursor.lex_of_cut (cut_of_tokenization h)⟩
  refine ⟨hiff, fun ts ts' h h' => ?_, ?_⟩
  · rw [← hiff] at h h'
    exact Except.ok.inj (h.symm.trans h')
  · simp only [← hiff]
    cases lex source <;> simp

end TinyScript
