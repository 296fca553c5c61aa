import Mathlib.Algebra.Field.Rat
import Mathlib.Data.List.TakeWhile
import Mathlib.Tactic.FieldSimp
import Mathlib.Tactic.Ring
import TinyScript.Literal
import TinyScript.Proofs.Token.Form

/-
  What numerals denote, and that numbers are written as they are read.

  * `Decimal.value`: the number that a decimal stands for;
  * `integer?_signed`, `decimal?_signed`: a numeral stands for its digits and its sign;
  * `integer?_toString`: an integer reads back;
  * `exists_digits_of_text`: a decimal reads back as the same number, and as the same
    decimal if it has digits after the point.
-/

namespace TinyScript

/-- The number that a decimal stands for. -/
def Decimal.value (d : Decimal) : ℚ := d.digits * 10 ^ (-d.scale)

namespace Numeral

variable {sign ds ds' : List Char}

/-! ## Reading digits -/

theorem ne_of_isDigit {c d : Char} (h : d.isDigit = true) (hc : c.isDigit = false) : d ≠ c := by
  rintro rfl
  rw [hc] at h
  cases h

/-- Digits stand for their positional value. -/
theorem readDigits_of_isDigit (h : ∀ d ∈ ds, d.isDigit = true) (acc : Nat) :
    readDigits acc ds = some (Nat.ofDigitChars 10 ds acc) := by
  induction ds generalizing acc with
  | nil => rfl
  | cons d ds ih =>
    have hd : d.isDigit = true := h d (by simp)
    have hne : d ≠ '_' := ne_of_isDigit hd rfl
    rw [Nat.ofDigitChars_cons, ← ih (fun c hc => h c (by simp [hc]))]
    simp [readDigits, hd, hne, digitValue]

theorem natural?_of_digits (h : Digits ds) : natural? ds = some (Nat.ofDigitChars 10 ds 0) := by
  rw [← readDigits_of_isDigit h.2]
  obtain ⟨d, ds, rfl, hd⟩ := h.exists_cons
  have hne : d ≠ '_' := ne_of_isDigit hd rfl
  simp [natural?, hne]

/-- The number with the sign. -/
def signed (sign : List Char) (n : Nat) : Int := if sign = ['-'] then -n else n

theorem integer?_signed (hs : Sign sign) (hd : Digits ds) :
    integer? (sign ++ ds) = some (signed sign (Nat.ofDigitChars 10 ds 0)) := by
  have hnat := natural?_of_digits hd
  rcases hs with rfl | rfl | rfl
  · obtain ⟨d, ds, rfl, hdigit⟩ := hd.exists_cons
    rw [List.nil_append, integer?, hnat]
    · rfl
    · rintro cs ⟨⟩
      exact ne_of_isDigit (c := '-') hdigit rfl rfl
    · rintro cs ⟨⟩
      exact ne_of_isDigit (c := '+') hdigit rfl rfl
  · simp [integer?, hnat, signed]
  · simp [integer?, hnat, signed]

theorem plain_of_isDigit {d : Char} (h : d.isDigit = true) :
    d ≠ '.' ∧ isExponentMark d = false := by
  have he := ne_of_isDigit (c := 'e') h rfl
  have hE := ne_of_isDigit (c := 'E') h rfl
  exact ⟨ne_of_isDigit h rfl, by simp [isExponentMark, he, hE]⟩

/-- The point and the mark of an exponent are neither sign nor digit. -/
theorem plain_of_mem (hs : Sign sign) (hd : Digits ds) :
    ∀ c ∈ sign ++ ds, c ≠ '.' ∧ isExponentMark c = false := by
  intro c hc
  rcases List.mem_append.1 hc with hc | hc
  · rcases hs with rfl | rfl | rfl <;> simp_all [isExponentMark]
  · exact plain_of_isDigit (hd.2 c hc)

/-- The first point cuts a text in two. -/
theorem cut_at_point {cs : List Char} (h : ∀ c ∈ cs, c ≠ '.') (cs' : List Char) :
    (cs ++ '.' :: cs').takeWhile (· != '.') = cs ∧
      ((cs ++ '.' :: cs').dropWhile (· != '.')).drop 1 = cs' := by
  have hcs : ∀ c ∈ cs, (c != '.') = true := fun c hc => bne_iff_ne.2 (h c hc)
  rw [List.takeWhile_append_of_pos hcs, List.dropWhile_append_of_pos hcs]
  simp

/-- A decimal stands for its digits, with those after the point counted. -/
theorem decimal?_signed (hs : Sign sign) (hd : Digits ds) (hd' : Digits ds')
    (hscale : isScale ds'.length = true) :
    decimal? (sign ++ (ds ++ '.' :: ds')) =
      some ⟨signed sign (Nat.ofDigitChars 10 (ds ++ ds') 0), ds'.length⟩ := by
  have hplain := plain_of_mem hs hd
  have hmark : ∀ c ∈ sign ++ ds ++ '.' :: ds', (!isExponentMark c) = true := by
    intro c hc
    rw [Bool.not_eq_true']
    rcases List.mem_append.1 hc with hc | hc
    · exact (hplain c hc).2
    · rcases List.mem_cons.1 hc with rfl | hc
      · rfl
      · exact (plain_of_isDigit (hd'.2 c hc)).2
  have hfilter : ds'.filter (· != '_') = ds' :=
    List.filter_eq_self.2 fun d hd => bne_iff_ne.2 (ne_of_isDigit (hd'.2 d hd) rfl)
  obtain ⟨hwhole, hfraction⟩ := cut_at_point (fun c hc => (hplain c hc).1) ds'
  have hint := integer?_signed hs (hd.append hd'.2)
  rw [← List.append_assoc] at hint ⊢
  have hzero : (ds'.length : Int) - 0 = ds'.length := Int.sub_zero _
  rw [decimal?]
  simp only [List.takeWhile_eq_self_iff.2 hmark, List.dropWhile_eq_nil_iff.2 hmark, hwhole,
    hfraction, hfilter, hint, Option.bind_eq_bind, Option.bind_eq_some_iff,
    Option.ite_none_right_eq_some]
  exact ⟨0, rfl, _, rfl, (congrArg isScale hzero).trans hscale, by rw [hzero]⟩

/-! ## Writing digits -/

theorem digits_repr (n : Nat) : Digits n.repr.toList := by
  rw [Nat.toList_repr]
  exact ⟨Nat.toDigits_ne_nil, fun d hd => Nat.isDigit_of_mem_toDigits (by decide) (by decide) hd⟩

@[simp] theorem ofDigitChars_repr (n : Nat) : Nat.ofDigitChars 10 n.repr.toList 0 = n := by
  rw [Nat.toList_repr, Nat.ofDigitChars_ten_toDigits]

/-- The sign that stands before an integer. -/
def signOf (n : Int) : List Char := if n < 0 then ['-'] else []

theorem sign_signOf (n : Int) : Sign (signOf n) := by
  unfold signOf
  split
  · exact Or.inr (Or.inr rfl)
  · exact Or.inl rfl

/-- The sign and the magnitude make up a number; a further factor stays with the magnitude. -/
theorem signed_signOf (n : Int) (k : Nat) : signed (signOf n) (n.natAbs * k) = n * k := by
  unfold signOf
  split
  · have habs : (n.natAbs : Int) = -n := by omega
    simp [signed, habs]
  · have habs : (n.natAbs : Int) = n := by omega
    simp [signed, habs]

theorem toList_toString (n : Int) : (toString n).toList = signOf n ++ n.natAbs.repr.toList := by
  change n.repr.toList = _
  rw [Int.repr_eq_if, signOf]
  by_cases hn : 0 ≤ n
  · have habs : n.toNat = n.natAbs := by omega
    rw [if_pos hn, if_neg (by omega), habs, List.nil_append]
  · have habs : (-n).toNat = n.natAbs := by omega
    rw [if_neg hn, if_pos (by omega), habs, String.toList_append]
    rfl

theorem integer?_toString (n : Int) : integer? (toString n).toList = some n := by
  have h := signed_signOf n 1
  rw [toList_toString, integer?_signed (sign_signOf n) (digits_repr _), ofDigitChars_repr]
  simpa using h

/-! ## Plain notation -/

/-- The plain notation has digits on either side of the point: those of the number after
    the point as many as the scale says, or else one more zero than the number needs. -/
theorem exists_digits_of_unsignedText (n : Nat) (scale : Int) :
    ∃ ds ds', Decimal.unsignedText n scale = ds ++ '.' :: ds' ∧ Digits ds ∧ Digits ds' ∧
      (scale ≤ 0 ∧ ds'.length = 1 ∧
          Nat.ofDigitChars 10 (ds ++ ds') 0 = n * 10 ^ (scale.natAbs + 1) ∨
        1 ≤ scale ∧ (ds'.length : Int) = scale ∧ Nat.ofDigitChars 10 (ds ++ ds') 0 = n) := by
  have hrepr := digits_repr n
  have hpos : 0 < n.repr.toList.length := List.length_pos_of_ne_nil hrepr.1
  have hzeros : ∀ (k : Nat), ∀ d ∈ List.replicate k '0', d.isDigit = true := by
    intro k d hd
    rw [List.eq_of_mem_replicate hd]
    rfl
  have hzero : Digits ['0'] := ⟨by simp, hzeros 1⟩
  have hvalue := ofDigitChars_repr n
  unfold Decimal.unsignedText
  dsimp only
  split
  · rename_i hscale
    refine ⟨n.repr.toList ++ List.replicate scale.natAbs '0', ['0'], by simp,
      hrepr.append (hzeros _), hzero, Or.inl ⟨hscale, rfl, ?_⟩⟩
    have hone : ['0'] = List.replicate 1 '0' := rfl
    rw [Nat.ofDigitChars_append, Nat.ofDigitChars_append, hvalue, hone,
      Nat.ofDigitChars_replicate_zero, Nat.ofDigitChars_replicate_zero]
    ring
  rename_i hscale
  split
  · rename_i hlt
    refine ⟨n.repr.toList.take (n.repr.toList.length - scale.toNat),
      n.repr.toList.drop (n.repr.toList.length - scale.toNat), rfl, ⟨?_, ?_⟩, ⟨?_, ?_⟩,
      Or.inr ⟨by omega, ?_, ?_⟩⟩
    · refine List.ne_nil_of_length_pos ?_
      rw [List.length_take]
      omega
    · exact fun d hd => hrepr.2 d (List.mem_of_mem_take hd)
    · refine List.ne_nil_of_length_pos ?_
      rw [List.length_drop]
      omega
    · exact fun d hd => hrepr.2 d (List.mem_of_mem_drop hd)
    · rw [List.length_drop]
      omega
    · rw [List.take_append_drop, hvalue]
  · rename_i hle
    refine ⟨['0'], List.replicate (scale.toNat - n.repr.toList.length) '0' ++ n.repr.toList, rfl,
      hzero, ⟨by simp, ?_⟩, Or.inr ⟨by omega, ?_, ?_⟩⟩
    · intro d hd
      exact (List.mem_append.1 hd).elim (hzeros _ d) (hrepr.2 d)
    · rw [List.length_append, List.length_replicate]
      omega
    · rw [Nat.ofDigitChars_append, Nat.ofDigitChars_append, Nat.ofDigitChars_replicate_zero]
      exact hvalue

/-- The plain notation of a decimal, taken apart, and the decimal it reads back as. -/
theorem exists_digits_of_text (d : Decimal) (hscale : isScale d.scale = true) :
    ∃ ds ds' d', d.text.toList = signOf d.digits ++ (ds ++ '.' :: ds') ∧ Digits ds ∧ Digits ds' ∧
      decimal? d.text.toList = some d' ∧ d'.value = d.value ∧ (1 ≤ d.scale → d' = d) := by
  obtain ⟨ds, ds', htext, hd, hd', hform⟩ := exists_digits_of_unsignedText d.digits.natAbs d.scale
  have hlist : d.text.toList = signOf d.digits ++ (ds ++ '.' :: ds') := by
    rw [Decimal.text, htext, signOf]
    split <;> simp
  rw [hlist]
  rcases hform with ⟨hle, hlen, hvalue⟩ | ⟨hpos, hlen, hvalue⟩
  · have hread := decimal?_signed (sign_signOf d.digits) hd hd' (by rw [hlen]; decide)
    rw [hvalue, signed_signOf, hlen] at hread
    refine ⟨ds, ds', _, rfl, hd, hd', hread, ?_, fun h => absurd h (by omega)⟩
    have hneg : -d.scale = d.scale.natAbs := by omega
    simp only [Decimal.value, hneg, Nat.cast_one, zpow_natCast, zpow_neg, zpow_one]
    push_cast
    field_simp
    ring
  · have hread := decimal?_signed (sign_signOf d.digits) hd hd' (by rwa [hlen])
    have hsigned := signed_signOf d.digits 1
    rw [Nat.mul_one] at hsigned
    rw [hvalue, hsigned, hlen] at hread
    have hsame : (⟨d.digits * (1 : Nat), d.scale⟩ : Decimal) = d := by simp
    rw [hsame] at hread
    exact ⟨ds, ds', d, rfl, hd, hd', hread, rfl, fun _ => rfl⟩

end Numeral

end TinyScript
