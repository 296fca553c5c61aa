import Mathlib.Data.List.Perm.Subperm
import Mathlib.Data.String.Basic
import TinyScript.Proofs.Decimal.Value
import TinyScript.Proofs.Depiction
import TinyScript.Proofs.Range
import TinyScript.Value.Arithmetic

/-
  Comparison of values.

  Order and equality are computed apart from each other: values of one kind are ordered by
  what they hold, and equality descends into objects, walking through the fields of both in
  the order of their names.  Both agree where both apply, also on decimals that are written
  differently.

  * `Value.Alike`: values of one of the kinds that are ordered;
  * `World.Affirms`: an operator holds of two values;
  * `World.Distinct`: no object has two fields of one name;
  * `equal?_comm`, `equal?_refl`, `equal?_trans`: equality is an equivalence, on both sides of
    which comparing ends alike;
  * `equal_object_iff`: objects are equal if their types and all their fields are;
  * `comparisons_consistent`: comparisons are a total order on values of one kind, and an
    equivalence on all values.
-/

namespace TinyScript

/-- Two values of one of the kinds that are ordered. -/
inductive Value.Alike : Value → Value → Prop
  | integer (a b : Int) : Alike (.integer a) (.integer b)
  | decimal (a b : Decimal) : Alike (.decimal a) (.decimal b)
  | character (a b : Char) : Alike (.character a) (.character b)
  | string (a b : String) : Alike (.string a) (.string b)

namespace World

variable {w : World}

/-- The comparison evaluates to `TRUE`. -/
def Affirms (w : World) (o : BinaryOperator) (x y : Value) : Prop :=
  w.comparison o x y = .ok (.boolean true)

/-- No object has two fields of one name. -/
def Distinct (w : World) : Prop := ∀ o ∈ w.objects, (o.fields.map Prod.fst).Nodup

end World

/-! ## Order -/

section
variable {w : World} {x y z : Value} {o : Ordering}

theorem Value.compare?_eq_none_iff : x.compare? y = none ↔ ¬x.Alike y := by
  constructor
  · rintro h (_ | _ | _ | _) <;> cases h
  · intro h
    unfold compare?
    split
    · exact absurd (.integer ..) h
    · exact absurd (.decimal ..) h
    · exact absurd (.character ..) h
    · exact absurd (.string ..) h
    · rfl

/-- Values that are ordered are equal exactly if neither comes first. -/
theorem equal?_of_compare? (h : x.compare? y = some o) : w.equal? x y = some (o == .eq) := by
  unfold Value.compare? at h
  split at h <;> cases h
  · simp [World.equal?]
  · rw [World.equal?, Decimal.same]
  · simp [World.equal?]
  · simp [World.equal?]

theorem compare?_trans (hxy : x.compare? y = some .lt) (hyz : y.compare? z = some .lt) :
    x.compare? z = some .lt := by
  unfold Value.compare? at hxy
  split at hxy
  all_goals
    cases z <;> simp only [Value.compare?, Option.some.injEq, reduceCtorEq] at hxy hyz ⊢
  · rw [compare_lt_iff_lt] at hxy hyz ⊢
    exact lt_trans hxy hyz
  · rw [Decimal.compare_eq_compare_value, compare_lt_iff_lt] at hxy hyz ⊢
    exact lt_trans hxy hyz
  · rw [compare_lt_iff_lt] at hxy hyz ⊢
    exact lt_trans hxy hyz
  · rw [compare_lt_iff_lt] at hxy hyz ⊢
    exact lt_trans hxy hyz

end

/-! ## Equality of fields, given that of values -/

/-- Whether fields are equal, entry by entry. -/
def equalEntries? (E : Value → Value → Option Bool) (f g : Fields) : Option Bool :=
  (f.zip g).allM fun (e, e') => if e.1 = e'.1 then E e.2 e'.2 else some false

section
variable {E E' : Value → Value → Option Bool} {f g k : Fields} {r : Bool}

theorem equalEntries?_cons (e e' : String × Value) :
    equalEntries? E (e :: f) (e' :: g) =
      if e.1 = e'.1 then (E e.2 e'.2).bind fun b => if b then equalEntries? E f g else some false
      else some false := by
  rw [equalEntries?, List.zip_cons_cons, List.allM_cons]
  by_cases h : e.1 = e'.1
  · rw [if_pos h]
    exact congrArg (Option.bind · _) (if_pos h)
  · rw [if_neg h]
    exact congrArg (Option.bind · _) (if_neg h)

/-- Answers that hold the other way round are found the other way round. -/
theorem equalEntries?_swap (hE : ∀ v u r, E v u = some r → E' u v = some r)
    (h : equalEntries? E f g = some r) : equalEntries? E' g f = some r := by
  induction f generalizing g with
  | nil => cases g <;> exact h
  | cons e f ih =>
    cases g with
    | nil => exact h
    | cons e' g =>
      rw [equalEntries?_cons] at h ⊢
      by_cases hname : e.1 = e'.1
      · rw [if_pos hname] at h
        obtain ⟨b, hb, hrest⟩ := Option.bind_eq_some_iff.1 h
        rw [if_pos hname.symm, hE _ _ _ hb, Option.bind_some]
        cases b with
        | true => exact ih hrest
        | false => exact hrest
      · rwa [if_neg (Ne.symm hname), ← h, if_neg]

theorem isSome_equalEntries? (hE : ∀ e ∈ f, ∀ v, (E e.2 v).isSome) :
    (equalEntries? E f g).isSome := by
  induction f generalizing g with
  | nil => cases g <;> rfl
  | cons e f ih =>
    cases g with
    | nil => rfl
    | cons e' g =>
      obtain ⟨he, hf⟩ := List.forall_mem_cons.1 hE
      obtain ⟨b, hb⟩ := Option.isSome_iff_exists.1 (he e'.2)
      rw [equalEntries?_cons, hb, Option.bind_some]
      have hrest := ih (g := g) hf
      cases b <;> split <;> simp [hrest]

/-- Fields are equal if their names agree and their values are equal. -/
theorem equalEntries?_eq_true (hlength : f.length = g.length) :
    equalEntries? E f g = some true ↔
      List.Forall₂ (fun e e' => e.1 = e'.1 ∧ E e.2 e'.2 = some true) f g := by
  induction f generalizing g with
  | nil =>
    obtain rfl := List.length_eq_zero_iff.1 hlength.symm
    simp [equalEntries?]
  | cons e f ih =>
    cases g with
    | nil => cases hlength
    | cons e' g =>
      rw [List.forall₂_cons, ← ih (Nat.succ.inj hlength), equalEntries?_cons]
      by_cases hname : e.1 = e'.1
      · rcases hE : E e.2 e'.2 with _ | _ | _ <;> simp [hname]
      · simp [hname]

theorem forall₂_trans {α : Type} {R S T : α → α → Prop} {as bs cs : List α}
    (hRS : ∀ a b c, R a b → S b c → T a c) (h : List.Forall₂ R as bs)
    (h' : List.Forall₂ S bs cs) : List.Forall₂ T as cs := by
  induction h generalizing cs with
  | nil =>
    cases h'
    exact .nil
  | cons hR _ ih =>
    cases h' with
    | cons hS h' => exact .cons (hRS _ _ _ hR hS) (ih h')

end

/-! ## Equality of values -/

namespace World

section
variable {w : World} {a b : ObjectRef} {x y z : Value} {n : Nat} {r : Bool}

theorem equal?_object (w : World) (a b : ObjectRef) :
    w.equal? (.object a) (.object b) =
      if a.type.name = b.type.name ∧ (w.fields a).length = (w.fields b).length then
        equalEntries? w.equal? (w.sorted a) (w.sorted b)
      else some false := by
  rw [equal?]
  rfl

theorem length_sorted (w : World) (a : ObjectRef) : (w.sorted a).length = (w.fields a).length :=
  List.length_mergeSort _

theorem mem_sorted {e : String × Value} : e ∈ w.sorted a ↔ e ∈ w.fields a := List.mem_mergeSort

/-- Objects are equal if the names of their types are, and their fields in the order of their
    names. -/
theorem equal?_object_eq_true :
    w.equal? (.object a) (.object b) = some true ↔
      a.type.name = b.type.name ∧
      List.Forall₂ (fun e e' => e.1 = e'.1 ∧ w.equal? e.2 e'.2 = some true)
        (w.sorted a) (w.sorted b) := by
  rw [equal?_object]
  by_cases h : a.type.name = b.type.name ∧ (w.fields a).length = (w.fields b).length
  · rw [if_pos h, equalEntries?_eq_true (by simp only [length_sorted, h.2]), and_iff_right h.1]
  · rw [if_neg h]
    refine iff_of_false nofun fun ⟨hname, hfields⟩ => h ⟨hname, ?_⟩
    simpa only [length_sorted] using hfields.length_eq

/-- An answer does not depend on the order of what is compared.  By induction on the
    computation, whose steps are the same either way. -/
theorem equal?_swap (h : w.equal? x y = some r) : w.equal? y x = some r := by
  refine equal?.partial_correctness w (fun x y r => w.equal? y x = some r)
    (fun equal? ih x y r h => ?_) x y r h
  split at h
  · rw [World.equal?, ← h]
  · rw [World.equal?, ← h, Bool.beq_comm]
  · rw [World.equal?, ← h, Bool.beq_comm]
  · rw [World.equal?, ← h, Option.some.injEq, Bool.eq_iff_iff, Decimal.same_iff,
      Decimal.same_iff, eq_comm]
  · rw [World.equal?, ← h, Bool.beq_comm]
  · rw [World.equal?, ← h, Bool.beq_comm]
  · rw [World.equal?, ← h, Option.some.injEq, Bool.eq_iff_iff, Range.same_iff, Range.same_iff,
      eq_comm]
  · rename_i a b
    rw [equal?_object]
    by_cases hc : a.type.name = b.type.name ∧ (w.fields a).length = (w.fields b).length
    · rw [if_pos hc] at h
      rw [if_pos ⟨hc.1.symm, hc.2.symm⟩]
      exact equalEntries?_swap ih h
    · rw [if_neg hc] at h
      rwa [if_neg fun hc' => hc ⟨hc'.1.symm, hc'.2.symm⟩]
  · -- different kinds are different the other way round
    cases h
    rw [World.equal?] <;> grind

theorem equal?_comm (w : World) (x y : Value) : w.equal? x y = w.equal? y x :=
  Option.ext fun _ => ⟨equal?_swap, equal?_swap⟩

/-- Comparing can only go on for ever from object to object. -/
theorem isSome_equal?_of_not_object (h : ∀ a b, x = .object a → y ≠ .object b) :
    (w.equal? x y).isSome := by
  rw [World.equal?.eq_def]
  split
  case h_8 a b => exact absurd rfl (h a b rfl)
  all_goals rfl

theorem isSome_equal?_of_shallow (h : w.Shallow n a) :
    (w.equal? (.object a) (.object b)).isSome := by
  induction n generalizing a b with
  | zero => exact h.elim
  | succ n ih =>
    rw [equal?_object]
    split
    · refine isSome_equalEntries? fun e he v => ?_
      obtain ⟨name, u⟩ := e
      cases u with
      | object c =>
        cases v with
        | object d => exact ih (h c ⟨name, mem_sorted.1 he⟩)
        | _ => exact isSome_equal?_of_not_object nofun
      | _ => exact isSome_equal?_of_not_object nofun
    · rfl

/-- **Without cycles on either side, comparing ends.** -/
theorem isSome_equal? (h : w.Acyclic x ∨ w.Acyclic y) : (w.equal? x y).isSome := by
  cases x with
  | object a =>
    cases y with
    | object b =>
      rcases h with ha | hb
      · exact isSome_equal?_of_shallow (shallow_of_acyclic ha)
      · rw [equal?_comm]
        exact isSome_equal?_of_shallow (shallow_of_acyclic hb)
    | _ => exact isSome_equal?_of_not_object nofun
  | _ => exact isSome_equal?_of_not_object nofun

theorem equal?_refl_of (h : ∀ a, x = .object a → w.equal? x x = some true) :
    w.equal? x x = some true := by
  cases x with
  | object a => exact h a rfl
  | decimal d =>
    rw [equal?]
    exact congrArg some (Decimal.same_iff.2 rfl)
  | range g =>
    rw [equal?]
    exact congrArg some (Range.same_iff.2 rfl)
  | nil | boolean c | integer i | character c | string s => simp [equal?]

theorem equal?_refl_of_shallow (h : w.Shallow n a) :
    w.equal? (.object a) (.object a) = some true := by
  induction n generalizing a with
  | zero => exact h.elim
  | succ n ih =>
    refine equal?_object_eq_true.2 ⟨rfl, List.forall₂_same.2 fun e he => ⟨rfl, ?_⟩⟩
    refine equal?_refl_of fun b hb => ?_
    rw [hb]
    exact ih (h b ⟨e.1, hb ▸ mem_sorted.1 he⟩)

theorem equal?_refl (h : w.Acyclic x) : w.equal? x x = some true := by
  refine equal?_refl_of fun a ha => ?_
  subst ha
  exact equal?_refl_of_shallow (shallow_of_acyclic h)

theorem equal?_trans (h : w.equal? x y = some true) (h' : w.equal? y z = some true) :
    w.equal? x z = some true := by
  refine equal?.partial_correctness w
    (fun x y r => r = true → ∀ z, w.equal? y z = some true → w.equal? x z = some true)
    (fun equal? ih x y r h hr z h' => ?_) x y true h rfl z h'
  subst hr
  split at h
  · exact h'
  · rwa [eq_of_beq (Option.some.inj h)]
  · rwa [eq_of_beq (Option.some.inj h)]
  · rename_i d d'
    cases z <;> simp only [World.equal?, Option.some.injEq, reduceCtorEq] at h h' ⊢
    exact Decimal.same_iff.2 ((Decimal.same_iff.1 h).trans (Decimal.same_iff.1 h'))
  · rwa [eq_of_beq (Option.some.inj h)]
  · rwa [eq_of_beq (Option.some.inj h)]
  · rename_i g g'
    cases z <;> simp only [World.equal?, Option.some.injEq, reduceCtorEq] at h h' ⊢
    exact Range.same_iff.2 ((Range.same_iff.1 h).trans (Range.same_iff.1 h'))
  · rename_i a b
    cases z with
    | object c =>
      rw [equal?_object_eq_true] at h' ⊢
      have hc : a.type.name = b.type.name ∧ (w.fields a).length = (w.fields b).length := by
        by_contra hc
        simp [if_neg hc] at h
      rw [if_pos hc] at h
      have hfields := (equalEntries?_eq_true (by simp only [length_sorted, hc.2])).1 h
      refine ⟨hc.1.trans h'.1, forall₂_trans (fun e e' e'' h h' => ?_) hfields h'.2⟩
      exact ⟨h.1.trans h'.1, ih _ _ _ h.2 rfl _ h'.2⟩
    | _ => simp [World.equal?] at h'
  · cases h

theorem Distinct.fields (h : w.Distinct) (a : ObjectRef) : ((w.fields a).map Prod.fst).Nodup := by
  rw [World.fields]
  split
  · rename_i o ho
    exact h o (Array.mem_of_getElem? ho)
  · exact .nil

/-- The names of the fields in their order. -/
theorem pairwise_names (w : World) (a : ObjectRef) :
    ((w.sorted a).map Prod.fst).Pairwise (· ≤ ·) := by
  refine List.pairwise_map.2 (List.Pairwise.imp (fun h => of_decide_eq_true h)
    (List.pairwise_mergeSort (fun e e' e'' h h' => ?_) (fun e e' => ?_) (w.fields a)))
  · exact decide_eq_true (le_trans (of_decide_eq_true h) (of_decide_eq_true h'))
  · simpa using le_total e.1 e'.1

/-- **Equality of objects is structural**: objects are equal if their types have one name and
    they have as many fields, each equal to the field of the same name. -/
theorem equal_object_iff (hw : w.Distinct) :
    w.equal? (.object a) (.object b) = some true ↔
      a.type.name = b.type.name ∧ (w.fields a).length = (w.fields b).length ∧
      ∀ name v, (name, v) ∈ w.fields a →
        ∃ u, Table.get? name (w.fields b) = some u ∧ w.equal? v u = some true := by
  rw [equal?_object_eq_true]
  refine and_congr_right fun _ => ⟨fun h => ⟨?_, fun name v hv => ?_⟩, fun ⟨hlength, h⟩ => ?_⟩
  · simpa only [length_sorted] using h.length_eq
  · obtain ⟨i, hi, he⟩ := List.getElem_of_mem (mem_sorted.2 hv)
    have hi' : i < (w.sorted b).length := h.length_eq ▸ hi
    obtain ⟨hname, hvalue⟩ := (List.forall₂_iff_get.1 h).2 i hi hi'
    simp only [List.get_eq_getElem, he] at hname hvalue
    refine ⟨_, hname ▸ Table.get?_of_mem (hw.fields b) ?_, hvalue⟩
    exact mem_sorted.1 (List.getElem_mem hi')
  · have hsubset : (w.fields a).map Prod.fst ⊆ (w.fields b).map Prod.fst := by
      intro name hname
      obtain ⟨⟨_, v⟩, hv, rfl⟩ := List.mem_map.1 hname
      obtain ⟨u, hu, -⟩ := h _ v hv
      exact List.mem_map.2 ⟨_, Table.mem_of_get? hu, rfl⟩
    have hperm := (List.subperm_of_subset (hw.fields a) hsubset).perm_of_length_le
      (by simp [hlength])
    have hnames : (w.sorted a).map Prod.fst = (w.sorted b).map Prod.fst :=
      List.Perm.eq_of_pairwise (fun _ _ _ _ => le_antisymm) (pairwise_names w a)
        (pairwise_names w b)
        (((List.mergeSort_perm ..).map _).trans (hperm.trans ((List.mergeSort_perm ..).map _).symm))
    refine List.forall₂_iff_get.2 ⟨by simpa only [length_sorted], fun i hi hi' => ?_⟩
    have hname : (w.sorted a)[i].1 = (w.sorted b)[i].1 := by
      simpa [hi, hi'] using congrArg (·[i]?) hnames
    obtain ⟨u, hu, hequal⟩ := h _ _ (mem_sorted.1 (List.getElem_mem hi))
    have hmem : (w.sorted b)[i] ∈ w.fields b := mem_sorted.1 (List.getElem_mem hi')
    have hget : Table.get? (w.sorted b)[i].1 (w.fields b) = some (w.sorted b)[i].2 :=
      Table.get?_of_mem (hw.fields b) hmem
    rw [List.get_eq_getElem, hname, hget, Option.some.injEq] at hu
    exact ⟨hname, hu ▸ hequal⟩

end

end World

/-! ## Comparisons -/

section
variable {w : World} {x y : Value} {o : Ordering}

open World

/-- An operator that orders is decided by which value comes first. -/
theorem comparison_of_compare? {operator : BinaryOperator} {b : Bool}
    (h : x.compare? y = some o) (hb : operator.holds? o = some b) :
    w.comparison operator x y = .ok (.boolean b) := by
  cases operator <;> simp_all [comparison, BinaryOperator.holds?]

theorem affirms_less (h : x.compare? y = some o) : w.Affirms .less x y ↔ o = .lt := by
  rw [Affirms, comparison_of_compare? h rfl]
  simp

theorem affirms_greater (h : x.compare? y = some o) : w.Affirms .greater x y ↔ o = .gt := by
  rw [Affirms, comparison_of_compare? h rfl]
  simp

theorem affirms_lessEqual (h : x.compare? y = some o) : w.Affirms .lessEqual x y ↔ o ≠ .gt := by
  rw [Affirms, comparison_of_compare? h rfl]
  simp

theorem affirms_greaterEqual (h : x.compare? y = some o) :
    w.Affirms .greaterEqual x y ↔ o ≠ .lt := by
  rw [Affirms, comparison_of_compare? h rfl]
  simp

theorem affirms_equal : w.Affirms .equal x y ↔ w.equal? x y = some true := by
  rcases h : w.equal? x y with _ | b <;> simp [Affirms, comparison, h, Stop.answer, Except.map]

theorem Value.Alike.exists_compare? (h : x.Alike y) : ∃ o, x.compare? y = some o := by
  cases hc : x.compare? y with
  | none => exact absurd h (Value.compare?_eq_none_iff.1 hc)
  | some o => exact ⟨o, rfl⟩

theorem affirms_equal_iff (h : x.compare? y = some o) : w.Affirms .equal x y ↔ o = .eq := by
  rw [affirms_equal, equal?_of_compare? h]
  simp

/-- Of two values of one kind exactly one comes first, or both are equal. -/
theorem affirms_one (h : x.compare? y = some o) :
    ∃! operator, operator ∈ [BinaryOperator.less, .equal, .greater] ∧ w.Affirms operator x y := by
  have hless := affirms_less (w := w) h
  have hgreater := affirms_greater (w := w) h
  have hequal := affirms_equal_iff (w := w) h
  cases o with
  | lt => refine ⟨.less, ?_, ?_⟩ <;> simp_all
  | eq => refine ⟨.equal, ?_, ?_⟩ <;> simp_all
  | gt => refine ⟨.greater, ?_, ?_⟩ <;> simp_all

/-- What an ordering operator affirms is ordered. -/
theorem compare?_of_affirms (h : w.Affirms .less x y) : x.compare? y = some .lt := by
  cases hc : x.compare? y with
  | none => simp [Affirms, comparison, hc] at h
  | some o => rw [(affirms_less hc).1 h]

/-- **Comparisons are consistent.**  On values of one ordered kind they are a total order, in
    which decimals written differently can be equal; on others the ordering operators fail.
    Equality is an equivalence on all values without cycles, and inequality its negation.  With
    cycles on one side at most comparing always ends. -/
theorem comparisons_consistent (w : World) :
    (∀ x y, Value.Alike x y →
      (∀ o, o.isComparison = true → ∃ b, w.comparison o x y = .ok (.boolean b)) ∧
      (∃! o, o ∈ [BinaryOperator.less, .equal, .greater] ∧ w.Affirms o x y) ∧
      (w.Affirms .lessEqual x y ↔ w.Affirms .less x y ∨ w.Affirms .equal x y) ∧
      (w.Affirms .greaterEqual x y ↔ w.Affirms .greater x y ∨ w.Affirms .equal x y)) ∧
    (∀ x y z, w.Affirms .less x y → w.Affirms .less y z → w.Affirms .less x z) ∧
    (∀ x y, ¬Value.Alike x y → ∀ o ∈ [BinaryOperator.less, .lessEqual, .greater, .greaterEqual],
      w.comparison o x y = .error (.error (.invalidOperands o x.kindName y.kindName))) ∧
    (∀ x, w.Acyclic x → w.Affirms .equal x x) ∧
    (∀ x y, w.Affirms .equal x y → w.Affirms .equal y x) ∧
    (∀ x y z, w.Affirms .equal x y → w.Affirms .equal y z → w.Affirms .equal x z) ∧
    (∀ x y, w.Acyclic x ∨ w.Acyclic y → ∃ b, w.comparison .equal x y = .ok (.boolean b)) ∧
    ∀ x y b, w.comparison .equal x y = .ok (.boolean b) ↔
      w.comparison .notEqual x y = .ok (.boolean !b) := by
  refine ⟨fun x y h => ?_, fun x y z hxy hyz => ?_, fun x y h o ho => ?_, fun x hx => ?_,
    fun x y h => ?_, fun x y z h h' => ?_, fun x y h => ?_, fun x y b => ?_⟩
  · obtain ⟨c, hc⟩ := h.exists_compare?
    have hequal := affirms_equal_iff (w := w) hc
    refine ⟨fun o ho => ?_, affirms_one hc, ?_, ?_⟩
    · cases o with
      | equal => exact ⟨_, by rw [comparison, equal?_of_compare? hc]; rfl⟩
      | notEqual => exact ⟨_, by rw [comparison, equal?_of_compare? hc]; rfl⟩
      | less | lessEqual | greater | greaterEqual => exact ⟨_, comparison_of_compare? hc rfl⟩
      | _ => cases ho
    · rw [affirms_lessEqual hc, affirms_less hc, hequal]
      cases c <;> simp
    · rw [affirms_greaterEqual hc, affirms_greater hc, hequal]
      cases c <;> simp
  · have hxz := compare?_trans (compare?_of_affirms hxy) (compare?_of_affirms hyz)
    exact (affirms_less hxz).2 rfl
  · rw [← Value.compare?_eq_none_iff] at h
    simp only [List.mem_cons, List.not_mem_nil, or_false] at ho
    rcases ho with rfl | rfl | rfl | rfl <;> simp [comparison, h, invalidOperands]
  · exact affirms_equal.2 (equal?_refl hx)
  · rw [affirms_equal] at h ⊢
    exact equal?_swap h
  · rw [affirms_equal] at h h' ⊢
    exact equal?_trans h h'
  · obtain ⟨b, hb⟩ := Option.isSome_iff_exists.1 (isSome_equal? h)
    exact ⟨b, by rw [comparison, hb]; rfl⟩
  · rcases h : w.equal? x y with _ | c <;> simp [comparison, h, Stop.answer, Except.map]

/-- Two boxes in boxes, with one number inside, written in two ways. -/
def nestedBoxes : World where
  objects := #[⟨⟨"Box", 0⟩, ["content"], [("content", .decimal ⟨15, 1⟩)]⟩,
    ⟨⟨"Box", 0⟩, ["content"], [("content", .object ⟨⟨"Box", 0⟩, 0⟩)]⟩,
    ⟨⟨"Box", 0⟩, ["content"], [("content", .decimal ⟨150, 2⟩)]⟩,
    ⟨⟨"Box", 0⟩, ["content"], [("content", .object ⟨⟨"Box", 0⟩, 2⟩)]⟩]

/-- Boxes only contain boxes made before. -/
theorem location_lt_of_contains {a b : ObjectRef} (h : nestedBoxes.Contains a b) :
    b.location < a.location := by
  have hlt := h.location_lt
  obtain ⟨name, h⟩ := h
  obtain ⟨t, l⟩ := a
  match l, hlt with
  | 0, _ | 2, _ => simp [fields, nestedBoxes] at h
  | 1, _ | 3, _ =>
    simp only [fields, nestedBoxes, List.getElem?_toArray, List.getElem?_cons_succ,
      List.getElem?_cons_zero, List.mem_singleton, Prod.mk.injEq, Value.object.injEq] at h
    simp [h.2]

/-- The two boxes are equal, either way round. -/
theorem comparisons_consistent_nested :
    let outer : Value := .object ⟨⟨"Box", 0⟩, 1⟩
    let other : Value := .object ⟨⟨"Box", 0⟩, 3⟩
    nestedBoxes.Distinct ∧ nestedBoxes.Acyclic outer ∧ nestedBoxes.Affirms .equal outer outer ∧
      nestedBoxes.Affirms .equal outer other ∧ nestedBoxes.Affirms .equal other outer := by
  intro outer other
  have hdistinct : nestedBoxes.Distinct := by
    intro o ho
    simp only [nestedBoxes, List.mem_toArray, List.mem_cons, List.not_mem_nil, or_false] at ho
    rcases ho with rfl | rfl | rfl | rfl <;> exact List.nodup_singleton _
  have hacyclic : nestedBoxes.Acyclic outer := by
    intro a b _ _ hcycle
    have hlt : ∀ c, Relation.TransGen nestedBoxes.Contains b c → c.location < b.location := by
      intro c hc
      induction hc with
      | single h => exact location_lt_of_contains h
      | tail _ h ih => exact Nat.lt_trans (location_lt_of_contains h) ih
    exact Nat.lt_irrefl _ (hlt b hcycle)
  have hequal : nestedBoxes.Affirms .equal outer other := by
    have hsame : (⟨15, 1⟩ : Decimal).same ⟨150, 2⟩ = true := rfl
    simp [affirms_equal, outer, other, equal?, sorted, fields, nestedBoxes, hsame]
  obtain ⟨-, -, -, hrefl, hsymm, -⟩ := comparisons_consistent nestedBoxes
  exact ⟨hdistinct, hacyclic, hrefl outer hacyclic, hequal, hsymm outer other hequal⟩

end

end TinyScript
