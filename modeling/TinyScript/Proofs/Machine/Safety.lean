import TinyScript.Proofs.Machine.Soundness

/-
  Type safety of programs that give everything a value.

  In such a program every variable has an initial value, or is declared to hold `NIL`
  only, and every method with a result definitely returns.  `NIL` then stands for its own
  type alone, and with the standard functions no value is ever of a wrong kind: what can
  still go wrong is dividing by zero, calling too deep, and asking for a logarithm that is
  not defined.

  * `Source.initialised`: the program gives everything a value;
  * `Discipline.strict`: values are of their types, without exception;
  * `RuntimeError.Unavoidable`: the errors that remain;
  * `safe_of_initialised`: no other error occurs, and the result is an integer.
-/

namespace TinyScript

open Eval

/-! ## Programs that give everything a value -/

/-- A variable has an initial value or is declared `Nil`; a method has no result, or
    definitely returns. -/
def Part.initialised : Part → Bool
  | expr _ => true
  | declaration d => d.value.isSome || d.typeName == some "Nil"
  | field f => f.value.isSome || f.typeName == "Nil"
  | method d =>
    d.resultName == none || d.resultName == some "Nil" || Stmt.returnsList d.body

/-- The program gives everything a value. -/
def Source.initialised (s : Source) : Bool := s.parts.all Part.initialised

section
variable {r : Registry} {a : Analysis}

theorem resolve?_nil : r.resolve? "Nil" = some .nil := rfl

theorem DeclarationRule.eq_nil {value : Option Expr} {t : Ty}
    (h : DeclarationRule r a (some "Nil") value t) : t = .nil :=
  (Option.some.inj (resolve?_nil.symm.trans h.1)).symm

/-- A part that gives everything a value leaves nothing without one, if `NIL` may stand for
    its own type. -/
theorem Discipline.covers_of_initialised (D : Discipline r a) (hnil : D.AllowsNil .nil)
    {p : Part} (ho : p.Obeys r a) (hp : p.initialised = true) : D.Covers p := by
  cases p with
  | expr e => exact .intro
  | declaration d =>
    intro hvalue t ht
    obtain ⟨t', ht', hr⟩ := ho
    obtain rfl : t = t' := Option.some.inj (ht.symm.trans ht')
    have hname : d.typeName = some "Nil" := by simpa [Part.initialised, hvalue] using hp
    rw [hname] at hr
    exact hr.eq_nil ▸ hnil
  | field f =>
    intro hvalue t ht
    obtain ⟨t', ht', hr⟩ := ho
    obtain rfl : t = t' := Option.some.inj (ht.symm.trans ht')
    have hname : f.typeName = "Nil" := by simpa [Part.initialised, hvalue] using hp
    rw [hname] at hr
    exact hr.eq_nil ▸ hnil
  | method d =>
    intro signature hsignature
    obtain ⟨signature', hsignature', -, -, hresult⟩ := ho
    obtain rfl : signature = signature' := Option.some.inj (hsignature.symm.trans hsignature')
    simp only [Part.initialised, Bool.or_eq_true, beq_iff_eq] at hp
    rcases hp with (hname | hname) | hreturns
    · rw [Method.HasResult, hname] at hresult
      exact Or.inl (hresult ▸ hnil)
    · rw [Method.HasResult, hname] at hresult
      exact Or.inl (Option.some.inj (resolve?_nil.symm.trans hresult.1) ▸ hnil)
    · exact Or.inr hreturns

end

/-! ## The standard functions -/

/-- The errors that no analysis rules out: a program divides by zero, calls too deep, or
    asks for a logarithm that is not defined. -/
inductive RuntimeError.Unavoidable : RuntimeError → Prop
  | division : Unavoidable .divisionByZero
  | depth : Unavoidable (.callDepthExceeded callLimit)
  | logarithm {d : Decimal} : d.logarithm? = none →
      Unavoidable (.invalidArgument s!"logarithm of {d.text} is undefined")

/-- With the standard functions there are no object types. -/
theorem unambiguous_standard : Registry.standard.Unambiguous fun _ => False := by
  refine ⟨fun s t hs => hs.elim, fun name type h => ?_, fun f hf => ?_,
    fun type h => h.elim, fun type h => h.elim⟩
  · cases h
  · change f ∈ Registry.standardFunctions at hf
    simp only [Registry.standardFunctions, List.mem_cons, List.not_mem_nil, or_false] at hf
    rcases hf with rfl | rfl | rfl <;> simp [Signature.Within, Ty.Within]

/-- On arguments of the right types the standard functions fail only where a logarithm is
    not defined. -/
theorem standard_eq_error {f : NativeFunction} (hf : f ∈ Registry.standardFunctions)
    {vs : List Value} (hvs : List.Forall₂ (fun t v => v.Inhabits t) f.signature.parameters vs)
    {w w' : World} {e : RuntimeError} (h : f.body vs w = .error (.error e) w') : e.Unavoidable := by
  simp only [Registry.standardFunctions, List.mem_cons, List.not_mem_nil, or_false] at hf
  rcases hf with rfl | rfl | rfl
  · obtain ⟨v, _, -, hnil, rfl⟩ := List.forall₂_cons_left_iff.1 hvs
    obtain rfl := List.forall₂_nil_left_iff.1 hnil
    cases (Native.print_eq_error.1 h).2.1
  · obtain ⟨v, _, hv, hnil, rfl⟩ := List.forall₂_cons_left_iff.1 hvs
    obtain rfl := List.forall₂_nil_left_iff.1 hnil
    obtain ⟨d, rfl⟩ := Value.inhabits_decimal.1 hv
    simp only [Native.logarithm] at h
    cases hd : d.logarithm? with
    | some q =>
      rw [hd] at h
      cases h
    | none =>
      rw [hd] at h
      cases h
      exact .logarithm hd
  · obtain ⟨x, _, hx, hrest, rfl⟩ := List.forall₂_cons_left_iff.1 hvs
    obtain ⟨y, _, hy, hnil, rfl⟩ := List.forall₂_cons_left_iff.1 hrest
    obtain rfl := List.forall₂_nil_left_iff.1 hnil
    obtain ⟨i, rfl⟩ := Value.inhabits_integer.1 hx
    obtain ⟨j, rfl⟩ := Value.inhabits_integer.1 hy
    cases h

/-! ## What a run keeps -/

section
variable {a : Analysis} {hm : ∀ type, ¬a.Mentions type} {w : World} {fuel : Nat} {s : Source}
  {e : RuntimeError}

/-- The discipline of values that are of their types, where there are no objects. -/
def Discipline.strict (hm : ∀ type, ¬a.Mentions type) : Discipline Registry.standard a where
  val _ t v := v.Inhabits t
  world _ := True
  later _ _ := True
  later_refl _ := .intro
  later_trans _ _ := .intro
  val_later _ hv := hv
  val_accepts hacc hv := hv.accepts hacc
  val_literal _ l := Value.inhabits_ofLiteral l
  val_binary ho hr hx hy h := binary_inhabits hr ho (Or.inr hx) (Or.inr hy) h
  val_field hmen _ _ _ _ := absurd hmen (hm _)
  setField hmen _ _ _ _ _ := absurd hmen (hm _)
  function hf _ _ h := ⟨(standard_eq_ok hf h).1, .intro, .intro⟩
  method hmen _ _ _ _ _ _ := absurd hmen (hm _)

/-- Using values of the right types fails only on a division by zero. -/
theorem Discipline.Misuse.unavoidable (h : (Discipline.strict hm).Misuse e) : e.Unavoidable := by
  cases h with
  | operator hrule ho hx hy hb =>
    rw [binary_error_of_inhabits hrule ho hx hy hb]
    exact .division
  | condition hx hb =>
    obtain ⟨b, rfl⟩ := Value.inhabits_boolean.1 hx
    cases hb
  | iterable hx hb =>
    obtain ⟨g, rfl⟩ := Value.inhabits_integerIterable.1 hx
    cases hb
  | object hmen _ _ => exact absurd hmen (hm _)
  | field hmen _ _ _ _ => exact absurd hmen (hm _)
  | setField hmen _ _ _ _ _ => exact absurd hmen (hm _)
  | method hmen _ _ _ _ => exact absurd hmen (hm _)
  | depth => exact .depth

/-- A native body that runs is that of a standard function, on arguments of the right
    types. -/
theorem During.exists_standard {F : Nat} {body : Native Value} {m : Machine}
    (h : During Registry.standard (.start Registry.standard w fuel s) ⟨F, .native body, m⟩)
    (hstart : (Activity.start Registry.standard w fuel s).Ready (Discipline.strict hm)) :
    ∃ f ∈ Registry.standardFunctions, ∃ vs,
      List.Forall₂ (fun t v => v.Inhabits t) f.signature.parameters vs ∧ body = f.body vs := by
  -- the types of the arguments are known to the call that has started the body
  rcases Relation.ReflTransGen.cases_tail h with heq | ⟨c, hduring, hstarts⟩
  · cases heq
  · have hready := During.ready hduring hstart
    cases hstarts with
    | nativeBody _ =>
      obtain ⟨Δ, Γ, signature, -, -, ⟨hf, rfl⟩, hvs⟩ := hready
      exact ⟨_, hf, _, hvs, rfl⟩
    | methodBody _ _ hg => cases hg

theorem Raises.unavoidable {c : Activity} (h : Raises Registry.standard c (.error e))
    (hduring : During Registry.standard (.start Registry.standard w fuel s) c)
    (hstart : (Activity.start Registry.standard w fuel s).Ready (Discipline.strict hm)) :
    e.Unavoidable := by
  rcases h.misuse_or_native (hduring.ready hstart) with hmisuse | ⟨F, body, m, w', rfl, hbody⟩
  · exact hmisuse.unavoidable
  · obtain ⟨f, hf, vs, hvs, rfl⟩ := hduring.exists_standard hstart
    exact standard_eq_error hf hvs hbody

end

/-! ## Safety -/

/-- No value in a run with the standard functions is of a wrong kind. -/
structure Program.Safe (a : Analysis) (w : World) (fuel : Nat) (s : Source) : Prop where
  /-- Values are of the types recorded for their expressions. -/
  expression : ∀ F e m v m',
    During Registry.standard (.start Registry.standard w fuel s) ⟨F, .expr e, m⟩ →
    Eval.expr Registry.standard (invoke Registry.standard F) e m = .ok v m' →
    ∃ t, a.types[e.id]? = some t ∧ v.Inhabits t
  /-- Nothing in the run fails with an error that could be avoided. -/
  error : ∀ c e, During Registry.standard (.start Registry.standard w fuel s) c →
    c.Fails Registry.standard e → e.Unavoidable
  /-- The run ends with an integer or with such an error, if the fuel lasts. -/
  outcome : (∃ n, (Program.value Registry.standard w fuel s).1 = .ok (.integer n)) ∨
    (∃ e, e.Unavoidable ∧ (Program.value Registry.standard w fuel s).1 = .error (.error e)) ∨
    (Program.value Registry.standard w fuel s).1 = .error .outOfFuel
  /-- As an exit status, the integer can only be out of range. -/
  status : ∀ w' e, Program.execute Registry.standard w fuel s = (.failed (.runtime e), w') →
    e.Unavoidable ∨ ∃ n, Program.value Registry.standard w fuel s = (.ok (.integer n), w') ∧
      Value.fitsInt32 n = false ∧ e = .exitStatusOutOfRange n

theorem Value.exitStatus_integer_error {n : Int} {e : RuntimeError}
    (h : (Value.integer n).exitStatus = .error e) :
    Value.fitsInt32 n = false ∧ e = .exitStatusOutOfRange n := by
  change (if Value.fitsInt32 n then Except.ok n else .error (.exitStatusOutOfRange n)) =
    .error e at h
  by_cases hn : Value.fitsInt32 n = true
  · rw [if_pos hn] at h
    cases h
  · rw [if_neg hn] at h
    cases h
    exact ⟨by simpa using hn, rfl⟩

/-- A program that ends without exit status has failed, or its result is no exit status. -/
theorem Program.value_of_execute {r : Registry} {w w' : World} {fuel : Nat} {s : Source}
    {e : RuntimeError} (h : Program.execute r w fuel s = (.failed (.runtime e), w')) :
    Program.value r w fuel s = (.error (.error e), w') ∨
      ∃ v, Program.value r w fuel s = (.ok v, w') ∧ v.exitStatus = .error e := by
  rw [Program.execute] at h
  split at h
  · rename_i v w₁ hv
    split at h
    · cases h
    · rename_i e' he
      cases h
      exact Or.inr ⟨v, hv, he⟩
  · rename_i e' w₁ he
    cases h
    exact Or.inl he
  · cases h

/-- **Type safety**: a program that gives everything a value ends with an integer, or
    with an error that no analysis rules out. -/
theorem safe_of_initialised {tokens : List Token} {s : Source} {a : Analysis}
    (hp : parse tokens = .ok s) (ha : analyze Registry.standard s = .ok a)
    (hi : s.initialised = true) (w : World) (fuel : Nat) : Program.Safe a w fuel s := by
  obtain ⟨hchecked, hwithin⟩ := sound_of_analyze (nodup_ids_of_parse hp) ha
  have hm : ∀ type, ¬a.Mentions type := fun type ⟨id, ht⟩ =>
    within_of_mentions hchecked (hchecked.consistent.complete hwithin) unambiguous_standard ht
  have hcovers : ∀ p ∈ s.parts, (Discipline.strict hm).Covers p := fun p hmem =>
    (Discipline.strict hm).covers_of_initialised (fun _ => rfl) (hchecked.consistent.parts p hmem)
      (List.all_eq_true.1 hi p hmem)
  have hstart : (Activity.start Registry.standard w fuel s).Ready (Discipline.strict hm) :=
    ready_start_of_covers hp ha .intro hcovers
  have hresult : ∀ v w', Program.value Registry.standard w fuel s = (.ok v, w') →
      ∃ n, v = .integer n := by
    intro v w' h
    obtain ⟨m', hm', -⟩ := Program.value_eq_ok.1 h
    exact Value.inhabits_integer.1 (hstart.result hm').1
  have hfailure : ∀ e w', Program.value Registry.standard w fuel s = (.error (.error e), w') →
      e.Unavoidable := by
    intro e w' h
    obtain ⟨c, hduring, hraises⟩ := exists_raises_of_value h
    exact hraises.unavoidable hduring hstart
  refine ⟨fun F e m v m' hc he => (hc.ready hstart).fits he, ?_, ?_, ?_⟩
  · intro c e hc hfails
    obtain ⟨c', hduring, hraises⟩ := hfails.origin
    exact hraises.unavoidable (hc.trans hduring) hstart
  · rcases h : Program.value Registry.standard w fuel s with ⟨(e | _) | v, w'⟩
    · exact Or.inr (Or.inl ⟨e, hfailure e w' h, rfl⟩)
    · exact Or.inr (Or.inr rfl)
    · obtain ⟨n, rfl⟩ := hresult v w' h
      exact Or.inl ⟨n, rfl⟩
  · intro w' e h
    rcases Program.value_of_execute h with he | ⟨v, hv, hstatus⟩
    · exact Or.inl (hfailure e w' he)
    · obtain ⟨n, rfl⟩ := hresult v w' hv
      obtain ⟨hn, rfl⟩ := Value.exitStatus_integer_error hstatus
      exact Or.inr ⟨n, hv, hn, rfl⟩

/-- A program with a method that returns on both sides of a choice. -/
def halfText : String :=
  "DEF half(n: Integer): Integer DO IF n < 0 DO RETURN 0; ELSE RETURN n / 2; END END
   DEF main(): Integer DO LET x: Nil; RETURN half(5); END"

/-- Type safety of that program. -/
theorem safe_of_initialised_half : ∃ s a, Program.read halfText = .ok s ∧
    analyze Registry.standard s = .ok a ∧ s.initialised = true ∧ Program.Safe a {} 2 s := by
  have hcheck : (Program.read halfText).toOption.map (fun s =>
      s.initialised && (analyze Registry.standard s).isOk) = some true := by
    decide +kernel
  rcases hs : Program.read halfText with _ | s
  · rw [hs] at hcheck
    cases hcheck
  · rw [hs] at hcheck
    obtain ⟨tokens, -, hp⟩ := Program.read_eq_ok.1 hs
    obtain ⟨hi, hok⟩ := Bool.and_eq_true_iff.1 (Option.some.inj hcheck)
    rcases ha : analyze Registry.standard s with _ | a
    · rw [ha] at hok
      cases hok
    · exact ⟨s, a, rfl, ha, hi, safe_of_initialised hp ha hi {} 2⟩

end TinyScript
