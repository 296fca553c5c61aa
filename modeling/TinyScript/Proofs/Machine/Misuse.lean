import TinyScript.Proofs.Machine.Resolution

/-
  What a run that respects a discipline can still run into.

  Names resolve, so an activity that is ready fails by itself only where it uses a value
  that may stand for the type that analysis has recorded, and the use fails; or where too
  many calls are in progress.  All other errors come from the functions of the host.

  * `Discipline.Misuse`: the uses of values that fail;
  * `Raises.misuse_or_native`: there are no other errors.

  Which of these uses there are depends on the discipline.
-/

namespace TinyScript

open Eval

variable {r : Registry} {a : Analysis}

/-- The error of using values that may stand for their types, or of calling too deep. -/
inductive Discipline.Misuse (D : Discipline r a) : RuntimeError → Prop
  | operator {w : World} {o : BinaryOperator} {s t u : Ty} {x y : Value} {e : RuntimeError} :
      BinaryRule o s t u → ¬(o = .and ∨ o = .or) → D.val w s x → D.val w t y →
      w.binary o x y = .error (.error e) → Misuse D e
  | condition {w : World} {x : Value} {e : RuntimeError} :
      D.val w .boolean x → x.asBoolean = .error e → Misuse D e
  | iterable {w : World} {x : Value} {e : RuntimeError} :
      D.val w .integerIterable x → x.asRange = .error e → Misuse D e
  | object {w : World} {type : TypeRef} {x : Value} {e : RuntimeError} :
      a.Mentions type → D.val w (.object type) x → x.asObject = .error e → Misuse D e
  | field {w : World} {type : TypeRef} {ref : ObjectRef} {x : String} {t : Ty} {e : RuntimeError} :
      a.Mentions type → D.world w → D.val w (.object type) (.object ref) →
      (r.describe type).fieldType? x = some t → w.field ref x = .error e → Misuse D e
  | setField {w : World} {type : TypeRef} {ref : ObjectRef} {x : String} {t : Ty} {v : Value}
      {e : RuntimeError} :
      a.Mentions type → D.world w → D.val w (.object type) (.object ref) →
      (r.describe type).fieldType? x = some t → D.val w t v → w.setField ref x v = .error e →
      Misuse D e
  | method {w : World} {type : TypeRef} {ref : ObjectRef} {x : String} {k : Nat}
      {f : NativeFunction} :
      a.Mentions type → D.world w → D.val w (.object type) (.object ref) →
      (r.describe type).method? x k = some f → (r.describe ref.type).method? x k = none →
      Misuse D (.unknownMethod ref.type.name x k)
  | depth : Misuse D (.callDepthExceeded callLimit)

section
variable {D : Discipline r a} {e : RuntimeError} {c : Activity}

/-- Where all is ready, an error comes from using a value or from a native body. -/
theorem Raises.misuse_or_native (h : Raises r c (.error e)) (hc : c.Ready D) :
    D.Misuse e ∨ ∃ F body m w, c = ⟨F, .native body, m⟩ ∧ body m.world = .error (.error e) w := by
  by_cases hres : e.isResolution = true
  · exact Or.inr (h.native_of_isResolution hc hres)
  cases h with
  | @native F m body w _ hb => exact Or.inr ⟨F, body, m, w, rfl, hb⟩
  | lookup _ | function _ _ | arity _ | assigned _ | assignedReceiver _ | main _ _ _ =>
    exact absurd rfl hres
  | depth _ => exact Or.inl .depth
  | operator ho hl hr hb =>
    obtain ⟨Δ, Γ, hat, hs⟩ := hc
    obtain ⟨s, t, u, hs', ht', hrule, -⟩ := hs.obeys
    obtain ⟨Δ₁, hat₁, -, hx⟩ := hat.expr hs.left hl
    obtain ⟨Δ₂, -, hmoves, hy⟩ := hat₁.expr hs.right hr
    have hx' := (hx.later hmoves.later).val hs'
    exact Or.inl (.operator hrule ho hx' (hy.val ht') hb)
  | condition hv hb =>
    obtain ⟨Δ, Γ, hat, hs, ht⟩ := hc
    obtain ⟨-, -, -, hf⟩ := hat.expr hs hv
    exact Or.inl (.condition (hf.val ht) hb)
  | fieldOwner hv hb =>
    obtain ⟨Δ, Γ, hat, hs⟩ := hc
    obtain ⟨owner, t, howner, -⟩ := hs.obeys
    obtain ⟨-, -, -, hf⟩ := hat.expr hs.fieldOwner hv
    exact Or.inl (.object ⟨_, howner⟩ (hf.val howner) hb)
  | field hv hb =>
    obtain ⟨Δ, Γ, hat, hs⟩ := hc
    obtain ⟨owner, t, howner, hx, -⟩ := hs.obeys
    obtain ⟨Δ₁, hat₁, -, hf⟩ := hat.expr hs.fieldOwner hv
    exact Or.inl (.field ⟨_, howner⟩ hat₁.typed.world (hf.val howner) hx hb)
  | methodOwner hv hvs hb =>
    obtain ⟨Δ, Γ, hat, hs⟩ := hc
    obtain ⟨owner, g, howner, -⟩ := hs.obeys
    obtain ⟨-, -, -, hf⟩ := hat.expr hs.methodOwner hv
    exact Or.inl (.object ⟨_, howner⟩ (hf.val howner) hb)
  | method hv hvs hb =>
    obtain ⟨Δ, Γ, hat, hs⟩ := hc
    obtain ⟨owner, g, howner, hg, -⟩ := hs.obeys
    obtain ⟨Δ₁, hat₁, -, hf⟩ := hat.expr hs.methodOwner hv
    obtain ⟨-, -, -, hfs⟩ := hat₁.exprs hs.methodArguments hvs
    rw [hfs.length_eq] at hg
    exact Or.inl (.method ⟨_, howner⟩ hat₁.typed.world (hf.val howner) hg hb)
  | assignedOwner hv _ hb =>
    obtain ⟨Δ, Γ, Γ', result, hat, -, hst⟩ := hc
    cases hst with
    | assign _ hs _ =>
      obtain ⟨owner, t, howner, -⟩ := hs.obeys
      obtain ⟨-, -, -, hf⟩ := hat.expr hs.fieldOwner hv
      exact Or.inl (.object ⟨_, howner⟩ (hf.val howner) hb)
  | assignedField hv hv' hb =>
    obtain ⟨Δ, Γ, Γ', result, hat, -, hst⟩ := hc
    cases hst with
    | assign ho hs hs' =>
      obtain ⟨-, t, ht, hacc⟩ := ho
      obtain ⟨owner, t', howner, hx, -, ht'⟩ := hs.obeys
      obtain ⟨Δ₁, hat₁, -, hf⟩ := hat.expr hs.fieldOwner hv
      obtain ⟨Δ₂, hat₂, hmoves, hf'⟩ := hat₁.expr hs' hv'
      have hto : some t = some t' := ht.symm.trans ht'
      cases hto
      exact Or.inl (.setField ⟨_, howner⟩ hat₂.typed.world
        ((hf.later hmoves.later).val howner) hx (hf'.accepts hacc) hb)
  | iterable hv hb =>
    obtain ⟨Δ, Γ, Γ', result, hat, -, hst⟩ := hc
    cases hst with
    | forEach ht hs _ =>
      obtain ⟨-, -, -, hf⟩ := hat.expr hs hv
      exact Or.inl (.iterable (hf.val ht) hb)

end

end TinyScript
