import TinyScript.Proofs.Machine.Ready

/-
  Names resolve.

  In a run of an accepted program every name that is looked up is found, calls have
  the right number of arguments, and nothing is ever defined twice in one scope.
  Native functions are arbitrary here: only they can still raise an error of
  resolution.
-/

namespace TinyScript

/-- The error is one of name resolution. -/
def RuntimeError.isResolution : RuntimeError → Bool
  | unknownVariable _ | unknownFunction _ _ | invalidAssignmentReceiver
  | argumentCountMismatch _ _ _ => true
  | _ => false

open Eval

section
variable {r : Registry} {a : Analysis} {D : Discipline r a} {e : RuntimeError}

/-- A variable that analysis has resolved is found. -/
theorem Machine.At.cell? {Δ : List Ty} {Γ : Scope Ty Signature} {m : Machine} {n : Node}
    {x : String} (h : m.At D Δ Γ) (hs : (Expr.var n x).Sound r a Γ) : m.cell? x ≠ none := by
  obtain ⟨t, hx, -⟩ := hs.resolves
  intro hnone
  have hrel := h.scope.lookup? x
  rw [Machine.cell?] at hnone
  rw [hx, hnone] at hrel
  cases hrel

/-- Where all is ready, only a native body raises an error of resolution. -/
theorem Raises.native_of_isResolution {c : Activity} (h : Raises r c (.error e)) (hc : c.Ready D)
    (he : e.isResolution = true) :
    ∃ F body m w, c = ⟨F, .native body, m⟩ ∧ body m.world = .error (.error e) w := by
  cases h with
  | @native F m body w _ hb => exact ⟨F, body, m, w, rfl, hb⟩
  | lookup hx =>
    obtain ⟨Δ, Γ, hat, hs⟩ := hc
    exact absurd hx (hat.cell? hs)
  | function hvs hf =>
    obtain ⟨Δ, Γ, hat, hs⟩ := hc
    obtain ⟨callable, S, hfind, -⟩ := ready_callee hat hs hvs
    rw [hf] at hfind
    cases hfind
  | arity hl =>
    obtain ⟨Δ, Γ, signature, -, -, himp, hv⟩ := hc
    rw [himp.arity] at hl
    exact absurd hv.length_eq.symm hl
  | assigned hx =>
    obtain ⟨Δ, Γ, Γ', result, hat, -, hst⟩ := hc
    cases hst with
    | assign _ hs _ => exact absurd hx (hat.cell? hs)
  | assignedReceiver hr =>
    obtain ⟨Δ, Γ, Γ', result, hat, -, hst⟩ := hc
    cases hst with
    | assign ho _ _ =>
      rw [ho.1] at hr
      cases hr
  | main hf hd hm =>
    obtain ⟨callable, S, hfind, -⟩ := ready_main hc hf hd
    rw [hm] at hfind
    cases hfind
  | operator _ _ _ hb => rcases binary_error hb with rfl | rfl <;> cases he
  | condition _ hb => obtain rfl := asBoolean_error hb; cases he
  | fieldOwner _ hb => obtain rfl := asObject_error hb; cases he
  | field _ hb => obtain rfl := field_error hb; cases he
  | methodOwner _ _ hb => obtain rfl := asObject_error hb; cases he
  | method _ _ _ => cases he
  | depth _ => cases he
  | assignedOwner _ _ hb => obtain rfl := asObject_error hb; cases he
  | assignedField _ _ hb => obtain rfl := setField_error hb; cases he
  | iterable _ hb => obtain rfl := asRange_error hb; cases he

end

/-- **Names resolve**: a run of an accepted program raises an error of resolution only
    if a native body does, and what it defines is new in its scope. -/
theorem names_resolve {tokens : List Token} {r : Registry} {s : Source} {a : Analysis}
    (hp : parse tokens = .ok s) (ha : analyze r s = .ok a) (w : World) (fuel : Nat) :
    (∀ e w', Program.value r w fuel s = (.error (.error e), w') → e.isResolution = true →
      ∃ F body m w'', During r (.start r w fuel s) ⟨F, .native body, m⟩ ∧ r.Provides body ∧
        body m.world = .error (.error e) w'') ∧
    (∀ F x v m, During r (.start r w fuel s) ⟨F, .define x v, m⟩ →
      m.scope.hasLocalVariable x = false) ∧
    ∀ F d m, During r (.start r w fuel s) ⟨F, .method d, m⟩ →
      m.scope.hasLocalFunction d.name d.arity = false := by
  have hstart : (Activity.start r w fuel s).Ready (Discipline.trivial r a) :=
    ready_start hp ha trivial
  refine ⟨fun e w' h he => ?_, fun F x v m h => (h.ready hstart).2,
    fun F d m h => (h.ready hstart).2⟩
  obtain ⟨c, hduring, hraises⟩ := exists_raises_of_value h
  obtain ⟨F, body, m, w'', rfl, hbody⟩ :=
    hraises.native_of_isResolution (hduring.ready hstart) he
  exact ⟨F, body, m, w'', hduring, (hduring.ready hstart).2, hbody⟩

/-- A function of the host that claims not to exist. -/
def refusing : Registry :=
  Registry.empty.define
    ⟨⟨"refuse", [], .nil⟩, fun _ => throw (.error (.unknownFunction "refuse" 0))⟩

/-- The error of that function is traced back to it. -/
theorem names_resolve_refusing : ∃ tokens s a,
    lex "DEF main(): Integer DO refuse(); RETURN 1; END" = .ok tokens ∧ parse tokens = .ok s ∧
      analyze refusing s = .ok a ∧
      ∃ F body m w, During refusing (.start refusing {} 1 s) ⟨F, .native body, m⟩ ∧
        refusing.Provides body ∧ body m.world = .error (.error (.unknownFunction "refuse" 0)) w := by
  have hcheck : (Program.process refusing {} .checkOnly 1
      "DEF main(): Integer DO refuse(); RETURN 1; END").1 = .accepted := by
    decide +kernel
  have hfails : (Program.read "DEF main(): Integer DO refuse(); RETURN 1; END").toOption.map
      (fun s => (Program.value refusing {} 1 s).1) =
        some (.error (.error (.unknownFunction "refuse" 0))) := by
    decide +kernel
  obtain ⟨s, a, hs, ha⟩ := exists_of_accepted _ hcheck
  obtain ⟨tokens, hl, hp⟩ := Program.read_eq_ok.1 hs
  simp only [hs, Except.toOption, Option.map_some, Option.some.injEq] at hfails
  have hvalue : Program.value refusing {} 1 s =
      (.error (.error (.unknownFunction "refuse" 0)), (Program.value refusing {} 1 s).2) := by
    rw [← hfails]
  exact ⟨tokens, s, a, hl, hp, ha, (names_resolve hp ha {} 1).1 _ _ hvalue rfl⟩

end TinyScript
