import TinyScript.Proofs.Typing.Rules
import TinyScript.Proofs.Typing.Universe

/-
  The functions that a piece of syntax calls.

  Analysis has found every function that an accepted program calls: for the initial values of
  global variables among those of the host, and for the bodies of methods among those of the
  host and the methods.  Variables that are declared on the way change nothing.

  * `CallsWithin`: all calls are of functions among the given ones;
  * `Scope.Knows`: a scope has a function;
  * `Stmts.Scoped.callsWithin`, `Method.Scoped.callsWithin`: accepted syntax calls what its
    scope has.
-/

namespace TinyScript

/-! ## Functions that are called -/

/-- The parts call none but these functions. -/
def CallsWithin (K : String → Nat → Prop) (ps : List Part) : Prop :=
  ∀ n f es, Part.expr (.call n f es) ∈ ps → K f es.length

namespace CallsWithin

variable {K : String → Nat → Prop} {ps qs : List Part}

theorem of_all (h : ∀ f k, K f k) : CallsWithin K ps := fun _ f es _ => h f es.length

theorem mono {K' : String → Nat → Prop} (h : CallsWithin K ps) (hK : ∀ f k, K f k → K' f k) :
    CallsWithin K' ps := fun n f es hmem => hK f es.length (h n f es hmem)

theorem append_iff : CallsWithin K (ps ++ qs) ↔ CallsWithin K ps ∧ CallsWithin K qs := by
  simp only [CallsWithin, List.mem_append]
  exact ⟨fun h => ⟨fun n f es hp => h n f es (.inl hp), fun n f es hq => h n f es (.inr hq)⟩,
    fun h n f es hmem => hmem.elim (h.1 n f es) (h.2 n f es)⟩

theorem append (hp : CallsWithin K ps) (hq : CallsWithin K qs) : CallsWithin K (ps ++ qs) :=
  append_iff.2 ⟨hp, hq⟩

theorem left (h : CallsWithin K (ps ++ qs)) : CallsWithin K ps := (append_iff.1 h).1

theorem right (h : CallsWithin K (ps ++ qs)) : CallsWithin K qs := (append_iff.1 h).2

end CallsWithin

/-! ## Functions that analysis has found -/

section
variable {r : Registry} {a : Analysis} {Γ Γ' : Scope Ty Signature}

/-- The scope has a function of the name and arity. -/
def Scope.Knows (Γ : Scope Ty Signature) (f : String) (k : Nat) : Prop :=
  ∃ signature, Γ.function? f k = some signature

theorem Scope.knows_defineVariable (Γ : Scope Ty Signature) (x : String) (t : Ty) :
    (Γ.defineVariable x t).Knows = Γ.Knows := by
  funext f k
  rw [Knows, Knows, function?_defineVariable]

theorem Expr.Sound.callsWithin {e : Expr} (h : e.Sound r a Γ) : CallsWithin Γ.Knows e.parts := by
  intro n f es hmem
  obtain ⟨e', he', heq⟩ := List.mem_map.1 hmem
  cases heq
  obtain ⟨-, signature, hf, -⟩ := h _ he'
  exact ⟨signature, hf⟩

theorem callsWithin_optional {value : Option Expr} (h : ∀ e ∈ value, e.Sound r a Γ) :
    CallsWithin Γ.Knows (Expr.optionalParts value) := by
  cases value with
  | none => exact fun _ _ _ hmem => absurd hmem List.not_mem_nil
  | some e => exact (h e rfl).callsWithin

variable {result : Ty}

mutual

/-- The functions that an accepted statement calls are in scope, and it declares none. -/
theorem Stmt.Scoped.callsWithin : (st : Stmt) → {Γ Γ' : Scope Ty Signature} →
    Stmt.Scoped r a result Γ st Γ' → CallsWithin Γ.Knows st.parts ∧ Γ'.Knows = Γ.Knows
  | .expression e, _, _, .expression _ he => ⟨he.callsWithin, rfl⟩
  | .declare d, Γ, _, .declare _ he _ _ => by
    refine ⟨CallsWithin.append (callsWithin_optional he) ?_, Γ.knows_defineVariable d.name _⟩
    exact fun _ _ _ hmem => nomatch List.mem_singleton.1 hmem
  | .assign receiver value, _, _, .assign _ hreceiver hvalue =>
    ⟨CallsWithin.append hreceiver.callsWithin hvalue.callsWithin, rfl⟩
  | .branch c ss ss', _, _, .branch _ hc hss hss' =>
    ⟨CallsWithin.append (CallsWithin.append hc.callsWithin (Stmts.Scoped.callsWithin ss hss).1)
      (Stmts.Scoped.callsWithin ss' hss').1, rfl⟩
  | .forEach x value ss, Γ, _, .forEach _ hvalue hss => by
    refine ⟨CallsWithin.append hvalue.callsWithin ?_, rfl⟩
    have hbody := (Stmts.Scoped.callsWithin ss hss).1
    rwa [Scope.knows_defineVariable] at hbody
  | .loop c ss, _, _, .loop _ hc hss =>
    ⟨CallsWithin.append hc.callsWithin (Stmts.Scoped.callsWithin ss hss).1, rfl⟩
  | .ret _ value, _, _, .ret _ hvalue => ⟨hvalue.callsWithin, rfl⟩
termination_by structural st => st

theorem Stmts.Scoped.callsWithin : (ss : List Stmt) → {Γ Γ' : Scope Ty Signature} →
    Stmts.Scoped r a result Γ ss Γ' → CallsWithin Γ.Knows (Stmt.partsList ss) ∧ Γ'.Knows = Γ.Knows
  | [], _, _, .nil => ⟨fun _ _ _ hmem => absurd hmem List.not_mem_nil, rfl⟩
  | st :: ss, _, _, .cons hst hss => by
    obtain ⟨hcalls, hknows⟩ := Stmt.Scoped.callsWithin st hst
    obtain ⟨hcalls', hknows'⟩ := Stmts.Scoped.callsWithin ss hss
    exact ⟨CallsWithin.append hcalls (hknows ▸ hcalls'), hknows'.trans hknows⟩
termination_by structural ss => ss

end

theorem Fields.Scoped.callsWithin {fs : List Field} (h : Fields.Scoped r a Γ fs Γ') :
    CallsWithin Γ.Knows (fs.flatMap Field.parts) ∧ Γ'.Knows = Γ.Knows := by
  induction h with
  | nil => exact ⟨fun _ _ _ hmem => absurd hmem List.not_mem_nil, rfl⟩
  | @cons Γ Γ' f fs t _ he _ _ _ ih =>
    obtain ⟨hcalls, hknows⟩ := ih
    rw [Scope.knows_defineVariable] at hcalls hknows
    refine ⟨CallsWithin.append (CallsWithin.append (callsWithin_optional he) ?_) hcalls, hknows⟩
    exact fun _ _ _ hmem => nomatch List.mem_singleton.1 hmem

theorem Parameters.Scoped.knows {ps : List Parameter} {ts : List Ty}
    (h : Parameters.Scoped Γ ps ts Γ') : Γ'.Knows = Γ.Knows := by
  induction h with
  | nil => rfl
  | cons _ _ ih => exact ih.trans (Scope.knows_defineVariable ..)

theorem Method.Scoped.callsWithin {d : Method} {signature : Signature}
    (h : d.Scoped r a Γ signature) : CallsWithin Γ.Knows (Stmt.partsList d.body) := by
  obtain ⟨Γ₁, Γ₂, hparameters, hbody⟩ := h
  have hcalls := (Stmts.Scoped.callsWithin _ hbody).1
  rwa [hparameters.knows] at hcalls

/-- After the methods are registered, the scope has them besides what it had. -/
theorem Methods.Scoped.knows {ds : List Method} (h : Methods.Scoped r a Γ ds Γ') {f : String}
    {k : Nat} (hf : Γ'.Knows f k) : Γ.Knows f k ∨ ∃ d ∈ ds, d.name = f ∧ d.arity = k := by
  induction h with
  | nil => exact .inl hf
  | @cons Γ Γ' d ds signature _ _ _ ih =>
    rcases ih hf with ⟨signature', hs⟩ | ⟨d', hd', hkey⟩
    · rw [Scope.function?_defineFunction] at hs
      split at hs
      · rename_i heq
        exact .inr ⟨d, List.mem_cons_self, heq.1.symm, heq.2.symm⟩
      · exact .inl ⟨signature', hs⟩
    · exact .inr ⟨d', List.mem_cons_of_mem d hd', hkey⟩

end

end TinyScript
